import PdfContent.Proofs.Drawing.Fonts
import PdfContent.Proofs.Font.Characters
/-!
# Strings — what a builder is told of a string that is shown

Between the start and the end of a string, each of its characters is told, and nothing else.  The characters cover the
string, so a builder can tell which bytes each of them is.  Where the glyphs of a font are content that is drawn, the
characters are the same, but in place of each one the builder is told what its glyph consists of.
-/
namespace PdfContent

/-- The code of a character that a builder is told, and how many bytes it takes. -/
def Event.char? {α : Type} : Event α → Option (Nat × Nat)
  | .call (.addChar _ p) => some (p.code, p.length)
  | _ => none

namespace Machine

variable {α : Type} [Scalar α]

/-- When the first `k` characters of a string have been shown in a font. -/
def shownUpTo (env : Environment α) (inner : Inner α) (f : Font) (s : Bytes) (k : Nat) (m : Machine α) : Machine α :=
  let t := m.state.text
  ((f.chars s).items.take k).foldl (showChar env inner f t.size (t.delta Scalar.zero t.rise)) (m.tellState (.beginString · s))

variable {env : Environment α} {inner : Inner α} {f : Font} {s : Bytes} {m : Machine α}

/-- When all characters have been shown, a panic may come in place of another one. -/
theorem showString_log (hm : m.state.text.font = some f) : ∃ state, (m.showString env inner s).log =
    .call (.endString state) :: (((f.chars s).panic?.map fun p => .report (.panic p)).toList ++
      (m.shownUpTo env inner f s (f.chars s).items.length).log) := by
  unfold showString shownUpTo takeAll
  rw [hm, List.take_length]
  dsimp only
  cases (f.chars s).panic? <;> exact ⟨_, rfl⟩

theorem showChar_told (hd : ¬(f.type = .type3 ∧ env.drawsGlyphs)) (size : α) (rise : Point α) (c : FontChar) :
    ∃ e : Event α, (m.showChar env inner f size rise c).log = e :: m.log ∧ e.char? = some (c.code, c.length) := by
  unfold showChar
  dsimp only
  rw [if_neg (by simpa using hd)]
  exact ⟨_, rfl, rfl⟩

theorem showChar_drawn (hd : f.type = .type3 ∧ env.drawsGlyphs) (size : α) (rise : Point α) (c : FontChar) :
    ∃ pen, (m.showChar env inner f size rise c).log = (m.drawGlyph env inner f c.code pen).log := by
  unfold showChar
  dsimp only
  rw [if_pos (by simpa using hd)]
  exact ⟨_, rfl⟩

/-- Characters that are told are told one after the other. -/
theorem foldl_showChar_told (hd : ¬(f.type = .type3 ∧ env.drawsGlyphs)) (size : α) (rise : Point α) (cs : List FontChar)
    (m : Machine α) : ∃ told : Log α, (cs.foldl (showChar env inner f size rise) m).log = told ++ m.log ∧
      told.reverse.map Event.char? = cs.map fun c => some (c.code, c.length) := by
  induction cs generalizing m with
  | nil => exact ⟨[], rfl, rfl⟩
  | cons c cs ih =>
    obtain ⟨e, he, hc⟩ : ∃ e : Event α, (m.showChar env inner f size rise c).log = e :: m.log ∧
        e.char? = some (c.code, c.length) := showChar_told hd size rise c
    obtain ⟨told, ht, hcs⟩ := ih (m.showChar env inner f size rise c)
    refine ⟨told ++ [e], ?_, ?_⟩
    · rw [List.foldl_cons, ht, he, List.append_assoc, List.singleton_append]
    · rw [List.reverse_append, List.reverse_singleton, List.singleton_append, List.map_cons, hc, hcs, List.map_cons]

theorem shownUpTo_drawn (hd : f.type = .type3 ∧ env.drawsGlyphs) (k : Nat) (hk : k < (f.chars s).items.length) :
    ∃ pen, (m.shownUpTo env inner f s (k + 1)).log =
      ((m.shownUpTo env inner f s k).drawGlyph env inner f (f.chars s).items[k].code pen).log := by
  unfold shownUpTo
  rw [List.take_succ_eq_append_getElem hk, List.foldl_append, List.foldl_cons, List.foldl_nil]
  exact showChar_drawn hd _ _ _

/-- **A string is shown as characters that cover it.**  For every font that is read from a dictionary and every string,
each character takes at least one byte, all of them together take all bytes, and the code of each one is the number of
the bytes between those of the characters before it and those of the characters after it.  They are what a builder is
told between the start and the end of the string, in their order.  If the glyphs are content that is drawn, each turn
tells what drawing the glyph of the character tells instead.  A glyph whose number does not fit into a word is a panic in
place of its character. -/
theorem string_covered {st : Store} {d : Dict} (hf : Font.ofDict st d = .ok f) (hm : m.state.text.font = some f)
    (env : Environment α) (inner : Inner α) (s : Bytes) :
    f.Reads s (f.chars s) ∧
    (m.shownUpTo env inner f s 0).log = .call (.beginString m.state s) :: m.log ∧
    (∃ state, (m.showString env inner s).log =
      .call (.endString state) :: (((f.chars s).panic?.map fun p => .report (.panic p)).toList ++
        (m.shownUpTo env inner f s (f.chars s).items.length).log)) ∧
    (¬(f.type = .type3 ∧ env.drawsGlyphs) → ∃ told : Log α,
      (m.shownUpTo env inner f s (f.chars s).items.length).log = told ++ .call (.beginString m.state s) :: m.log ∧
      told.reverse.map Event.char? = (f.chars s).items.map fun c => some (c.code, c.length)) ∧
    (f.type = .type3 ∧ env.drawsGlyphs → ∀ k (hk : k < (f.chars s).items.length), ∃ pen,
      (m.shownUpTo env inner f s (k + 1)).log =
        ((m.shownUpTo env inner f s k).drawGlyph env inner f (f.chars s).items[k].code pen).log) := by
  refine ⟨(Font.ofDict_proper st d f hf).reads s, rfl, showString_log hm, fun hd => ?_, fun hd => shownUpTo_drawn hd⟩
  unfold shownUpTo
  rw [List.take_length]
  exact foldl_showChar_told hd _ _ _ _

/-- Three bytes in a font with codes of two bytes: the last one is a character of its own. -/
theorem odd_string_covered :
    let d : Dict := .ofList [(.ofText "Subtype", .name (.ofText "Type0")),
      (.ofText "DescendantFonts", .array [.dict .empty])]
    let f : Font := ⟨.type0, none, .none, none, .composite ⟨.ofIdentity false, .none, [], 1000, [], 880, -1000⟩⟩
    let env : Environment Float := ⟨.empty, .silent, true, .default⟩
    let m := (start env [] .empty .identity).useFont (some f) 9
    Font.ofDict .empty d = .ok f ∧ m.state.text.font = some f ∧ ¬(f.type = .type3 ∧ env.drawsGlyphs) ∧
      ∃ (before after : State Float) (told : Log Float),
        (m.showString env (fun _ m => m) [0x41, 0x42, 0x43]).log =
          .call (.endString after) :: told ++ [.call (.beginString before [0x41, 0x42, 0x43])] ∧
        told.reverse.map Event.char? = [some (0x4142, 2), some (0x43, 1)] := by
  intro d f env m
  have accepted : Font.ofDict .empty d = .ok f := rfl
  have selected : m.state.text.font = some f := rfl
  have reported : ¬(f.type = .type3 ∧ env.drawsGlyphs) := nofun
  obtain ⟨-, -, ⟨after, ended⟩, shown, -⟩ := string_covered accepted selected env (fun _ m => m) [0x41, 0x42, 0x43]
  obtain ⟨told, between, codes⟩ := shown reported
  exact ⟨accepted, selected, reported, m.state, after, told, ended.trans (congrArg _ between), codes⟩

/-- A string of one byte in a font whose glyphs are content, which they lack: no character is told. -/
theorem drawn_string_uncovered :
    let font : Dict := .ofList [(.ofText "Subtype", .name (.ofText "Type3"))]
    let resources : Dict := .ofList [(.ofText "Font", .dict (.ofList [(.ofText "F", .dict font)]))]
    let env : Environment Float := ⟨.empty, .silent, true, .default⟩
    let m := session env (.cell resources ⟨0, 0, 0, 0⟩) [.content (.stream ⟨.empty, shownText⟩)]
    (∃ f, Font.ofDict .empty font = .ok f) ∧
      (∃ s t u, m.finish.log = [.call (.endString s), .call (.beginString t [0x41]), .call (.updateFont u)]) ∧
      m.finish.log.filterMap Event.char? = [] := by
  intro font resources env m
  obtain ⟨a, b, c, items⟩ := items_shown env.store
  have drawn : m = run env levels _ (opening env (.cell resources ⟨0, 0, 0, 0⟩)) :=
    congrArg (run env levels · (opening env (.cell resources ⟨0, 0, 0, 0⟩))) items
  have log : ∃ s t u, m.finish.log =
      [.call (.endString s), .call (.beginString t [0x41]), .call (.updateFont u)] := by
    rw [drawn]
    exact ⟨_, _, _, rfl⟩
  refine ⟨⟨_, rfl⟩, log, ?_⟩
  obtain ⟨s, t, u, log⟩ := log
  rw [log]
  rfl

end Machine

end PdfContent
