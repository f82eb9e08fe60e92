import PdfContent.Font.Basic
import PdfContent.Proofs.Font.Codespace
import PdfContent.Proofs.Yields
/-!
# Characters — the characters of a string cover it

A font that was read from a dictionary takes at least one byte of a string for a character, and never more than there
are (`FontChar.ReadFrom`).  So the characters that it reads one after the other end with the string (`Font.Reads`).
-/
namespace PdfContent

open Bytes

namespace FontChar

/-- Whether a character is read from the start of a string: its code is the number of the bytes it takes. -/
structure ReadFrom (c : FontChar) (s : Bytes) : Prop where
  positive : 1 ≤ c.length
  within : c.length ≤ s.length
  code : c.code = bigEndian (s.take c.length)

/-- Whether reading gives a character that is read from the start of a string, if it gives anything. -/
def Reading (char : Checked (Option FontChar)) (s : Bytes) : Prop :=
  ∀ c, char = .ok c → ∃ c', c = some c' ∧ c'.ReadFrom s

/-- What is read stays read if neither code nor length are changed. -/
theorem Reading.map {char : Checked (Option FontChar)} {s : Bytes} (h : Reading char s) {g : FontChar → FontChar}
    (hg : ∀ c, (g c).length = c.length ∧ (g c).code = c.code) : Reading (char.map (Option.map g)) s := by
  intro c hc
  obtain ⟨_, hchar, rfl⟩ := Checked.map_eq_ok_iff.mp hc
  obtain ⟨c, rfl, read⟩ := h _ hchar
  refine ⟨g c, rfl, ?_, ?_, ?_⟩
  · exact (hg c).1 ▸ read.positive
  · exact (hg c).1 ▸ read.within
  · rw [(hg c).1, (hg c).2]
    exact read.code

def taken : List FontChar → Nat
  | [] => 0
  | c :: cs => c.length + taken cs

end FontChar

open FontChar

namespace CompositeFont

/-- Every map that a font is given is proper: an embedded one, a predefined one, or the identity in place of others. -/
theorem mapOf_proper (st : Store) (d : Dict) : Yields CMap.Proper (mapOf st d) := by
  have identity (vertical : Bool) : (CMap.ofIdentity vertical).Proper := CMap.proper_of_twoBytes rfl
  unfold mapOf
  split
  case h_1 n _ =>
    refine .pure ?_
    cases hp : CMap.predefined? n with
    | none => exact identity false
    | some m => exact CMap.proper_of_twoBytes (CMap.predefined?_codespace hp)
  case h_2 s _ =>
    refine .map fun data => ?_
    unfold readMap
    split
    case h_1 => exact identity false
    case h_2 data =>
      have parsed := CMap.parse_proper data
      dsimp only
      split <;> exact ⟨parsed.nonempty, parsed.sizes⟩
  case h_3 => exact .pure (identity false)

theorem ofDict_proper (st : Store) (d : Dict) : Yields (fun f => f.cmap.Proper) (ofDict st d) := by
  unfold ofDict
  split
  · exact .throw _
  · exact .bind_of fun cmap h => .bind fun _ => .bind fun _ => .pure ((mapOf_proper st d).mapError _ cmap h)

theorem nextChar?_read {f : CompositeFont} (hf : f.cmap.Proper) {s : Bytes} (hs : s ≠ []) :
    Reading (f.nextChar? s) s := by
  obtain ⟨n, hn, h1, hl, -⟩ := hf.nextCode? hs
  intro c hc
  simp only [nextChar?, hn] at hc
  obtain ⟨glyph, -, rfl⟩ := Checked.map_eq_ok_iff.mp hc
  refine ⟨_, rfl, ?_⟩
  unfold charOf
  dsimp only
  split <;> exact ⟨h1, hl, rfl⟩

end CompositeFont

theorem SimpleFont.nextChar?_read (f : SimpleFont) {s : Bytes} (hs : s ≠ []) : Reading (.ok (f.nextChar? s)) s := by
  cases s with
  | nil => exact absurd rfl hs
  | cons b r =>
    intro c hc
    cases hc
    refine ⟨_, rfl, Nat.le_refl _, Nat.succ_le_succ (Nat.zero_le _), ?_⟩
    exact (Nat.zero_add _).symm

namespace Font

def Proper (f : Font) : Prop :=
  match f.kind with
  | .simple _ => True
  | .composite c => c.cmap.Proper

theorem ofDict_proper (st : Store) (d : Dict) : Yields Proper (ofDict st d) := by
  unfold ofDict
  dsimp only
  split
  case h_2 => exact .throw _
  split
  case h_2 => exact .throw _
  have read (program : Option Bytes) (type : FontType) (baseFont : Option Name) : Yields Proper (do
      if type = .type0 then
        let f ← CompositeFont.ofDict st d
        return (⟨type, baseFont, f.flags, program.map ToUnicode.parse, .composite f⟩ : Font)
      else
        let flags := FontFlags.ofFont st d
        return ⟨type, baseFont, flags, program.map ToUnicode.parse, .simple (.ofDict st d type flags)⟩) :=
    .branch (.bind_of fun f hf => .pure (CompositeFont.ofDict_proper st d f hf)) (.pure trivial)
  split
  · exact .bind fun program => read program _ _
  · exact .bind fun program => read program _ _

/-- **A font reads a character from every string that is not empty**, unless there is a panic. -/
theorem Proper.nextChar? {f : Font} (hf : f.Proper) {s : Bytes} (hs : s ≠ []) : Reading (f.nextChar? s) s := by
  unfold Proper at hf
  unfold Font.nextChar?
  refine Reading.map ?_ fun c => by split <;> exact ⟨rfl, rfl⟩
  cases hk : f.kind with
  | simple g => exact g.nextChar?_read hs
  | composite g =>
    rw [hk] at hf
    exact CompositeFont.nextChar?_read hf hs

theorem nextChar?_nil (f : Font) : f.nextChar? [] = .ok none := by
  unfold Font.nextChar?
  cases f.kind <;> rfl

/-- Whether characters are those of a string: each is the next one behind the bytes of those before it, which are not
empty.  Either there is none behind the last one, and they take all bytes, or a panic comes in its place. -/
structure Reads (f : Font) (s : Bytes) (cs : Emission FontChar) : Prop where
  next : ∀ k (h : k < cs.items.length), f.nextChar? (s.drop (taken (cs.items.take k))) = .ok (some cs.items[k])
  last : f.nextChar? (s.drop (taken cs.items)) = cs.panic?.elim (.ok none) .error
  positive : ∀ c ∈ cs.items, 1 ≤ c.length
  within : taken cs.items ≤ s.length
  whole : cs.panic? = none → taken cs.items = s.length
  code : ∀ k (h : k < cs.items.length),
    cs.items[k].code = bigEndian ((s.drop (taken (cs.items.take k))).take cs.items[k].length)

variable {f : Font} {s : Bytes}

theorem Reads.nil (f : Font) : f.Reads [] .nil where
  next _ h := absurd h (Nat.not_lt_zero _)
  last := f.nextChar?_nil
  positive := nofun
  within := Nat.le_refl _
  whole _ := rfl
  code _ h := absurd h (Nat.not_lt_zero _)

theorem Reads.panic {p : Panic} (h : f.nextChar? s = .error p) : f.Reads s ⟨[], some p⟩ where
  next _ h := absurd h (Nat.not_lt_zero _)
  last := h
  positive := nofun
  within := Nat.zero_le _
  whole := nofun
  code _ h := absurd h (Nat.not_lt_zero _)

theorem Reads.cons {c : FontChar} {cs : Emission FontChar} (hc : f.nextChar? s = .ok (some c)) (read : c.ReadFrom s)
    (rest : f.Reads (s.drop c.length) cs) : f.Reads s (.one c ++ cs) where
  next
    | 0, _ => hc
    | k + 1, h => by
      change f.nextChar? (s.drop (c.length + taken (cs.items.take k))) = _
      rw [← List.drop_drop]
      exact rest.next k (Nat.lt_of_succ_lt_succ h)
  last := by
    rw [Emission.one_append, taken, ← List.drop_drop]
    exact rest.last
  positive := List.forall_mem_cons.mpr ⟨read.positive, rest.positive⟩
  within := by
    have room := rest.within
    have := read.within
    rw [List.length_drop] at room
    rw [Emission.one_append, taken]
    omega
  whole h := by
    rw [Emission.one_append, taken, rest.whole h, List.length_drop]
    exact Nat.add_sub_of_le read.within
  code
    | 0, _ => read.code
    | k + 1, h => by
      change _ = bigEndian ((s.drop (c.length + taken (cs.items.take k))).take _)
      rw [← List.drop_drop]
      exact rest.code k (Nat.lt_of_succ_lt_succ h)

/-- **The characters of a string cover it**, whatever the font. -/
theorem Proper.reads (hf : f.Proper) (s : Bytes) : f.Reads s (f.chars s) := by
  unfold chars
  suffices ∀ fuel (s : Bytes), s.length ≤ fuel → f.Reads s (chars.go f fuel s) from this _ _ (Nat.le_refl _)
  intro fuel
  induction fuel with
  | zero =>
    intro s hs
    rw [List.length_eq_zero_iff.mp (Nat.le_zero.mp hs)]
    exact .nil f
  | succ fuel ih =>
    intro s hs
    by_cases hnil : s = []
    · subst hnil
      rw [chars.go, f.nextChar?_nil]
      exact .nil f
    · cases hc : f.nextChar? s with
      | error p =>
        rw [chars.go, hc]
        exact .panic hc
      | ok c =>
        obtain ⟨c, rfl, read⟩ := hf.nextChar? hnil c hc
        have step : (s.drop c.length).length ≤ fuel := by
          have := read.positive
          rw [List.length_drop]
          omega
        rw [chars.go, hc, Emission.after_eq rfl]
        dsimp only
        rw [Nat.max_eq_left read.positive]
        exact .cons hc read (ih _ step)

end Font

end PdfContent
