import PdfContent.Proofs.Drawing.Frame
import PdfContent.Proofs.Drawing.Painting
/-!
# Text — the operators that show text as moves

A glyph that is content is drawn on a level of its own, in a group that takes the transform; a string is opened and
closed around all its characters.  All strings of an operator are in the font that the operator begins with, and the
builder is told this font before them (`Machine.Shows`).
-/
namespace PdfContent

namespace Machine

variable {α : Type} [Scalar α]

/-- Characters are shown in this font, and the builder was told it unless they are content that is drawn. -/
def Shows (env : Environment α) (f : Font) (m : Machine α) : Prop :=
  m.state.text.font = some f ∧ (¬(f.type = .type3 && env.drawsGlyphs) → m.fontChanged = false)

variable {env : Environment α} {f : Font} {m : Machine α}

omit [Scalar α] in
theorem announceFont_shows (env : Environment α) (hf : ¬m.state.text.font.isNone) :
    ∃ f, m.announceFont.Shows env f := by
  obtain ⟨f, hf⟩ := Option.ne_none_iff_exists'.mp (mt Option.isNone_iff_eq_none.mpr hf)
  unfold announceFont
  split
  case isTrue => exact ⟨f, hf, fun _ => rfl⟩
  case isFalse hc => exact ⟨f, hf, fun _ => eq_false_of_ne_true hc⟩

theorem adjust_shows (adjustment : Float) (h : m.Shows env f) : (m.adjust adjustment).Shows env f := by
  refine ⟨Eq.trans ?_ h.1, h.2⟩
  unfold adjust
  dsimp only [tellState, tell, Machine.modifyText, modifyState]
  split <;> rfl

end Machine

namespace Draws

open Machine

variable {α : Type} [Scalar α] {env : Environment α} {b : Bool}

theorem modifyText {f : TextState α → TextState α} (m : Machine α)
    (h : (f m.state.text).face = m.state.text.face) : Draws env (.part b) m (m.modifyText f) :=
  modifyState (congrArg (fun face => (m.state.ctm, face, m.state.softMask)) h) id

/-- The font is the same, but the builder is to be told again. -/
theorem fontChanged (m : Machine α) : Draws env (.part b) m { m with fontChanged := true } :=
  .font m.state.text.font m.state.text.size m

theorem tellPosition (p : Point α) (m : Machine α) : Draws env (.part b) m (m.tell (.updateTextPosition p)) :=
  .tell (.of_none _ rfl rfl)

theorem beginText (m : Machine α) : Draws env (.part b) m m.beginText :=
  (modifyText m rfl).trans ((tellPosition _ _).trans ((fontChanged _).trans (tellState rfl rfl)))

theorem loadFont (o : Object) (m : Machine α) : Draws env (.part b) m (m.loadFont env o).2 := by
  unfold Machine.loadFont
  split
  · exact .refl m
  split
  · exact .refl m
  · exact .report _ m

theorem setFont (name : Name) (size : α) (m : Machine α) : Draws env (.part b) m (m.setFont env name size) := by
  unfold Machine.setFont
  split
  · exact .trans (.report _ m) (.font none size _)
  · exact (loadFont _ m).trans (.font _ size _)

theorem setTextMode (mode : Int) (m : Machine α) : Draws env (.part b) m (m.setTextMode mode) := by
  unfold Machine.setTextMode
  split
  · exact (modifyText m rfl).trans (tellState rfl rfl)
  · exact .refl m

theorem setScaling (percent : α) (m : Machine α) : Draws env (.part b) m (m.setScaling percent) :=
  (modifyText m rfl).trans (.trans (tellState rfl rfl) (fontChanged _))

theorem moveLine (d : Point α) (m : Machine α) : Draws env (.part b) m (m.moveLine d) :=
  (modifyText m rfl).trans (tellPosition _ _)

theorem nextLine (m : Machine α) : Draws env (.part b) m m.nextLine := moveLine _ m

theorem setTextMatrix (t : Affine α) (m : Machine α) : Draws env (.part b) m (m.setTextMatrix t) :=
  (modifyText m rfl).trans (.trans (tellState rfl rfl) ((tellPosition _ _).trans (fontChanged _)))

theorem announceFont (m : Machine α) : Draws env (.part b) m m.announceFont :=
  .branch (fun _ => .announce m) (fun _ => .refl m)

theorem adjust (adjustment : Float) (m : Machine α) : Draws env (.part b) m (m.adjust adjustment) := by
  unfold Machine.adjust
  exact (modifyText m (by split <;> rfl)).trans (tellState rfl rfl)

theorem concatNested (t : Affine α) (m : Machine α) : Draws env (.part true) m (m.concatNested t) :=
  (group t m).trans (fontChanged _)

section

variable {inner : Inner α} (hinner : ∀ items m, Draws env .content m (inner items m))
include hinner

/-- **Content that runs inside of other content**, up to the states it leaves saved. -/
theorem runNested (s : Stream) (m : Machine α) : Draws env (.part true) m (m.runNested env inner s) :=
  .nested (hinner _ _)

/-- **A glyph that is content is a level of its own**, if it is drawn at all. -/
theorem drawGlyph_level (f : Font) (code : Nat) (pen : Point α) (m : Machine α) :
    m.drawGlyph env inner f code pen = m ∨
      ∃ n, Draws env .fresh m.save n ∧ m.drawGlyph env inner f code pen = n.restoreState := by
  unfold Machine.drawGlyph
  split
  · exact .inl rfl
  split
  · exact .inl rfl
  dsimp only
  split
  · exact .inl rfl
  · exact .inr ⟨_, .unplaced ((concatNested _ _).trans (.resources _ (.glyph (runNested hinner _ _)))), rfl⟩

theorem drawGlyph (f : Font) (code : Nat) (pen : Point α) (m : Machine α) :
    Draws env (.part b) m (m.drawGlyph env inner f code pen) := by
  obtain h | ⟨n, h, hn⟩ := drawGlyph_level hinner f code pen m
  · rw [h]
    exact .refl m
  · rw [hn]
    exact .level h

/-- The state that the glyph was saved with comes back, but for the path. -/
theorem drawGlyph_text (f : Font) (code : Nat) (pen : Point α) (m : Machine α) :
    (m.drawGlyph env inner f code pen).state.text = m.state.text := by
  obtain h | ⟨n, h, hn⟩ := drawGlyph_level hinner f code pen m
  · rw [h]
  · rw [hn, restoreState_of_save h.kept.2.1 h.kept.2.2]

theorem showChar {f : Font} (size : α) (rise : Point α) {m : Machine α} (c : FontChar) (hm : m.Shows env f) :
    Draws env (.part b) m (m.showChar env inner f size rise c) ∧ (m.showChar env inner f size rise c).Shows env f := by
  obtain ⟨hf, hc⟩ := hm
  unfold Machine.showChar
  dsimp only
  split
  case isTrue drawn =>
    have hn := drawGlyph_text hinner f c.code (Machine.place m.state.text f.isVertical size rise c).1.pen m
    exact ⟨(drawGlyph hinner f c.code _ m).trans (modifyText _ rfl),
      (congrArg TextState.font hn).trans hf, fun shown => absurd drawn shown⟩
  case isFalse shown =>
    exact ⟨.trans (.char _ (hf ▸ Option.some_ne_none f) (hc shown)) (modifyText _ rfl), hf, hc⟩

theorem showString {f : Font} (s : Bytes) {m : Machine α} (hm : m.Shows env f) :
    Draws env (.part b) m (m.showString env inner s) ∧ (m.showString env inner s).Shows env f := by
  unfold Machine.showString
  rw [hm.1]
  dsimp only
  have begun : (m.tellState (.beginString · s)).Shows env f := hm
  exact And.imp (.string s) id (takeAll_while _ begun (fun _ c => showChar hinner _ _ c) fun _ _ shows => shows)

theorem showText (op : String) {prepare : Machine α → Machine α} (s : Bytes) (m : Machine α)
    (hd : ∀ m, Draws env (.part b) m (prepare m)) (hp : ∀ f m, m.Shows env f → (prepare m).Shows env f) :
    Draws env (.part b) m (m.showText env inner op prepare s) := by
  unfold Machine.showText
  split
  case isTrue => exact .report _ m
  case isFalse hf =>
    obtain ⟨f, announced⟩ := announceFont_shows env hf
    exact (announceFont m).trans ((hd _).trans (showString hinner s (hp f _ announced)).1)

theorem showElement {f : Font} {m : Machine α} (o : Object) (hm : m.Shows env f) :
    Draws env (.part b) m (m.showElement env inner o) ∧ (m.showElement env inner o).Shows env f := by
  unfold Machine.showElement
  split
  · exact ⟨adjust _ m, adjust_shows _ hm⟩
  · exact showString hinner _ hm
  · exact ⟨.refl m, hm⟩

theorem showAdjusted (op : String) (items : List Object) (m : Machine α) :
    Draws env (.part b) m (m.showAdjusted env inner op items) := by
  unfold Machine.showAdjusted
  split
  case isTrue => exact .report _ m
  case isFalse hf =>
    obtain ⟨f, announced⟩ := announceFont_shows env hf
    exact (announceFont m).trans (foldl_while (fun _ o => showElement hinner o) items _ announced).1

end

end Draws

end PdfContent
