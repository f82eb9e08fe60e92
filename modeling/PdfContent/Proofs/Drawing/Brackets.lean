import PdfContent.Proofs.Content.Steps
import PdfContent.Proofs.Drawing.Outcome
import PdfContent.Proofs.Drawing.Session
/-!
# Brackets — what is opened at the builder is closed again

Levels, transparency groups, tilings and strings are opened and closed by calls.  `opened` reads a log as a word of
brackets and gives what is still open, or nothing if a bracket was closed that was not the last one open.  Content
leaves open the levels that it saved above its floor and nothing else.
-/
namespace PdfContent

inductive Bracket where
  | level
  | group
  | tiling
  | string
deriving DecidableEq

namespace Bracket

def close (b : Bracket) : List Bracket → Option (List Bracket)
  | [] => none
  | c :: st => if c = b then some st else none

@[simp] theorem close_cons (b : Bracket) (st : List Bracket) : b.close (b :: st) = some st := if_pos rfl

end Bracket

def Call.brackets {α : Type} : Call α → List Bracket → Option (List Bracket)
  | .save, st => some (.level :: st)
  | .restore, st => Bracket.level.close st
  | .pushTransparencyGroup .., st => some (.group :: st)
  | .popTransparencyGroup _, st => Bracket.group.close st
  | .pushTiling .., st => some (.tiling :: st)
  | .popTiling, st => Bracket.tiling.close st
  | .beginString .., st => some (.string :: st)
  | .endString _, st => Bracket.string.close st
  | _, st => some st

/-- The brackets that are open after all calls of a log, if every closing one had its opening one. -/
def opened {α : Type} : Log α → Option (List Bracket)
  | [] => some []
  | .report _ :: log => opened log
  | .call c :: log => (opened log).bind c.brackets

section

variable {α : Type} {log : Log α} {st : List Bracket}

theorem opened_call (c : Call α) (h : opened log = some st) : opened (.call c :: log) = c.brackets st := by
  rw [opened, h, Option.bind_some]

/-- Where every closing bracket of a log has its opening one, so it has in every beginning of the log. -/
theorem opened_isSome_of_suffix {before : Log α} (h : before <:+ log) (whole : (opened log).isSome) :
    (opened before).isSome := by
  obtain ⟨later, rfl⟩ := h
  induction later with
  | nil => exact whole
  | cons e later ih =>
    refine ih ?_
    cases e with
    | report d => exact whole
    | call c =>
      rw [List.cons_append, opened] at whole
      exact Option.isSome_of_isSome_bind whole

theorem Call.Plain.brackets {s : State α} {c : Call α} (h : c.Plain s) (st : List Bracket) :
    c.brackets st = some st := by
  obtain ⟨hp, -⟩ := h
  cases c <;> first | rfl | cases hp

end

/-- A level for each state that content has saved, and below them what was open around it. -/
def OpenAbove {α : Type} (st : List Bracket) (k : Nat) (log : Log α) : Prop :=
  opened log = some (List.replicate k .level ++ st)

theorem openAbove_stacking {α : Type} (st : List Bracket) : Stacking (OpenAbove (α := α) st) where
  save h := opened_call .save h
  restore h := (opened_call .restore h).trans (Bracket.close_cons .level _)
  report _ h := h

namespace Machine

variable {α : Type} [Scalar α]

/-- What a stretch of a drawing leaves open. -/
def Brackets : Span → Machine α → Machine α → Prop
  | .part _, m, n | .fresh, m, n => ∀ st, opened m.log = some st → opened n.log = some st
  | .operator _, m, n | .content, m, n => ∀ st, Stacks (OpenAbove st) m → Stacks (OpenAbove st) n

/-- A change of the coordinate system opens and closes nothing. -/
theorem concat_opened (env : Environment α) (t : Affine α) (m : Machine α) {st : List Bracket}
    (ho : opened m.log = some st) : opened (m.concat env t).log = some st := by
  unfold concat
  dsimp only
  split
  · exact opened_call _ ho
  split
  · exact opened_call _ ho
  · exact opened_call _ (opened_call _ ho)

end Machine

namespace Draws

open Machine

variable {α : Type} [Scalar α] {env : Environment α} {p : Span} {m n : Machine α}

/-- **Every stretch of a drawing is well bracketed**, up to the levels that content has saved. -/
theorem brackets (h : Draws env p m n) : m.Sound → Brackets p m n := by
  induction h with
  | refl | report | restyle | clip | note | font | nothing => exact fun _ _ ho => ho
  | tell h => exact fun _ st ho => (opened_call _ ho).trans (h.brackets st)
  | announce | char | mask | unmask => exact fun _ _ ho => opened_call _ ho
  | trans h _ ih ih' | start h _ ih ih' => exact fun hm st ho => ih' (h.sound hm) st (ih hm st ho)
  | @resources _ _ n d _ ih =>
    intro hm st ho
    obtain ⟨_, hp⟩ := popResources_eq n
    rw [hp]
    exact ih ⟨List.cons_ne_nil _ _, hm.depth, hm.floor, hm.base⟩ st ho
  | string s _ ih =>
    intro hm st ho
    have inside := ih ⟨hm.resources, hm.depth, hm.floor, hm.base⟩ (.string :: st) (opened_call _ ho)
    exact (opened_call (.endString _) inside).trans (Bracket.close_cons .string st)
  | transparency g _ ih =>
    intro hm st ho
    have inside := ih ⟨hm.resources, hm.depth, hm.floor, hm.base⟩ (.group :: st) (opened_call _ ho)
    exact (opened_call (.popTransparencyGroup _) inside).trans (Bracket.close_cons .group st)
  | nesting _ ih | glyph _ ih | base _ _ ih => exact fun hm => ih ⟨hm.resources, hm.depth, hm.floor, hm.base⟩
  | @tiling _ m n told t part seed h ih =>
    intro _ st ho
    -- the cell has a machine of its own, but goes on with the same log
    have hc := cellOf_sound env t seed (m.tell (.pushTiling told part))
    have ha := cellOf_above env t seed (m.tell (.pushTiling told part))
    have hl : Stacks (OpenAbove (.tiling :: st)) (cellOf env t seed (m.tell (.pushTiling told part))) :=
      cellOf_stacks env t seed (opened_call _ ho)
    have inside := (ih hc _ hl).restoreTo (openAbove_stacking _) ((h.frames hc.resources).2 _ _ ha)
    exact (opened_call .popTiling inside).trans (Bracket.close_cons .tiling st)
  | level h ih =>
    intro hm st ho
    have inside := ih (save_sound hm) (.level :: st) (opened_call _ ho)
    exact restoreState_stacks (k := 0) (openAbove_stacking st) (h.frames hm.resources).2.1 inside
  | place t _ ih =>
    intro hm st ho
    exact ih ⟨hm.resources, hm.depth, hm.floor, hm.base⟩ st (opened_call _ ho)
  | unplaced _ ih => exact ih
  | group t m =>
    intro _ st ho
    exact opened_call _ (opened_call _ ho)
  | @nested m n h ih =>
    intro hm st ho
    have hl : Stacks (OpenAbove st) { m with restoreFloor := m.saved.length } := raised_stacks ho
    exact (ih (raised_sound hm) st hl).restoreTo (openAbove_stacking st) ((h.frames hm.resources).2 _ _ (.refl m))
  | effect _ h ih =>
    intro hm st hl
    obtain ⟨hf, hs, -⟩ := h.frames hm.resources
    exact hl.of_same hf hs fun k => ih hm _
  | save m => exact fun hm st hl => hl.save (openAbove_stacking st) hm
  | restore m => exact fun _ st hl => hl.restore (openAbove_stacking st)
  | concat t m =>
    obtain ⟨hf, hs, -⟩ := concat_same env t m
    exact fun _ st hl => hl.of_same hf hs fun _ => concat_opened env t m
  | shade h h' ih ih' =>
    intro hm st hl
    obtain ⟨hf, hs, -⟩ := h.frames hm.resources
    obtain ⟨hf', hs', -⟩ := h'.frames (resources_of_around hf hm.resources)
    refine hl.of_same (hf'.trans hf) (hs'.trans hs) fun k ho => ?_
    exact ih' (sound_of_same (h.sound hm) rfl rfl rfl) _ (opened_call _ (ih hm _ ho))
  | fault _ _ ih => exact fun hm st ho => ih hm st ho
  | perform op h h' ih ih' => exact fun hm st ho => ih' (sound_of_same (h.sound hm) rfl rfl rfl) st (ih hm st ho)

end Draws

namespace Machine

variable {α : Type} [Scalar α]

/-- The levels below the floor are open. -/
def Rests (m : Machine α) : Prop := m.Sound ∧ Stacks (OpenAbove (List.replicate m.restoreFloor .level)) m

theorem opening_rests (env : Environment α) (origin : Origin α) : (opening env origin).Rests := by
  refine ⟨(opening_sound env origin).1, ?_⟩
  cases origin with
  | cell => rfl
  | page p =>
    obtain ⟨m, h, hp⟩ := startPage_draws env p
    have hl := pageLevel_sound env p
    have hs : m.saved.length = 1 := congrArg List.length (h.frames hl.resources).2.1
    have ho : opened m.log = some [.level] := h.brackets hl _ rfl
    rw [opening, hp, Stacks, hs]
    exact ho

theorem Rests.draws {env : Environment α} {m n : Machine α} (h : Draws env .content m n) (hm : m.Rests) : n.Rests := by
  obtain ⟨hs, hl⟩ := hm
  refine ⟨h.sound hs, ?_⟩
  rw [Moment.floor_of_around (h.frames hs.resources).1]
  exact h.brackets hs _ hl

theorem Rests.finish {m : Machine α} (hm : m.Rests) : opened m.finish.log = some [] := by
  obtain ⟨hs, hl⟩ := hm
  rw [Stacks, OpenAbove, List.replicate_append_replicate, Nat.sub_add_cancel hs.floor] at hl
  have above : OpenAbove [] m.saved.length m.log := by rw [OpenAbove, List.append_nil]; exact hl
  have bottom : m.saved = m.saved ++ [] := (List.append_nil m.saved).symm
  exact restoreTo_stacks (openAbove_stacking []) bottom above

/-- **A drawing is well bracketed**: from the start of a page or a cell to its end, levels, transparency groups, tilings
and strings are opened and closed in a properly nested way, and nothing is left open.  Only a panic leaves open what is
open when it comes; even then nothing was closed that had not been opened.  After every operator on the way each saved
state has its clip and the floors are in order. -/
theorem session_brackets (env : Environment α) (origin : Origin α) (requests : List Request) :
    (∀ m, (session env origin requests).finish.outcome = .ok m → opened m.log = some []) ∧
      (∀ p before, (session env origin requests).finish.outcome = .error (p, before) → (opened before).isSome) ∧
      ∀ e, (session env origin requests).executed e →
        e.after.saved.length = e.after.clips.depth ∧ e.after.restoreFloor ≤ e.after.clips.depth ∧
          e.after.baseDepth ≤ e.after.restoreFloor := by
  have rests : (session env origin requests).Rests :=
    session_induction (opening_rests env origin) (fun _ _ h hm => hm.draws h)
      (fun _ _ _ _ hm => ⟨sound_of_same hm.1 rfl rfl rfl, hm.2⟩) requests
  have closed := rests.finish
  refine ⟨fun m whole => ?_, fun p before panics => ?_, fun e he => ?_⟩
  · rw [(outcome_ok_iff.mp whole).1]
    exact closed
  · exact opened_isSome_of_suffix (outcome_error_suffix panics) (by rw [closed]; rfl)
  · obtain ⟨-, after⟩ := (session_sound env origin requests).2 e he
    exact ⟨after.depth, after.depth ▸ after.floor, after.base⟩

/-- A form that is a transparency group and selects a color space of the kind Lab, with a range that is no interval. -/
def labGroup : Stream :=
  let number (i : Int) : Object := .num (.int i)
  let lab : Object := .array [.name "Lab", .dict ⟨[("Range", .array ([100, -100, -100, 100].map number))]⟩]
  ⟨⟨[("BBox", .array ([0, 0, 9, 9].map number)), ("Group", .dict ⟨[("S", .name "Transparency")]⟩),
    ("Resources", .dict ⟨[("ColorSpace", .dict ⟨[("L", lab)]⟩)]⟩), ("Subtype", .name "Form")]⟩, Bytes.ofText "/L cs"⟩

def labCell : Origin Float := .cell ⟨[("XObject", .dict ⟨[("F", .stream labGroup)]⟩)]⟩ ⟨0, 0, 9, 9⟩

def silentBuilder : Environment Float := ⟨.empty, .silent, true, .default⟩

theorem items_labCell (st : Store) : ∃ a : Thunk Nat, Content.items st (Bytes.ofText "/F Do") =
    [.operand (.name "F") a, .command (Bytes.ofText "Do") none] :=
  ⟨_, Content.items_of_plain 4 rfl⟩

theorem items_labGroup (st : Store) : ∃ a : Thunk Nat, contentOf st labGroup =
    [.operand (.name "L") a, .command (Bytes.ofText "cs") none] :=
  ⟨_, Content.items_of_plain 4 rfl⟩

/-- The nearest color to 0 in the range is a panic, which comes inside of the group. -/
theorem group_left_open :
    let drawing := session silentBuilder labCell [.content (.stream ⟨.empty, Bytes.ofText "/F Do"⟩)]
    (∃ m, (session silentBuilder labCell []).finish.outcome = .ok m ∧ opened m.log = some []) ∧
      ∃ before, drawing.finish.outcome = .error (.unorderedBounds, before) ∧ (opened before).isSome ∧
        opened before = some [.group, .level] := by
  intro drawing
  obtain ⟨a, outer⟩ := items_labCell silentBuilder.store
  obtain ⟨b, inner⟩ := items_labGroup silentBuilder.store
  have panics : ∃ before, drawing.finish.outcome = .error (.unorderedBounds, before) ∧
      opened before = some [.group, .level] := by
    have drawn : drawing =
        (opening silentBuilder labCell).content silentBuilder (run silentBuilder 483)
          (Content.items silentBuilder.store (Bytes.ofText "/F Do")) := rfl
    have nested : (opening silentBuilder labCell).content silentBuilder (run silentBuilder 483)
        [.operand (.name "F") a, .command (Bytes.ofText "Do") none] =
          (opening silentBuilder labCell).content silentBuilder
            (fun _ m => m.content silentBuilder (run silentBuilder 482) (contentOf silentBuilder.store labGroup))
            [.operand (.name "F") a, .command (Bytes.ofText "Do") none] := rfl
    rw [drawn, outer, nested, inner]
    refine ⟨_, rfl, ?_⟩
    rfl
  obtain ⟨before, panics, left⟩ := panics
  obtain ⟨-, isSome, -⟩ :=
    session_brackets silentBuilder labCell [.content (.stream ⟨.empty, Bytes.ofText "/F Do"⟩)]
  exact ⟨⟨_, rfl, (session_brackets silentBuilder labCell []).1 _ rfl⟩, before, panics, isSome _ _ panics, left⟩

end Machine

end PdfContent
