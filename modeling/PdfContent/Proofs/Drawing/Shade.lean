import PdfContent.Proofs.Drawing.Brackets
import PdfContent.Proofs.Drawing.Clipping
/-!
# Shade — what the shading operator leaves behind

The path under construction is known from its steps at every moment (`session_traced`), so a shading that is drawn in
cells, on a level of its own, leaves everything as it was.  A gradient leaves the path as it was unless it has bounds: it
is restricted to them outside of any level, and the path is cleared (`shading_told`).
-/
namespace PdfContent

variable {α : Type} [Scalar α] {env : Environment α}

open Machine

/-! ## The path at every moment -/

/-- The path under construction is known from its steps, now and before and after every operator that was executed. -/
structure Machine.Traced (m : Machine α) : Prop where
  path : m.state.outline.Restorable
  executed : ∀ e, m.executed e → e.before.state.outline.Restorable ∧ e.after.state.outline.Restorable

namespace Machine.Traced

variable {m : Machine α}

theorem restoreState (h : m.Traced) : m.restoreState.Traced := by
  refine ⟨?_, by rw [restoreState_executed]; exact h.executed⟩
  cases hs : m.saved with
  | nil =>
    unfold Machine.restoreState
    rw [hs]
    exact h.path
  | cons s saved =>
    rw [restoreState_cons hs]
    exact .ofPath _

theorem restoreTo (depth : Nat) (h : m.Traced) : (m.restoreTo depth).Traced :=
  restoreTo_preserves (p := Machine.Traced) (fun _ h => h.restoreState) depth h

theorem concat (t : Affine α) (h : m.Traced) : (m.concat env t).Traced := by
  refine ⟨?_, by rw [concat_executed]; exact h.executed⟩
  have path : (m.concat env t).state.outline = m.state.outline := by
    unfold Machine.concat
    dsimp only
    split
    · rfl
    split <;> rfl
  rw [path]
  exact h.path

theorem cellOf (t : Tiling α) (seed : Option (ColorSpace × Color)) (h : m.Traced) : (m.cellOf env t seed).Traced := by
  cases seed <;> exact ⟨.empty, h.executed⟩

end Machine.Traced

/-- **Every stretch of a drawing keeps the path known from its steps.** -/
theorem Draws.traced {p : Span} {m n : Machine α} (h : Draws env p m n) : m.Traced → n.Traced := by
  induction h with
  | refl | report | tell | clip | note | announce | char | save | nothing => exact fun hm => ⟨hm.path, hm.executed⟩
  | mask | unmask | font | group => exact fun hm => ⟨hm.path, hm.executed⟩
  | restyle s _ ho => exact fun hm => ⟨ho hm.path, hm.executed⟩
  | trans _ _ ih ih' | start _ _ ih ih' => exact fun hm => ih' (ih hm)
  | string _ _ ih | transparency _ _ ih | nesting _ ih | glyph _ ih | base _ _ ih | place _ _ ih =>
    intro hm
    have inside := ih ⟨hm.path, hm.executed⟩
    exact ⟨inside.path, inside.executed⟩
  | unplaced _ ih | effect _ _ ih => exact ih
  | @resources _ _ n d _ ih =>
    intro hm
    obtain ⟨_, hp⟩ := popResources_eq n
    rw [hp]
    have inside := ih ⟨hm.path, hm.executed⟩
    exact ⟨inside.path, inside.executed⟩
  | tiling told t part seed _ ih =>
    intro hm
    exact ⟨hm.path, ((ih (Traced.cellOf t seed ⟨hm.path, hm.executed⟩)).restoreTo 0).executed⟩
  | level _ ih => exact fun hm => (ih ⟨hm.path, hm.executed⟩).restoreState
  | @nested m _ _ ih =>
    intro hm
    have inside := (ih ⟨hm.path, hm.executed⟩).restoreTo m.saved.length
    exact ⟨inside.path, inside.executed⟩
  | restore m =>
    intro hm
    unfold Machine.restore
    split
    · exact ⟨hm.path, hm.executed⟩
    · exact hm.restoreState
  | concat t m => exact fun hm => hm.concat t
  | shade _ _ ih ih' => exact fun hm => ih' ⟨(ih hm).path, (ih hm).executed⟩
  | fault _ _ ih => exact fun hm => ⟨(ih hm).path, (ih hm).executed⟩
  | @perform m n k op _ _ ih ih' =>
    intro hm
    have before := ih hm
    have after := ih' ⟨before.path, before.executed⟩
    refine ⟨after.path, fun e he => ?_⟩
    rcases he with rfl | he
    · exact ⟨before.path, after.path⟩
    · exact after.executed e he

theorem Machine.session_traced (env : Environment α) (origin : Origin α) (requests : List Request) :
    (session env origin requests).Traced := by
  refine session_induction ?_ (fun _ _ h hm => h.traced hm) (fun _ _ _ _ hm => ⟨hm.path, hm.executed⟩) requests
  cases origin with
  | cell => exact ⟨.empty, fun _ he => he.elim⟩
  | page p =>
    obtain ⟨m, h, hp⟩ := startPage_draws env p
    have level : (pageLevel env p).Traced := ⟨.empty, fun _ he => he.elim⟩
    have crop := h.traced level
    rw [opening, hp]
    exact ⟨crop.path, crop.executed⟩

/-! ## What is told on a level -/

/-- Restricts what is painted to a path. -/
def Call.restricts : Call α → Bool
  | .clip .. | .setClipPath .. => true
  | _ => false

/-- Opens and closes nothing. -/
def Call.IsLevel (c : Call α) : Prop := ∀ st, c.brackets st = some st

/-- Neither opens and closes anything nor restricts it. -/
def Call.IsQuiet (c : Call α) : Prop := c.IsLevel ∧ c.restricts = false

namespace AllCalls

variable {told log : Log α} {st : List Bracket}

omit [Scalar α] in
theorem opened_append (h : AllCalls Call.IsLevel told) (ho : opened log = some st) :
    opened (told ++ log) = some st := by
  induction told with
  | nil => exact ho
  | cons e told ih =>
    cases e with
    | call c => exact (opened_call c (ih h.tail)).trans (h c (.head _) st)
    | report d => exact ih h.tail

omit [Scalar α] in
/-- Where nothing is opened or closed, every call is told inside of the same brackets. -/
theorem opened_at (h : AllCalls Call.IsLevel told) (ho : opened log = some st) {c : Call α} {earlier : Log α}
    (hc : .call c :: earlier <:+ told ++ log) : opened earlier = some st ∨ .call c :: earlier <:+ log := by
  induction told with
  | nil => exact .inr hc
  | cons e told ih =>
    rcases List.suffix_cons_iff.mp hc with heq | hc
    · obtain ⟨-, rfl⟩ := List.cons.inj heq
      exact .inl (h.tail.opened_append ho)
    · exact ih h.tail hc

end AllCalls

namespace Machine

/-! ## The shading operator -/

/-- The machine is as it was, and restrictions were told on a level that was opened and closed since. -/
structure LeavesNoTrace (m n : Machine α) : Prop where
  state : n.state = m.state
  saved : n.saved = m.saved
  clips : n.clips = m.clips
  told : ∃ told, n.log = told ++ m.log ∧ opened told = some [] ∧
    ∀ c earlier, .call c :: earlier <:+ told → c.restricts = true → opened earlier = some [.level]

/-- The path is gone, and what is painted stays restricted to a rectangle that was added to it: the one restriction was
told on the level that was there. -/
structure StaysRestricted (r : Rect α) (m n : Machine α) : Prop where
  state : n.state = { m.state with outline := .empty }
  saved : n.saved = m.saved
  clips : n.clips = m.clips
  told : ∃ later earlier, AllCalls Call.IsQuiet later ∧ AllCalls Call.IsQuiet earlier ∧
    n.log = later ++ .call (.clip { m.state with outline := m.state.outline.rect r } false) :: (earlier ++ m.log)

variable {m : Machine α}

omit [Scalar α] in
theorem LeavesNoTrace.quiet {told : Log α} (h : AllCalls Call.IsQuiet told) :
    LeavesNoTrace m { m with log := told ++ m.log } := by
  refine ⟨rfl, rfl, rfl, told, rfl, ?_, fun c earlier hc restricts => ?_⟩
  · have level : AllCalls Call.IsLevel told := fun c hc => (h c hc).1
    exact List.append_nil told ▸ level.opened_append rfl
  · rw [(h c (hc.subset (.head _))).2] at restricts
    cases restricts

omit [Scalar α] in
theorem LeavesNoTrace.report (d : Diagnostic) : LeavesNoTrace m (m.report d) :=
  quiet (AllCalls.nil.report d)

/-- Calls on a level of their own, which gives the path back. -/
theorem LeavesNoTrace.level {n : Machine α} (h : Tells Call.IsLevel m.save n)
    (hm : m.state.outline.Restorable) : LeavesNoTrace m (n.restoreState.setOutline (.ofPath m.state.path)) := by
  obtain ⟨told, first, quiet, done⟩ := h.level (.ofPath m.state.path)
  have path : Outline.ofPath m.state.path = m.state.outline := hm
  rw [done]
  have inside : opened (told ++ [.call .save]) = some [.level] := quiet.opened_append rfl
  refine ⟨by rw [path], rfl, rfl, .call .restore :: (told ++ [.call .save]), ?_, ?_, fun c earlier hc restricts => ?_⟩
  · rw [List.cons_append, List.append_assoc]
    rfl
  · exact (opened_call .restore inside).trans (Bracket.close_cons .level [])
  · rcases List.suffix_cons_iff.mp hc with heq | hc
    · cases heq
      cases restricts
    rcases quiet.opened_at rfl hc with ho | hc
    · exact ho
    · -- the level was opened by a call that restricts nothing
      rcases List.suffix_cons_iff.mp hc with heq | hc
      · cases heq
        cases restricts
      · cases List.suffix_nil.mp hc

/-- The bounds of the shading of a name, if it is a gradient and has any. -/
def gradientBounds? (env : Environment α) (m : Machine α) (name : Name) : Option (Rect α) :=
  match m.resource? env.store "Shading" name with
  | none => none
  | some o =>
    match (Shading.ofObject env.store (env.store.resolve o) : Except Diagnostic (Shading α)) with
    | .error _ => none
    | .ok s => if s.isGradient then s.bounds else none

variable (env) in
omit [Scalar α] in
theorem fillGradient_quiet (s : Shading α) (matrix : Option (Affine α)) (m : Machine α) :
    ∃ told, AllCalls Call.IsQuiet told ∧ m.fillGradient env s matrix = { m with log := told ++ m.log } := by
  unfold fillGradient
  split
  · exact ⟨[], .nil, rfl⟩
  split
  · rename_i e _
    exact ⟨[.report e], .report e .nil, rfl⟩
  · rename_i g _
    have asked : AllCalls Call.IsQuiet [.call (.addGradient g true)] := .call ⟨fun _ => rfl, rfl⟩ .nil
    dsimp only
    split
    · exact ⟨_, .call ⟨fun _ => rfl, rfl⟩ asked, rfl⟩
    · exact ⟨_, asked, rfl⟩

theorem shadeGradient_told (s : Shading α) (m : Machine α) :
    match s.bounds with
    | none => LeavesNoTrace m (m.shadeGradient env s)
    | some r => StaysRestricted r m (m.shadeGradient env s) := by
  unfold shadeGradient
  dsimp only
  generalize (if sawConcat m.history && m.clips.current.isSome then env.builder.transform m.log else none) = matrix
  obtain ⟨earlier, quiet, placed⟩ : ∃ earlier, AllCalls Call.IsQuiet earlier ∧
      (if matrix.isSome then m.tell (.setTransform .identity) else m) = { m with log := earlier ++ m.log } := by
    split
    · exact ⟨[.call (.setTransform .identity)], .call ⟨fun _ => rfl, rfl⟩ .nil, rfl⟩
    · exact ⟨[], .nil, rfl⟩
  rw [placed]
  unfold clipToBounds
  cases s.bounds with
  | none =>
    obtain ⟨later, quiet', filled⟩ := fillGradient_quiet env s matrix { m with log := earlier ++ m.log }
    dsimp only
    rw [filled, ← List.append_assoc]
    exact .quiet (quiet'.append quiet)
  | some r =>
    dsimp only
    obtain ⟨later, quiet', filled⟩ := fillGradient_quiet env s matrix
      ((({ m with log := earlier ++ m.log } : Machine α).addRect r).tellState (.clip · false)).clearPath
    rw [filled]
    exact ⟨rfl, rfl, rfl, later, earlier, quiet', quiet, rfl⟩

theorem shadeCells_told (s : Shading α) (hm : m.state.outline.Restorable) : LeavesNoTrace m (m.shadeCells s) := by
  have bounds : Tells Call.IsLevel m.save (m.save.clipToBounds s .setClipPath) := by
    unfold clipToBounds
    split
    · exact .refl _
    · exact (Tells.setOutline _ _).trans ((Tells.tell fun _ => rfl).trans (.clearPath _))
  exact .level (bounds.trans ((Tells.useSpaceOf s _).trans (.fillCells (fun _ _ _ => rfl) s _))) hm

variable (env) in
theorem shade_told (name : Name) (hm : m.state.outline.Restorable) :
    match gradientBounds? env m name with
    | none => LeavesNoTrace m (m.shade env name)
    | some r => StaysRestricted r m (m.shade env name) := by
  unfold shade requireResource gradientBounds?
  cases m.resource? env.store "Shading" name with
  | none => exact .report _
  | some o =>
    dsimp only
    cases (Shading.ofObject env.store (env.store.resolve o) : Except Diagnostic (Shading α)) with
    | error e => exact .report e
    | ok s =>
      dsimp only
      cases s.isGradient with
      | true => exact shadeGradient_told s m
      | false => exact shadeCells_told s hm

/-- **A shading leaves no trace, but for the bounds of a gradient.**  The state with its path, the saved states and the
clips are as they were, and the bounds are in effect on a level that the operator opens and closes.  Only a gradient is
restricted to its bounds without a level, which costs the path.  The path is known from its steps at every moment of a
session, those before and after each operator included, however deeply nested the content it stands in. -/
theorem shading_told (env : Environment α) (inner : Inner α) (operands : List Object)
    (image : Option Content.ImageSource) (m : Machine α) (hm : m.state.outline.Restorable) :
    (match (operands.getLast?.bind Object.name?).bind (gradientBounds? env m) with
      | none => LeavesNoTrace m (m.command env inner (Bytes.ofText "sh") operands image)
      | some r => StaysRestricted r m (m.command env inner (Bytes.ofText "sh") operands image)) ∧
    ∀ origin requests, (session env origin requests).Traced := by
  refine ⟨?_, session_traced env⟩
  have row : Operator.of "sh" [.name] .shade ∈ Operator.all := by decide
  rcases command_name operands image m row with ⟨name, last, performed⟩ | ⟨unnamed, d, -, reported⟩
  case inl =>
    rw [performed, last, Option.bind_some, Object.name?, Option.bind_some]
    -- the operator runs on the machine with its name in the history
    have told := shade_told env (m := { m with history := m.history.push "sh" }) name hm
    have bounds : gradientBounds? env { m with history := m.history.push "sh" } name = gradientBounds? env m name := rfl
    rw [bounds] at told
    cases hb : gradientBounds? env m name with
    | none =>
      rw [hb] at told
      exact ⟨told.state, told.saved, told.clips, told.told⟩
    | some r =>
      rw [hb] at told
      exact ⟨told.state, told.saved, told.clips, told.told⟩
  case inr =>
    rw [unnamed, reported]
    exact .report d

/-- A gradient with bounds is drawn while a path is under construction. -/
theorem bounds_stay :
    let env : Environment Float := ⟨.empty, .silent, true, .default⟩
    let number (i : Int) : Object := .num (.int i)
    let function : Dict := ⟨[("C0", .array [number 0]), ("C1", .array [number 1]),
      ("Domain", .array [number 0, number 1]), ("FunctionType", number 2), ("N", number 1)]⟩
    let axial : Dict := ⟨[("BBox", .array ([0, 0, 5, 5].map number)), ("ColorSpace", .name "DeviceGray"),
      ("Coords", .array ([0, 0, 1, 0].map number)), ("Function", .dict function), ("ShadingType", number 2)]⟩
    let page : Machine Float :=
      (start env [] ⟨[("Shading", .dict ⟨[("S", .dict axial)]⟩)]⟩ .identity).addRect ⟨0, 0, 9, 9⟩
    let n := page.command env (run env levels) (Bytes.ofText "sh") [.name "S"] none
    page.state.outline.Restorable ∧ n.state ≠ page.state ∧
      ∃ r, gradientBounds? env page "S" = some r ∧ StaysRestricted r page n := by
  intro env number function axial page n
  have path : page.state.outline.Restorable := Outline.Restorable.empty.rect _
  obtain ⟨r, bounded⟩ : ∃ r, gradientBounds? env page "S" = some r := ⟨_, rfl⟩
  have told : match gradientBounds? env page "S" with
      | none => LeavesNoTrace page n
      | some r => StaysRestricted r page n :=
    (shading_told env (run env levels) [.name "S"] none page path).1
  rw [bounded] at told
  refine ⟨path, fun same => ?_, r, bounded, told⟩
  have cleared : [] = page.state.outline.reversed :=
    congrArg (fun s => s.outline.reversed) (told.state.symm.trans same)
  cases cleared

end Machine

end PdfContent
