import PdfContent.Proofs.Content.Steps
import PdfContent.Proofs.Drawing.Balance
import PdfContent.Proofs.Drawing.Outcome
/-!
# Clipping — painting a path does not disturb the clip

Whatever paints a path, the cells of shadings and the content of tilings included, tells the builder of no clip but
inside of tilings (`OutsideTilings`), and gives the path back (`Paints`).  So a clip that waits for the end of the path
takes effect with the path as it was constructed, in one call after all of the painting, unless a panic ends the painting
(`path_ends`).
-/
namespace PdfContent

variable {α : Type}

/-! ## What is told -/

/-- The calls of a log are of some kind. -/
def AllCalls (q : Call α → Prop) (log : Log α) : Prop := ∀ c, .call c ∈ log → q c

namespace AllCalls

variable {q : Call α → Prop} {a b : Log α}

theorem nil : AllCalls q [] := fun _ h => nomatch h

theorem call {c : Call α} (hc : q c) (h : AllCalls q a) : AllCalls q (.call c :: a) := fun _ hm => by
  rcases List.mem_cons.mp hm with heq | hm
  · cases heq
    exact hc
  · exact h _ hm

theorem report (d : Diagnostic) (h : AllCalls q a) : AllCalls q (.report d :: a) := fun c hm =>
  (List.mem_cons.mp hm).elim nofun (h c)

theorem append (h : AllCalls q a) (h' : AllCalls q b) : AllCalls q (a ++ b) := fun c hm =>
  (List.mem_append.mp hm).elim (h c) (h' c)

theorem tail {e : Event α} (h : AllCalls q (e :: a)) : AllCalls q a := fun c hm => h c (.tail _ hm)

end AllCalls

def Call.isTiling : Call α → Bool
  | .pushTiling .. | .popTiling => true
  | _ => false

def Call.isClip : Call α → Bool
  | .clip .. => true
  | _ => false

/-- A log goes on with calls of some kind and with whole tilings, in which there may be any calls. -/
inductive OutsideTilings : (Call α → Prop) → Log α → Log α → Prop where
  | refl {q} (a) : OutsideTilings q a a
  | report {q a b} (d) : OutsideTilings q a b → OutsideTilings q a (.report d :: b)
  | call {q a b} {c : Call α} (ht : c.isTiling = false) (hq : q c) :
      OutsideTilings q a b → OutsideTilings q a (.call c :: b)
  | tiling {q a b c} (t part) : OutsideTilings q a b →
      OutsideTilings (fun _ => True) (.call (.pushTiling t part) :: b) c → OutsideTilings q a (.call .popTiling :: c)

namespace OutsideTilings

variable {q : Call α → Prop} {a b c : Log α}

theorem trans (h : OutsideTilings q a b) (h' : OutsideTilings q b c) : OutsideTilings q a c := by
  induction h' with
  | refl => exact h
  | report d _ ih => exact .report d (ih h)
  | call ht hq _ ih => exact .call ht hq (ih h)
  | tiling t part _ inside ih => exact .tiling t part (ih h) inside

theorem append {told : Log α} (h : AllCalls (fun c => c.isTiling = false ∧ q c) told) :
    OutsideTilings q a (told ++ a) := by
  induction told with
  | nil => exact .refl a
  | cons e told ih =>
    cases e with
    | call c => exact .call (h c (.head _)).1 (h c (.head _)).2 (ih h.tail)
    | report d => exact .report d (ih h.tail)

/-- Nothing is required of this call. -/
theorem told (c : Call α) (h : c.isTiling = false) : OutsideTilings (fun _ => True) a (.call c :: a) :=
  .call h trivial (.refl a)

theorem plain {s : State α} {c : Call α} (h : c.Plain s) : OutsideTilings (fun _ => True) a (.call c :: a) := by
  refine told c ?_
  have plain := h.plain
  cases c <;> first | rfl | cases plain

end OutsideTilings

variable [Scalar α] {env : Environment α}

open Machine

theorem Machine.restoreState_outside (m : Machine α) : OutsideTilings (fun _ => True) m.log m.restoreState.log := by
  unfold restoreState
  split
  · exact .refl _
  · exact .told .restore rfl

theorem Machine.restoreTo_outside (depth : Nat) {m : Machine α} {a : Log α}
    (h : OutsideTilings (fun _ => True) a m.log) : OutsideTilings (fun _ => True) a (m.restoreTo depth).log :=
  restoreTo_preserves (p := fun n => OutsideTilings (fun _ => True) a n.log)
    (fun n hn => hn.trans (restoreState_outside n)) depth h

/-- **Tilings are told as a whole**, in every stretch of a drawing. -/
theorem Draws.tilings {p : Span} {m n : Machine α} (h : Draws env p m n) :
    OutsideTilings (fun _ => True) m.log n.log := by
  induction h with
  | refl | restyle | clip | note | font | nothing => exact .refl _
  | report d m => exact .report d (.refl _)
  | tell h => exact .plain h
  | announce | char | mask | unmask | save => exact .told _ rfl
  | group => exact (OutsideTilings.told _ rfl).trans (.told _ rfl)
  | trans _ _ ih ih' | start _ _ ih ih' => exact ih.trans ih'
  | nesting _ ih | glyph _ ih | base _ _ ih | unplaced _ ih | effect _ _ ih => exact ih
  | string _ _ ih | transparency _ _ ih => exact ((OutsideTilings.told _ rfl).trans ih).trans (.told _ rfl)
  | place _ _ ih => exact (OutsideTilings.told _ rfl).trans ih
  | @resources _ _ n d _ ih =>
    obtain ⟨_, hp⟩ := popResources_eq n
    rw [hp]
    exact ih
  | @tiling _ m n told t part seed _ ih =>
    rw [cellOf_log] at ih
    exact .tiling told part (.refl _) (restoreTo_outside 0 ih)
  | level _ ih => exact ((OutsideTilings.told _ rfl).trans ih).trans (restoreState_outside _)
  | nested _ ih => exact restoreTo_outside _ ih
  | restore m =>
    unfold Machine.restore
    split
    · exact .report _ (.refl _)
    · exact restoreState_outside m
  | concat t m =>
    unfold Machine.concat
    dsimp only
    split
    · exact .told _ rfl
    split
    · exact .told _ rfl
    · exact (OutsideTilings.told _ rfl).trans (.told _ rfl)
  | shade _ _ ih ih' => exact (ih.trans (.told _ rfl)).trans ih'
  | fault d _ ih => exact .report d ih
  | perform op _ _ ih ih' => exact ih.trans ih'

namespace Machine

/-! ## Telling -/

/-- Calls of some kind are told, and of the machine only the state and the first transform change. -/
def Tells (q : Call α → Prop) (m n : Machine α) : Prop :=
  ∃ (told : Log α) (state : State α) (firstTransform : Option (Affine α)),
    AllCalls q told ∧ n = { m with log := told ++ m.log, state, firstTransform }

namespace Tells

variable {q : Call α → Prop} {m n k : Machine α}

omit [Scalar α] in
theorem refl (m : Machine α) : Tells q m m := ⟨[], m.state, m.firstTransform, .nil, rfl⟩

omit [Scalar α] in
theorem trans (h : Tells q m n) (h' : Tells q n k) : Tells q m k := by
  obtain ⟨told, state, first, hq, rfl⟩ := h
  obtain ⟨told', state', first', hq', rfl⟩ := h'
  exact ⟨told' ++ told, state', first', hq'.append hq, by rw [List.append_assoc]⟩

omit [Scalar α] in
theorem branch {c : Prop} [Decidable c] (h : Tells q m n) (h' : Tells q m k) : Tells q m (if c then n else k) := by
  split
  · exact h
  · exact h'

omit [Scalar α] in
theorem tell {c : Call α} (hc : q c) : Tells q m (m.tell c) :=
  ⟨[.call c], m.state, m.firstTransform, .call hc .nil, rfl⟩

omit [Scalar α] in
theorem report (d : Diagnostic) (m : Machine α) : Tells q m (m.report d) :=
  ⟨[.report d], m.state, m.firstTransform, .report d .nil, rfl⟩

omit [Scalar α] in
theorem modifyState (f : State α → State α) : Tells q m (m.modifyState f) :=
  ⟨[], f m.state, m.firstTransform, .nil, rfl⟩

omit [Scalar α] in
theorem setOutline (o : Outline α) (m : Machine α) : Tells q m (m.setOutline o) :=
  modifyState fun s => { s with outline := o }

theorem clearPath (m : Machine α) : Tells q m m.clearPath := setOutline .empty m

omit [Scalar α] in
theorem useSpaceOf (s : Shading α) (m : Machine α) : Tells q m (m.useSpaceOf s) :=
  modifyState fun st => { st with fill := { st.fill with space := s.space } }

omit [Scalar α] in
theorem setTransform {t : Affine α} (hc : q (.setTransform t)) : Tells q m (m.setTransform t) :=
  ⟨[.call (.setTransform t)], m.state, _, .call hc .nil, rfl⟩

/-- The cells of a shading are paths, each in one call. -/
theorem fillCells (hq : ∀ s fill, q (.addPath s fill none false)) (s : Shading α) (m : Machine α) :
    Tells q m (m.fillCells s) := by
  unfold Machine.fillCells
  refine takeAll_keeps _ (refl m) (fun n hn _ _ => ?_) fun n d hn => hn.trans (report d n)
  exact hn.trans ((modifyState _).trans ((tell (hq _ _)).trans (clearPath _)))

omit [Scalar α] in
theorem fillBackground (hq : ∀ s fill, q (.addPath s fill none false)) (s : Shading α) (m : Machine α) :
    Tells q m (m.fillBackground s) := by
  unfold Machine.fillBackground
  split
  · exact refl m
  · exact (modifyState _).trans (tell (hq _ _))

/-- A level on which calls were told, after which the machine gets a path. -/
theorem level (h : Tells q m.save n) (o : Outline α) :
    ∃ (told : Log α) (firstTransform : Option (Affine α)), AllCalls q told ∧ n.restoreState.setOutline o =
      { m with
        log := .call .restore :: (told ++ .call .save :: m.log)
        state := { m.state with outline := o }
        firstTransform } := by
  obtain ⟨told, state, first, hq, rfl⟩ := h
  exact ⟨told, first, hq, rfl⟩

end Tells

/-! ## Painting -/

/-- Neither clips nor starts or ends a tiling. -/
def SparesClip (c : Call α) : Prop := c.isTiling = false ∧ c.isClip = false

/-- A path is painted: outside of tilings no clip is told, and the path is there as it was, or put together again from
its steps. -/
structure Paints (m n : Machine α) : Prop where
  told : OutsideTilings (·.isClip = false) m.log n.log
  state : n.state = m.state ∨ n.state = { m.state with outline := .ofPath m.state.path }
  clips : n.clips = m.clips
  pendingClip : n.pendingClip = m.pendingClip

namespace Paints

variable {m n k : Machine α}

theorem refl (m : Machine α) : Paints m m := ⟨.refl _, .inl rfl, rfl, rfl⟩

theorem path (h : Paints m n) : n.state.path = m.state.path := by
  rcases h.state with same | again
  · rw [same]
  · rw [again]
    exact Outline.path_ofPath _

theorem trans (h : Paints m n) (h' : Paints n k) : Paints m k where
  told := h.told.trans h'.told
  state := by
    rcases h'.state with same' | again'
    · rw [same']
      exact h.state
    · rw [again', h.path]
      rcases h.state with same | again
      · exact .inr (by rw [same])
      · exact .inr (by rw [again])
  clips := h'.clips.trans h.clips
  pendingClip := h'.pendingClip.trans h.pendingClip

theorem report (d : Diagnostic) (m : Machine α) : Paints m (m.report d) := ⟨.report d (.refl _), .inl rfl, rfl, rfl⟩

theorem tell {c : Call α} (hc : SparesClip c) : Paints m (m.tell c) :=
  ⟨.call hc.1 hc.2 (.refl _), .inl rfl, rfl, rfl⟩

theorem branch {c : Prop} [Decidable c] (h : Paints m n) (h' : Paints m k) : Paints m (if c then n else k) := by
  split
  · exact h
  · exact h'

/-- A level on which neither a clip nor a tiling was told, with the path as it was before. -/
theorem level (h : Tells SparesClip m.save n) : Paints m (n.restoreState.setOutline (.ofPath m.state.path)) := by
  obtain ⟨told, first, hq, done⟩ := h.level (.ofPath m.state.path)
  have inside : OutsideTilings (·.isClip = false) m.log (told ++ .call .save :: m.log) :=
    OutsideTilings.trans (.call rfl rfl (.refl _)) (.append hq)
  rw [done]
  exact ⟨.call rfl rfl inside, .inr rfl, rfl, rfl⟩

section

variable {inner : Inner α} (hinner : ∀ items m, Draws env .content m (inner items m))
include hinner

theorem tilingPaint (t : Tiling α) (part : Part) (m : Machine α) :
    Paints m (m.tilingPaint env inner t part).2 := by
  unfold Machine.tilingPaint
  split
  · exact refl m
  · have cell := (hinner (contentOf env.store t.content) (cellOf env t
      (if t.uncolored then (m.state.ink part).space.under?.map fun under => (under, (m.state.ink part).color) else none)
      (m.tell (.pushTiling { t with matrix := m.patternTransform t.matrix } part)))).tilings
    rw [cellOf_log] at cell
    exact ⟨.tiling _ part (.refl _) (restoreTo_outside 0 cell), .inl rfl, rfl, rfl⟩

omit hinner in
theorem gradientPaint (s : Shading α) (matrix : Affine α) (m : Machine α) :
    Paints m (m.gradientPaint env s matrix).2 := by
  unfold Machine.gradientPaint
  split
  · exact report _ m
  · exact tell ⟨rfl, rfl⟩

theorem paintOf (part : Part) (m : Machine α) : Paints m (m.paintOf env inner part).2 := by
  unfold Machine.paintOf
  dsimp only
  split
  · exact refl m
  split
  · exact refl m
  · exact gradientPaint _ _ m
  · exact tilingPaint hinner _ part m

omit hinner in
theorem approximate (s : Shading α) (matrix : Affine α) (part : Part) (evenOdd : Bool) (m : Machine α) :
    Paints m (m.approximate s matrix part evenOdd) := by
  have clipped : Tells SparesClip m.save
      (if part = .fill then m.save.tellState (.setClipPath · evenOdd) else m.save) :=
    .branch (.tell ⟨rfl, rfl⟩) (.refl _)
  have ready := clipped.trans ((Tells.useSpaceOf s _).trans
    ((Tells.fillBackground (fun _ _ => ⟨rfl, rfl⟩) s _).trans (.clearPath _)))
  have placed (k : Machine α) : Tells SparesClip k (Machine.fillCells s
      (if k.state.ctm.isInvertible then
        let t := (k.state.ctm.inverse.mul k.baseMatrix).mul matrix
        (k.multiply t).setTransform t
      else k)) := by
    refine Tells.trans ?_ (.fillCells (fun _ _ => ⟨rfl, rfl⟩) s _)
    exact .branch ((Tells.modifyState _).trans (.setTransform ⟨rfl, rfl⟩)) (.refl k)
  exact level (ready.trans (placed _))

omit hinner in
theorem approximatePattern (p : Pattern α) (part : Part) (evenOdd : Bool) (m : Machine α) :
    Paints m (m.approximatePattern p part evenOdd) := by
  cases p with
  | shading s matrix => exact approximate s matrix part evenOdd m
  | tiling t => exact refl m

theorem paintPart (part : Part) (approximated : Option (Pattern α)) (evenOdd : Bool) (m : Machine α) :
    Paints m (m.paintPart env inner part approximated evenOdd) := by
  unfold Machine.paintPart
  split
  · exact approximatePattern _ part evenOdd m
  · refine branch (paintOf hinner part m) ((paintOf hinner part m).trans (tell ?_))
    cases part <;> exact ⟨rfl, rfl⟩

theorem paintIf (part : Part) (wanted : Bool) (m : Machine α) :
    Paints m (if wanted then m.paintOf env inner part else (none, m)).2 := by
  split
  · exact paintOf hinner part m
  · exact refl m

theorem paintBoth (how : PathPainting) (m : Machine α) : Paints m (m.paintBoth env inner how) := by
  unfold Machine.paintBoth
  exact (paintIf hinner .fill how.fill m).trans ((paintIf hinner .stroke how.stroke _).trans
    (branch (tell ⟨rfl, rfl⟩) (refl _)))

theorem paintCurrent (how : PathPainting) (m : Machine α) : Paints m (m.paintCurrent env inner how) := by
  have one (part : Part) (wanted : Bool) (p : Option (Pattern α)) (m : Machine α) :
      Paints m (if wanted then m.paintPart env inner part p how.evenOdd else m) :=
    branch (paintPart hinner part p how.evenOdd m) (refl m)
  unfold Machine.paintCurrent
  exact branch (paintBoth hinner how m) ((one .fill how.fill _ m).trans (one .stroke how.stroke _ _))

end

end Paints

/-! ## The end of the path -/

def pathEndings : List (String × Bool) :=
  [("S", false), ("s", true), ("f", false), ("F", false), ("f*", false), ("B", false), ("B*", false), ("b", true),
    ("b*", true), ("n", false)]

def closing? : Operation → Option Bool
  | .endPath => some false
  | .paint how => some how.close
  | _ => none

theorem pathEndings_row : ∀ p ∈ pathEndings, ∃ op ∈ Operator.all,
    op = .plain p.1 op.operation ∧ closing? op.operation = some p.2 := by
  decide

def ended (close : Bool) (o : Outline α) : Outline α := if close then o.close?.getD o else o

omit [Scalar α] in
theorem current_ended (close : Bool) {o : Outline α} (h : o.current.isSome = true) :
    (ended close o).current.isSome = true := by
  unfold ended
  split
  · obtain ⟨p, hp⟩ := Option.isSome_iff_exists.mp h
    simp only [Outline.close?, hp, Option.map_some, Option.getD_some]
    split <;> rfl
  · exact h

theorem current_ofPath {o : Outline α} (h : o.hasSegment = true) : (Outline.ofPath o.path).current.isSome = true := by
  unfold Outline.hasSegment at h
  unfold Outline.path
  cases hr : o.reversed with
  | nil =>
    rw [hr] at h
    cases h
  | cons s r =>
    rw [List.reverse_cons, Outline.ofPath_concat]
    cases s <;> rfl

/-- **The path ends**: there is no path and no current point any more, no clip waits, and what was told is the painting
and, in the end, the clip that was waiting.  It takes effect with the path as it was. -/
structure EndsPath (outline : Outline α) (m n : Machine α) : Prop where
  state : n.state = { m.state with outline := .empty }
  pendingClip : n.pendingClip = none
  told : ∃ painted, OutsideTilings (·.isClip = false) m.log painted ∧
    match m.pendingClip with
    | none => n.log = painted ∧ n.clips = m.clips
    | some rule =>
      (∃ o : Outline α, o.path = outline.path ∧
        n.log = .call (.clip { m.state with outline := o } (rule == .evenOdd)) :: painted) ∧
      n.clips = { m.clips with current := some ⟨outline.path, rule⟩ }

theorem endPath_state (k : Machine α) : k.endPath.state = { k.state with outline := .empty } := by
  unfold endPath
  cases k.pendingClip with
  | none => rfl
  | some rule => cases k.state.outline.current.isSome <;> rfl

theorem Paints.endsPath {m k : Machine α} (h : Paints m k) (hc : k.state.outline.current.isSome = true) :
    EndsPath m.state.outline m k.endPath := by
  have drawn : ∃ o : Outline α, o.path = m.state.outline.path ∧ k.state = { m.state with outline := o } := by
    rcases h.state with same | again
    · exact ⟨m.state.outline, rfl, same⟩
    · exact ⟨_, Outline.path_ofPath _, again⟩
  obtain ⟨o, path, state⟩ := drawn
  refine ⟨by rw [endPath_state, state], rfl, k.log, h.told, ?_⟩
  have pending := h.pendingClip
  cases hp : m.pendingClip with
  | none =>
    rw [hp] at pending
    simp only [endPath, pending]
    exact ⟨rfl, h.clips⟩
  | some rule =>
    rw [hp] at pending
    simp only [endPath, pending, hc, if_true]
    refine ⟨⟨o, path, by rw [← state]; rfl⟩, ?_⟩
    have clipped : k.clips.set k.state.path rule = m.clips.set m.state.path rule := by rw [h.clips, h.path]
    exact clipped

section

variable {inner : Inner α} (hinner : ∀ items m, Draws env .content m (inner items m))
include hinner

theorem paintPath_ends (how : PathPainting) {m : Machine α} (hc : m.state.outline.current.isSome = true) :
    EndsPath (ended how.close m.state.outline) m (m.paintPath env inner how) := by
  have closed : (if how.close then m.setOutline (m.state.outline.close?.getD m.state.outline) else m) =
      m.setOutline (ended how.close m.state.outline) := by
    unfold ended
    split <;> rfl
  have point : (m.setOutline (ended how.close m.state.outline)).state.outline.current.isSome = true :=
    current_ended how.close hc
  have begun : m.state.outline.current.isNone = false := by
    rw [← Option.not_isSome, hc]
    rfl
  simp only [paintPath, begun, closed]
  generalize hk : m.setOutline (ended how.close m.state.outline) = k at point ⊢
  have ends : EndsPath k.state.outline k
      (if k.state.outline.hasSegment then k.paintCurrent env inner how else k).endPath := by
    by_cases hs : k.state.outline.hasSegment = true
    · have painted := Paints.paintCurrent hinner how k
      rw [if_pos hs]
      refine painted.endsPath ?_
      rcases painted.state with same | again
      · rw [same]
        exact point
      · rw [again]
        exact current_ofPath hs
    · rw [if_neg hs]
      exact (Paints.refl k).endsPath point
  subst hk
  exact ⟨ends.state, ends.pendingClip, ends.told⟩

end

/-- Painting does not disturb the clip. -/
theorem command_ends (level : Nat) (operands : List Object) (image : Option Content.ImageSource) (m : Machine α)
    {name : String} {close : Bool} (h : (name, close) ∈ pathEndings) (hc : m.state.outline.current.isSome = true) :
    EndsPath (ended close m.state.outline) m (m.command env (run env level) (Bytes.ofText name) operands image) := by
  obtain ⟨op, row, plain, closes⟩ := pathEndings_row _ h
  rw [plain] at row
  rw [command_plain row]
  let k : Machine α := { m with history := m.history.push name }
  have ends : EndsPath (ended close k.state.outline) k
      (k.execute env (run env level) (.plain name op.operation) ⟨[]⟩ image) := by
    have inner : ∀ items m, Draws env .content m (run env level items m) := Draws.run level
    cases ho : op.operation <;> rw [ho] at closes <;> cases closes
    case endPath => exact (Paints.refl k).endsPath hc
    case paint how => exact paintPath_ends inner how hc
  exact ⟨ends.state, ends.pendingClip, ends.told⟩

/-- What has happened before a panic is part of the painting, since the end of the path comes after all of it. -/
theorem EndsPath.before_panic {outline : Outline α} {m n : Machine α} (h : EndsPath outline m n) {p : Panic}
    {before : Log α} (panics : n.outcome = .error (p, before)) :
    ∃ painted, OutsideTilings (·.isClip = false) m.log painted ∧ before <:+ painted := by
  obtain ⟨painted, outside, ending⟩ := h.told
  refine ⟨painted, outside, ?_⟩
  cases pending : m.pendingClip with
  | none =>
    rw [pending] at ending
    exact ending.1 ▸ outcome_error_suffix panics
  | some rule =>
    rw [pending] at ending
    obtain ⟨⟨o, -, log⟩, -⟩ := ending
    obtain ⟨later, e, split, panic, -⟩ := outcome_error panics
    rw [log] at split
    cases later with
    | nil =>
      -- the clip is no panic
      obtain ⟨rfl, -⟩ := List.cons.inj split
      cases panic
    | cons d later => exact ⟨later ++ [e], by rw [List.append_assoc]; exact (List.cons.inj split).2.symm⟩

/-- **Painting does not disturb the clip**, whatever paints are selected: unless there is a panic, the operator ends the
path, and a clip that is waiting takes effect in one call after all of the painting.  If there is a panic, what happens
before it is part of the painting, without a clip. -/
theorem path_ends (env : Environment α) (level : Nat) (operands : List Object) (image : Option Content.ImageSource)
    (m : Machine α) {name : String} {close : Bool} (h : (name, close) ∈ pathEndings)
    (hc : m.state.outline.current.isSome = true) :
    let outcome := (m.command env (run env level) (Bytes.ofText name) operands image).outcome
    (∀ n, outcome = .ok n → EndsPath (ended close m.state.outline) m n) ∧
      ∀ p before, outcome = .error (p, before) →
        ∃ painted, OutsideTilings (·.isClip = false) m.log painted ∧ before <:+ painted := by
  have ends : EndsPath (ended close m.state.outline) m
      (m.command env (run env level) (Bytes.ofText name) operands image) := command_ends level operands image m h hc
  refine ⟨fun n whole => ?_, fun p before panics => ends.before_panic panics⟩
  rw [(outcome_ok_iff.mp whole).1]
  exact ends

theorem items_clipping (st : Store) : ∃ a b c d : Thunk Nat, Content.items st (Bytes.ofText "0 0 1 1 re W n") =
    [.operand (.num (.int 0)) a, .operand (.num (.int 0)) b, .operand (.num (.int 1)) c, .operand (.num (.int 1)) d,
      .command (Bytes.ofText "re") none, .command (Bytes.ofText "W") none, .command (Bytes.ofText "n") none] :=
  ⟨_, _, _, _, Content.items_of_plain 9 rfl⟩

/-- A rectangle is closed, filled with a tiling whose cell clips as well, and stroked, and then clipped to. -/
theorem clipped_after_tiling :
    let env : Environment Float := ⟨.empty, .silent, true, .default⟩
    let tiling : Tiling Float :=
      ⟨false, 1, ⟨0, 0, 5, 5⟩, 5, 5, .identity, .empty, ⟨.empty, Bytes.ofText "0 0 1 1 re W n"⟩⟩
    let page : Machine Float :=
      { ((start env [] .empty .identity).select .fill (.pattern none) [] (some (.tiling tiling))).addRect ⟨0, 0, 9, 9⟩ with
        pendingClip := some .evenOdd }
    ("b*", true) ∈ pathEndings ∧ page.state.outline.current.isSome = true ∧
      ∃ n, (page.command env (run env levels) (Bytes.ofText "b*") [] none).outcome = .ok n ∧
        EndsPath (ended true page.state.outline) page n := by
  intro env tiling page
  have row : ("b*", true) ∈ pathEndings := by decide
  have point : page.state.outline.current.isSome = true := rfl
  obtain ⟨a, b, c, d, items⟩ := items_clipping env.store
  have whole : ∃ n, (page.command env (run env levels) (Bytes.ofText "b*") [] none).outcome = .ok n := by
    have drawn : page.command env (run env levels) (Bytes.ofText "b*") [] none =
        page.command env (fun _ => run env levels (contentOf env.store tiling.content)) (Bytes.ofText "b*") [] none := rfl
    rw [drawn, show contentOf env.store tiling.content = _ from items]
    exact ⟨_, rfl⟩
  obtain ⟨n, whole⟩ := whole
  exact ⟨row, point, n, whole, (path_ends env levels [] none page row point).1 n whole⟩

end Machine

end PdfContent
