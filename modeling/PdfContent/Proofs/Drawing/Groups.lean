import PdfContent.Proofs.Drawing.Levels
import PdfContent.Proofs.Geometry.Exact
/-!
# Groups — the transforms of open groups against the coordinate system

The product of the transforms of all open groups should be the scale of the page times the coordinate system of the
state (`Placed`).  Saving, restoring and new groups keep it so; a change of the coordinate system does unless it
overwrites the transform of a group that was not just saved (`Executed.Loses`).  That can happen: the operator looks
back at the last executed one only, which may have been a `q` of content that has ended since.
-/
namespace PdfContent

open Scalar

variable {α : Type} [Scalar α]

/-! ## The model of the builder -/

def Level.transform (l : Level α) : Affine α :=
  (l.outer.foldr (fun g t => Affine.mul t (g.getD .identity)) Affine.identity).mul (l.inner.getD .identity)

/-- The product of the transforms of all open groups. -/
def placement : List (Level α) → Affine α
  | [] => .identity
  | l :: ls => (placement ls).mul l.transform

omit [Scalar α] in
def innermost (log : Log α) : Option (Affine α) := (openLevels log).head?.bind (·.inner)

/-- How many pixels a point has, as a map. -/
def pageScale : Affine α := .scale (ofFloat Style.pixelsPerPoint)

/-- **The groups of the builder place things where the state does.** -/
def Moment.Placed (m : Moment α) : Prop := placement (openLevels m.log) = pageScale.mul m.state.ctm

omit [Scalar α] in
/-- Whether a tiling is being told. -/
def InTiling (log : Log α) : Prop := ∃ st, opened log = some st ∧ .tiling ∈ st

/-- Every call outside of tilings is told the state under the groups that place things where the state does. -/
def Faithful : Log α → Prop
  | [] => True
  | .report _ :: log => Faithful log
  | .call c :: log =>
    (¬InTiling log → ∀ s ∈ c.state?, placement (openLevels log) = pageScale.mul s.ctm) ∧ Faithful log

/-- From one moment to the next the transform of the innermost group was replaced, as if the group had just been saved,
and something that it contributed got lost. -/
def Moment.Lost (m n : Moment α) : Prop :=
  ∃ t, n.log = .call (.setTransform t) :: m.log ∧ n.state.ctm = m.state.ctm.mul t ∧
    placement (openLevels n.log) ≠ (placement (openLevels m.log)).mul t

/-- A change of the coordinate system after `q`, which need not be a `q` of the same content, loses a transform. -/
def Executed.Loses (e : Executed α) : Prop :=
  e.operator.operation = .concat ∧ e.before.history.previous 0 = "q" ∧ e.before.Lost e.after

/-! ## Levels and the coordinate system -/

section

variable [Exact α]

theorem placement_fresh (ls : List (Level α)) : placement (.fresh :: ls) = placement ls := by
  show (placement ls).mul (Affine.identity.mul .identity) = _
  rw [Affine.identity_mul, Affine.mul_identity]

theorem placement_set_push (t : Affine α) (l : Level α) (ls : List (Level α)) :
    placement (l.push.set t :: ls) = (placement (l :: ls)).mul t :=
  (Affine.mul_assoc _ _ _).symm

theorem placement_set_fresh (t : Affine α) (ls : List (Level α)) :
    placement (Level.fresh.set t :: ls) = (placement (.fresh :: ls)).mul t := by
  rw [placement_fresh]
  show (placement ls).mul (Affine.identity.mul t) = _
  rw [Affine.identity_mul]

theorem placement_set_mul (t : Affine α) (l : Level α) (ls : List (Level α)) :
    placement (l.set ((l.inner.getD .identity).mul t) :: ls) = (placement (l :: ls)).mul t := by
  simp only [placement, Level.transform, Level.set, Option.getD_some, Affine.mul_assoc]

end

/-- Some level is open, and the groups place things where a coordinate system does. -/
structure Fits (ls : List (Level α)) (ctm : Affine α) : Prop where
  isOpen : ls ≠ []
  placed : placement ls = pageScale.mul ctm

/-- Every saved state fits the levels around the one that it was saved for. -/
def Stored : List (State α) → List (Level α) → Prop
  | [], _ => True
  | s :: ss, ls => Fits ls.tail s.ctm ∧ Stored ss ls.tail

theorem Stored.of_tail {ls ls' : List (Level α)} (h : ls'.tail = ls.tail) :
    ∀ {ss : List (State α)}, Stored ss ls → Stored ss ls'
  | [], _ => trivial
  | _ :: _, hs => by
    unfold Stored at hs ⊢
    rw [h]
    exact hs

/-- The last operator but one is the last one of the history before. -/
theorem OpHistory.previous_push (h : OpHistory) (name : String) : (h.push name).previous 1 = h.previous 0 := by
  obtain ⟨_ | ⟨a, names⟩⟩ := h <;> rfl

namespace Machine

/-- The states that the content at work has saved itself. -/
def own (m : Machine α) : List (State α) := m.saved.take (m.saved.length - m.restoreFloor)

omit [Scalar α] in
theorem own_of_same {m n : Machine α} (hf : n.around = m.around) (hs : n.saved = m.saved) : n.own = m.own := by
  rw [own, hs, Moment.floor_of_around hf]
  rfl

omit [Scalar α] in
theorem own_of_above {base tops : List (State α)} {clips : List (Option (ClipPath α))} {m : Machine α}
    (hf : m.restoreFloor = base.length) (ht : Tops base clips tops m) : m.own = tops := by
  rw [own, ht.saved, hf, List.length_append, Nat.add_sub_cancel, List.take_left]

omit [Scalar α] in
theorem own_eq_nil {m : Machine α} (h : m.restoreFloor = m.saved.length) : m.own = [] := by
  rw [own, h, Nat.sub_self, List.take_zero]

omit [Scalar α] in
theorem own_save {m : Machine α} (hm : m.Sound) : m.save.own = m.state :: m.own := by
  have hl : m.save.saved.length - m.save.restoreFloor = m.saved.length - m.restoreFloor + 1 := Nat.succ_sub hm.floor
  rw [own, hl]
  rfl

theorem own_restore {m : Machine α} (hlt : ¬m.saved.length ≤ m.restoreFloor) :
    ∃ s saved, m.saved = s :: saved ∧ m.own = s :: m.restoreState.own := by
  obtain ⟨s, saved, hs⟩ : ∃ s saved, m.saved = s :: saved :=
    List.exists_cons_of_length_pos (Nat.zero_lt_of_lt (Nat.lt_of_not_le hlt))
  rw [hs, List.length_cons] at hlt
  refine ⟨s, saved, hs, ?_⟩
  have hr : m.restoreState.restoreFloor = m.restoreFloor := Moment.floor_of_around (restoreState_around m)
  rw [own, own, restoreState_saved, hs, hr, List.length_cons, Nat.succ_sub (by omega)]
  rfl

/-- What was told is faithful, executed operators led from one placed moment to another, and outside of tilings the
machine fits the levels that are open. -/
structure Good (st : List Bracket) (m : Machine α) : Prop where
  faithful : Faithful m.log
  executed : ∀ e, m.executed e → ¬InTiling e.before.log → e.before.Placed ∧ e.after.Placed
  fits : .tiling ∉ st → Fits (openLevels m.log) m.state.ctm

theorem Good.congr {st st' : List Bracket} {m n : Machine α} (h : Good st m) (hst : .tiling ∉ st' → .tiling ∉ st)
    (hf : Faithful m.log → Faithful n.log) (he : ∀ e, n.executed e → m.executed e)
    (hl : openLevels n.log = openLevels m.log) (hc : n.state.ctm = m.state.ctm) : Good st' n where
  faithful := hf h.faithful
  executed e hn := h.executed e (he e hn)
  fits hs := by rw [hl, hc]; exact h.fits (hst hs)

theorem Good.mono {st st' : List Bracket} {m : Machine α} (h : Good st m) (hst : .tiling ∉ st' → .tiling ∉ st) :
    Good st' m :=
  h.congr hst id (fun _ he => he) rfl rfl

/-- Telling something that comes with the coordinate system in effect, or with none. -/
theorem Good.faithful_tell {st : List Bracket} {m : Machine α} {c : Call α} (h : Good st m)
    (ho : opened m.log = some st) (hc : ∀ s ∈ c.state?, s.ctm = m.state.ctm) : Faithful (m.tell c).log := by
  refine ⟨fun hu s hs => ?_, h.faithful⟩
  rw [hc s hs]
  exact (h.fits fun hst => hu ⟨st, ho, hst⟩).placed

/-- The call opens or closes something that is no level. -/
theorem Good.tell {st st' : List Bracket} {m : Machine α} {c : Call α} (h : Good st m) (ho : opened m.log = some st)
    (hst : .tiling ∉ st' → .tiling ∉ st) (hc : ∀ s ∈ c.state?, s.ctm = m.state.ctm)
    (hl : c.levels (openLevels m.log) = openLevels m.log) : Good st' (m.tell c) :=
  h.congr hst (fun _ => h.faithful_tell ho hc) (fun _ he => he) hl rfl

theorem Good.tellState {st st' : List Bracket} {m : Machine α} {c : State α → Call α} (h : Good st m)
    (ho : opened m.log = some st) (hst : .tiling ∉ st' → .tiling ∉ st) (hc : (c m.state).state? = some m.state)
    (hl : ∀ ls, (c m.state).levels ls = ls) : Good st' (m.tellState c) := by
  refine h.tell ho hst (fun s hs => ?_) (hl _)
  rw [hc] at hs
  cases hs
  rfl

theorem Good.save [Exact α] {st : List Bracket} {m : Machine α} (h : Good st m) (ho : opened m.log = some st) :
    Good (.level :: st) m.save where
  faithful := h.faithful_tell ho fun _ hs => nomatch hs
  executed := h.executed
  fits hst := by
    have hm := h.fits fun hs => hst (.tail _ hs)
    exact ⟨List.cons_ne_nil _ _, (placement_fresh _).trans hm.placed⟩

theorem Good.restoreState {st : List Bracket} {m : Machine α} {s : State α} {saved : List (State α)} (h : Good st m)
    (hs : m.saved = s :: saved) (hf : .tiling ∉ st → Fits (openLevels m.log).tail s.ctm) : Good st m.restoreState := by
  rw [restoreState_cons hs]
  exact ⟨⟨fun _ _ hs => (nomatch hs), h.faithful⟩, h.executed, hf⟩

theorem restoreState_levels {m : Machine α} {s : State α} {saved : List (State α)} (hs : m.saved = s :: saved) :
    openLevels m.restoreState.log = (openLevels m.log).tail := by
  rw [restoreState_cons hs]
  rfl

theorem Good.restoreTo {st : List Bracket} {m : Machine α} {base tops : List (State α)} (h : Good st m)
    (hs : m.saved = tops ++ base) (hst : .tiling ∉ st → Stored tops (openLevels m.log)) :
    Good st (m.restoreTo base.length) := by
  refine (restoreTo_induction (p := fun tops m => Good st m ∧ (.tiling ∉ st → Stored tops (openLevels m.log))) ?_ tops m
    hs ⟨h, hst⟩).1
  rintro s tops m hs ⟨h, hst⟩
  refine ⟨h.restoreState hs fun hu => (hst hu).1, fun hu => ?_⟩
  rw [restoreState_levels hs]
  exact (hst hu).2

/-- The builder follows a change of the coordinate system. -/
theorem Good.move [Exact α] {st : List Bracket} {m n : Machine α} (t : Affine α) (h : Good st m)
    (hf : Faithful n.log) (he : n.executed = m.executed) (hc : n.state.ctm = m.state.ctm.mul t)
    (hl : .tiling ∉ st → openLevels n.log ≠ [] ∧
      placement (openLevels n.log) = (placement (openLevels m.log)).mul t) : Good st n where
  faithful := hf
  executed e hn := h.executed e (he ▸ hn)
  fits hst := by
    obtain ⟨hn, hp⟩ := hl hst
    exact ⟨hn, by rw [hp, (h.fits hst).placed, hc, Affine.mul_assoc]⟩

/-- A group of its own takes the change. -/
theorem Good.group [Exact α] {st : List Bracket} {m : Machine α} (t : Affine α) (h : Good st m) :
    Good st (((m.multiply t).tell .pushGroup).setTransform t) := by
  refine h.move t ⟨fun _ _ hs => (nomatch hs), fun _ _ hs => (nomatch hs), h.faithful⟩ rfl rfl fun hst => ?_
  obtain ⟨l, r, hl⟩ := List.exists_cons_of_ne_nil (h.fits hst).isOpen
  have hn : openLevels (((m.multiply t).tell .pushGroup).setTransform t).log = l.push.set t :: r :=
    levels_setTransform t (levels_pushGroup hl)
  rw [hn, hl]
  exact ⟨List.cons_ne_nil _ _, placement_set_push t l r⟩

omit [Scalar α] in
theorem inTiling_iff {log : Log α} {st : List Bracket} (h : opened log = some st) : InTiling log ↔ .tiling ∈ st := by
  refine ⟨fun ⟨st', h', hst⟩ => ?_, fun hst => ⟨st, h, hst⟩⟩
  obtain rfl := Option.some.inj (h.symm.trans h')
  exact hst

/-- Only a tiling itself leads into a tiling. -/
theorem outside_cons {b : Bracket} {st : List Bracket} (hb : b ≠ .tiling) :
    .tiling ∉ b :: st ↔ .tiling ∉ st := by
  simp [hb.symm]

theorem outside_levels (k : Nat) {st : List Bracket} : .tiling ∉ List.replicate k .level ++ st ↔ .tiling ∉ st := by
  simp [List.mem_replicate]

/-- A good machine with saved states that fit the levels they were saved for. -/
structure Settled (st : List Bracket) (m : Machine α) : Prop where
  good : Good st m
  stored : .tiling ∉ st → Stored m.own (openLevels m.log)

theorem Settled.congr {st : List Bracket} {m n : Machine α} (h : Settled st m) (hf : Faithful m.log → Faithful n.log)
    (he : ∀ e, n.executed e → m.executed e) (hl : openLevels n.log = openLevels m.log)
    (hc : n.state.ctm = m.state.ctm) (ho : n.own = m.own) : Settled st n where
  good := h.good.congr id hf he hl hc
  stored hu := by rw [ho, hl]; exact h.stored hu

/-- Inside of a tiling nothing is asked of the levels. -/
theorem Settled.inside {st : List Bracket} {m : Machine α} (hst : .tiling ∈ st) (h : Good st m) : Settled st m :=
  ⟨h, fun hu => absurd hst hu⟩

theorem Settled.save [Exact α] {st : List Bracket} {m : Machine α} (h : Settled st m) (hm : m.Sound)
    (ho : Stacks (OpenAbove st) m) : Settled st m.save where
  good := ((h.good.mono (outside_levels _).mp).save ho).mono fun hu => (outside_levels (_ + 1)).mpr hu
  stored hu := by
    rw [own_save hm]
    exact ⟨h.good.fits hu, h.stored hu⟩

theorem Settled.restore {st : List Bracket} {m : Machine α} (h : Settled st m) : Settled st m.restore := by
  unfold Machine.restore
  split
  case isTrue => exact h.congr id (fun _ he => he) rfl rfl rfl
  case isFalse hlt =>
    obtain ⟨s, saved, hs, ho⟩ := own_restore hlt
    have hst (hu : .tiling ∉ st) : Stored (s :: m.restoreState.own) (openLevels m.log) := ho ▸ h.stored hu
    refine ⟨h.good.restoreState hs fun hu => (hst hu).1, fun hu => ?_⟩
    rw [restoreState_levels hs]
    exact (hst hu).2

/-- The states that content left saved are restored. -/
theorem Settled.restoreTo {st : List Bracket} {m : Machine α} {base : List (State α)}
    {clips : List (Option (ClipPath α))} (h : Settled st m) (ha : Above base clips m) :
    Good st (m.restoreTo base.length) := by
  obtain ⟨hf, tops, ht⟩ := ha
  refine h.good.restoreTo ht.saved fun hu => ?_
  rw [← own_of_above hf ht]
  exact h.stored hu

theorem concat_ctm (env : Environment α) (t : Affine α) (m : Machine α) :
    (m.concat env t).state.ctm = m.state.ctm.mul t := by
  unfold concat
  dsimp only
  split
  · rfl
  split <;> rfl

/-- What the builder is told about a change of the coordinate system. -/
theorem concat_log (env : Environment α) (t : Affine α) (m : Machine α) :
    (m.history.previous 1 = "q" ∧ (m.concat env t).log = .call (.setTransform t) :: m.log) ∨
    (m.concat env t).log = .call (.setTransform (((env.builder.transform m.log).getD .identity).mul t)) :: m.log ∨
    (m.concat env t).log = .call (.setTransform t) :: .call .pushGroup :: m.log := by
  unfold concat
  dsimp only
  split
  case isTrue h => exact .inl ⟨beq_iff_eq.mp h, rfl⟩
  case isFalse =>
    split
    · exact .inr (.inl rfl)
    · exact .inr (.inr rfl)

/-- **The operator that changes the coordinate system**, unless it loses something. -/
theorem concat_good [Exact α] {env : Environment α} (henv : env.builder.transform = innermost) (t : Affine α)
    {st : List Bracket} {m : Machine α} (h : Good st m)
    (hq : .tiling ∉ st → m.history.previous 1 = "q" →
      ¬m.Lost (m.concat env t).toMoment ∨ (m.concat env t).Placed) : Good st (m.concat env t) := by
  have he := concat_executed env t m
  have hc := concat_ctm env t m
  obtain ⟨hprev, hlog⟩ | hlog | hlog := concat_log env t m
  · -- the transform replaces that of the group, so nothing but the hypothesis keeps the two in step
    have hf : Faithful (m.concat env t).log := by
      rw [hlog]
      exact ⟨fun _ _ hs => (nomatch hs), h.faithful⟩
    refine ⟨hf, fun e hn => h.executed e (he ▸ hn), fun hst => ?_⟩
    obtain ⟨l, r, hl⟩ := List.exists_cons_of_ne_nil (h.fits hst).isOpen
    refine ⟨by rw [hlog, levels_setTransform t hl]; exact List.cons_ne_nil _ _, ?_⟩
    rcases hq hst hprev with kept | placed
    · have hp : placement (openLevels (m.concat env t).log) = (placement (openLevels m.log)).mul t :=
        Classical.byContradiction fun hp => kept ⟨t, hlog, hc, hp⟩
      rw [hp, (h.fits hst).placed, hc, Affine.mul_assoc]
    · exact placed
  · refine h.move t (by rw [hlog]; exact ⟨fun _ _ hs => (nomatch hs), h.faithful⟩) he hc fun hst => ?_
    obtain ⟨l, r, hl⟩ := List.exists_cons_of_ne_nil (h.fits hst).isOpen
    have hi : innermost m.log = l.inner := by rw [innermost, hl]; rfl
    rw [hlog, henv, hi, levels_setTransform _ hl, hl]
    exact ⟨List.cons_ne_nil _ _, placement_set_mul t l r⟩
  · refine h.move t (by rw [hlog]; exact ⟨fun _ _ hs => (nomatch hs), fun _ _ hs => (nomatch hs), h.faithful⟩) he hc
      fun hst => ?_
    obtain ⟨l, r, hl⟩ := List.exists_cons_of_ne_nil (h.fits hst).isOpen
    rw [hlog, levels_setTransform t (levels_pushGroup hl), hl]
    exact ⟨List.cons_ne_nil _ _, placement_set_push t l r⟩

theorem Settled.concat [Exact α] {env : Environment α} (henv : env.builder.transform = innermost) (t : Affine α)
    {st : List Bracket} {m : Machine α} (h : Settled st m)
    (hq : .tiling ∉ st → m.history.previous 1 = "q" →
      ¬m.Lost (m.concat env t).toMoment ∨ (m.concat env t).Placed) : Settled st (m.concat env t) where
  good := concat_good henv t h.good hq
  stored hu := by
    obtain ⟨hf, hs, -⟩ := concat_same env t m
    obtain ⟨l, r, hl⟩ := List.exists_cons_of_ne_nil (h.good.fits hu).isOpen
    obtain ⟨l', hl'⟩ := concat_levels env t m l r hl
    rw [own_of_same hf hs]
    exact Stored.of_tail (by rw [hl, hl']; rfl) (h.stored hu)

/-- The moments around an operator are placed. -/
theorem Settled.record {st : List Bracket} {m n : Machine α} {k : Nat} (op : Operator) (hm : Good st m)
    (ho : opened m.log = some (List.replicate k .level ++ st)) (h : Settled st n) :
    Settled st (n.record ⟨op, m.toMoment, n.toMoment⟩) where
  good :=
    { faithful := h.good.faithful
      executed := fun e he hu => by
        rcases he with rfl | he
        · have hst : .tiling ∉ st := fun ht => hu ⟨_, ho, List.mem_append_right _ ht⟩
          exact ⟨(hm.fits hst).placed, (h.good.fits hst).placed⟩
        · exact h.good.executed e he hu
      fits := h.good.fits }
  stored := h.stored

/-- The cell of a tiling starts out good, since it is not looked at. -/
theorem Good.cell {env : Environment α} {st : List Bracket} {m : Machine α} (told t : Tiling α) (part : Part)
    (seed : Option (ColorSpace × Color)) (h : Good st m) (ho : opened m.log = some st) :
    Good (.tiling :: st) (cellOf env t seed (m.tell (.pushTiling told part))) where
  faithful := by
    rw [cellOf_log]
    exact h.faithful_tell ho fun _ hs => nomatch hs
  executed := by
    rw [cellOf_executed]
    exact h.executed
  fits hst := absurd (.head _) hst

/-- Back from the cell of a tiling, with the levels of before. -/
theorem Good.endCell {st st' : List Bracket} {m n : Machine α} (h : Good st m) (hn : Good st' n)
    (hl : (openLevels n.log).tail = openLevels m.log) :
    Good st ({ m with log := n.log, executed := n.executed }.tell .popTiling) where
  faithful := ⟨fun _ _ hs => (nomatch hs), hn.faithful⟩
  executed := hn.executed
  fits hst := by
    show Fits (openLevels n.log).tail m.state.ctm
    rw [hl]
    exact h.fits hst

/-- Back from a level that was saved for a stretch, with the levels of before. -/
theorem Good.endLevel {st : List Bracket} {m n : Machine α} (h : Good st m) (hn : Good (.level :: st) n)
    (hs : n.saved = m.save.saved) (hl : openLevels n.restoreState.log = openLevels m.log) : Good st n.restoreState := by
  refine (hn.mono (outside_cons (by decide)).mpr).restoreState hs fun hst => ?_
  rw [← restoreState_levels hs, hl]
  exact h.fits hst

end Machine

end PdfContent
