import PdfContent.Proofs.Drawing.Draws
/-!
# Frame — what nested content leaves as it was

The saved states of a machine stand above those of the content around it, and no operator reaches below the floor
between the two (`Above`).  What runs inside of an operator gives back everything it takes, so a form, a soft mask, a
glyph or the cell of a tiling changes nothing of its surroundings but the path (`Frames`).
-/
namespace PdfContent

/-- What belongs to the surroundings of content, apart from the saved states. -/
structure Surroundings (α : Type) where
  resources : List Dict
  baseMatrix : Affine α
  restoreFloor : Nat
  baseDepth : Nat
  nesting : Nat
  glyphDepth : Nat

def Moment.around {α : Type} (m : Moment α) : Surroundings α :=
  ⟨m.resources, m.baseMatrix, m.restoreFloor, m.baseDepth, m.nesting, m.glyphDepth⟩

theorem Moment.floor_of_around {α : Type} {m n : Moment α} (h : n.around = m.around) :
    n.restoreFloor = m.restoreFloor :=
  congrArg Surroundings.restoreFloor h

theorem Moment.base_of_around {α : Type} {m n : Moment α} (h : n.around = m.around) : n.baseDepth = m.baseDepth :=
  congrArg Surroundings.baseDepth h

namespace Machine

variable {α : Type} [Scalar α]

/-! ## Restoring -/

theorem restoreState_cons {m : Machine α} {s : State α} {saved : List (State α)} (h : m.saved = s :: saved) :
    m.restoreState = { m.tell .restore with
      state := { s with outline := .ofPath m.state.path }, saved, clips := m.clips.restore } := by
  unfold restoreState
  rw [h]

theorem restoreState_saved (m : Machine α) : m.restoreState.saved = m.saved.tail := by
  cases h : m.saved with
  | nil => unfold restoreState; rw [h]; exact h
  | cons s saved => rw [restoreState_cons h]; rfl

theorem restoreState_around (m : Machine α) : m.restoreState.around = m.around := by
  unfold restoreState
  split <;> rfl

theorem restoreState_executed (m : Machine α) : m.restoreState.executed = m.executed := by
  unfold restoreState
  split <;> rfl

omit [Scalar α] in
theorem popResources_eq (m : Machine α) : ∃ resources, m.popResources = { m with resources } := by
  unfold popResources
  split
  · exact ⟨_, rfl⟩
  · exact ⟨m.resources, rfl⟩

theorem restore_around (m : Machine α) : m.restore.around = m.around := by
  unfold restore
  split
  · rfl
  · exact restoreState_around m

theorem restore_executed (m : Machine α) : m.restore.executed = m.executed := by
  unfold restore
  split
  · rfl
  · exact restoreState_executed m

theorem restoreTo_of_length {m : Machine α} {depth : Nat} (h : m.saved.length = depth) : m.restoreTo depth = m := by
  unfold restoreTo
  rw [h, Nat.sub_self]
  rfl

theorem restoreTo_succ {m : Machine α} {s : State α} {saved : List (State α)} {depth : Nat} (h : m.saved = s :: saved)
    (hd : depth ≤ saved.length) : m.restoreTo depth = m.restoreState.restoreTo depth := by
  unfold restoreTo
  rw [restoreState_saved, h, List.tail_cons, List.length_cons, Nat.sub_add_comm hd, List.range_succ_eq_map,
    List.foldl_cons, List.foldl_map]

/-- **Restoring down to the states of the surroundings**, one state after the other: what a single restoring preserves
holds in the end. -/
theorem restoreTo_induction {base : List (State α)} {p : List (State α) → Machine α → Prop}
    (step : ∀ s tops m, m.saved = s :: (tops ++ base) → p (s :: tops) m → p tops m.restoreState) :
    ∀ (tops : List (State α)) (m : Machine α), m.saved = tops ++ base → p tops m → p [] (m.restoreTo base.length)
  | [], m, hm, h => by rw [restoreTo_of_length (by rw [hm]; rfl)]; exact h
  | s :: tops, m, hm, h => by
    rw [restoreTo_succ hm (by simp)]
    exact restoreTo_induction step tops _ (by rw [restoreState_saved, hm]; rfl) (step s tops m hm h)

/-- What any single restoring preserves holds in the end. -/
theorem restoreTo_preserves {p : Machine α → Prop} (h : ∀ m, p m → p m.restoreState) (depth : Nat) {m : Machine α}
    (hm : p m) : p (m.restoreTo depth) := by
  unfold restoreTo
  exact List.foldlRecOn _ _ hm fun n hn _ _ => h n hn

theorem restoreTo_eq {β : Type} {f : Machine α → β} (h : ∀ m, f m.restoreState = f m) (depth : Nat) (m : Machine α) :
    f (m.restoreTo depth) = f m :=
  restoreTo_preserves (p := fun n => f n = f m) (fun n hn => (h n).trans hn) depth rfl

theorem restoreTo_around (depth : Nat) (m : Machine α) : (m.restoreTo depth).around = m.around :=
  restoreTo_eq (f := (·.around)) restoreState_around depth m

theorem restoreTo_executed (depth : Nat) (m : Machine α) : (m.restoreTo depth).executed = m.executed :=
  restoreTo_eq (f := (·.executed)) restoreState_executed depth m

/-! ## The states of the surroundings -/

/-- The content at work has saved the states `tops`, each with a clip, on top of those of its surroundings. -/
structure Tops (base : List (State α)) (clips : List (Option (ClipPath α))) (tops : List (State α)) (m : Machine α) :
    Prop where
  saved : m.saved = tops ++ base
  clips : ∃ cs, cs.length = tops.length ∧ m.clips.saved = cs ++ clips

/-- The saved states of a machine stand above those of its surroundings, which begin at the floor. -/
structure Above (base : List (State α)) (clips : List (Option (ClipPath α))) (m : Machine α) : Prop where
  floor : m.restoreFloor = base.length
  tops : ∃ tops, Tops base clips tops m

section

variable {base tops : List (State α)} {clips : List (Option (ClipPath α))} {m : Machine α}

omit [Scalar α] in
theorem Above.refl (m : Machine α) : Above m.saved m.clips.saved { m with restoreFloor := m.saved.length } :=
  ⟨rfl, [], rfl, [], rfl, rfl⟩

omit [Scalar α] in
theorem Above.of_same {n : Machine α} (h : Above base clips m) (hf : n.restoreFloor = m.restoreFloor)
    (hs : n.saved = m.saved) (hc : n.clips.saved = m.clips.saved) : Above base clips n := by
  obtain ⟨hr, tops, hsaved, hclips⟩ := h
  exact ⟨hf.trans hr, tops, hs.trans hsaved, hc ▸ hclips⟩

omit [Scalar α] in
theorem Tops.save (h : Tops base clips tops m) : Tops base clips (m.state :: tops) m.save := by
  obtain ⟨hs, cs, hl, hc⟩ := h
  exact ⟨congrArg (m.state :: ·) hs, m.clips.current :: cs, congrArg (· + 1) hl, congrArg (m.clips.current :: ·) hc⟩

theorem Tops.restoreState {s : State α} (h : Tops base clips (s :: tops) m) : Tops base clips tops m.restoreState := by
  obtain ⟨hs, cs, hl, hc⟩ := h
  obtain _ | ⟨c, cs⟩ := cs
  · cases hl
  · rw [restoreState_cons hs]
    exact ⟨rfl, cs, Nat.succ.inj hl, by simp only [ClipHistory.restore, hc, List.cons_append]⟩

omit [Scalar α] in
theorem Above.save (h : Above base clips m) : Above base clips m.save :=
  ⟨h.floor, h.tops.elim fun _ h => ⟨_, h.save⟩⟩

theorem Above.restore (h : Above base clips m) : Above base clips m.restore := by
  obtain ⟨hf, tops, ht⟩ := h
  unfold Machine.restore
  split
  case isTrue => exact ⟨hf, tops, ht.saved, ht.clips⟩
  case isFalse hlt =>
    cases tops with
    | nil => exact absurd (by rw [ht.saved, hf]; exact Nat.le_refl _) hlt
    | cons s tops => exact ⟨(Moment.floor_of_around (restoreState_around m)).trans hf, tops, ht.restoreState⟩

/-- Back at the states of the surroundings. -/
theorem Above.restoreTo (h : Above base clips m) :
    (m.restoreTo base.length).saved = base ∧ (m.restoreTo base.length).clips.saved = clips := by
  obtain ⟨_, tops, ht⟩ := h
  have unwound : Tops base clips [] (m.restoreTo base.length) :=
    restoreTo_induction (fun _ _ _ _ h => h.restoreState) tops m ht.saved ht
  obtain ⟨hs, cs, hl, hc⟩ := unwound
  obtain rfl := List.eq_nil_of_length_eq_zero hl
  exact ⟨hs, hc⟩

end

/-! ## Stretches of a drawing -/

/-- The surroundings of the content are the same, and its resources are if there were any. -/
structure Stays (m n : Machine α) : Prop where
  others : { n.around with resources := [] } = { m.around with resources := [] }
  resources : m.resources ≠ [] → n.resources = m.resources

section

variable {m n k : Machine α}

omit [Scalar α] in
theorem Stays.of_around (h : n.around = m.around) : Stays m n :=
  ⟨congrArg (fun f => { f with resources := [] }) h, fun _ => congrArg Surroundings.resources h⟩

omit [Scalar α] in
theorem Stays.trans (h : Stays m n) (h' : Stays n k) : Stays m k :=
  ⟨h'.others.trans h.others, fun hm => (h'.resources (by rw [h.resources hm]; exact hm)).trans (h.resources hm)⟩

omit [Scalar α] in
theorem Stays.floor (h : Stays m n) : n.restoreFloor = m.restoreFloor := congrArg Surroundings.restoreFloor h.others

omit [Scalar α] in
theorem Stays.around (h : Stays m n) (hm : m.resources ≠ []) : n.around = m.around := by
  show { ({ n.around with resources := [] } : Surroundings α) with resources := n.resources } = _
  rw [h.others, h.resources hm]
  rfl

end

/-- What a stretch of a drawing leaves as it was, on a machine that may have no resources. -/
def Kept : Span → Machine α → Machine α → Prop
  | .part _, m, n | .fresh, m, n => Stays m n ∧ n.saved = m.saved ∧ n.clips.saved = m.clips.saved
  | .operator _, m, n | .content, m, n => Stays m n ∧ ∀ base clips, Above base clips m → Above base clips n

/-- What a stretch of a drawing leaves as it was. -/
def Frames : Span → Machine α → Machine α → Prop
  | .part _, m, n | .fresh, m, n =>
    m.resources ≠ [] → n.around = m.around ∧ n.saved = m.saved ∧ n.clips.saved = m.clips.saved
  | .operator _, m, n | .content, m, n =>
    m.resources ≠ [] → n.around = m.around ∧ ∀ base clips, Above base clips m → Above base clips n

omit [Scalar α] in
theorem resources_of_around {m n : Machine α} (h : n.around = m.around) (hm : m.resources ≠ []) : n.resources ≠ [] :=
  fun hn => hm ((congrArg Surroundings.resources h).symm.trans hn)

omit [Scalar α] in
/-- Resources that were put on top of others are dropped again. -/
theorem popResources_of_push {m n : Machine α} {d : Dict} (hm : m.resources ≠ [])
    (h : n.around = (m.pushResources d).around) : n.popResources = { n with resources := m.resources } := by
  obtain ⟨r, rs, hr⟩ := List.exists_cons_of_ne_nil hm
  have hn : n.resources = d :: r :: rs := (congrArg Surroundings.resources h).trans (congrArg (d :: ·) hr)
  unfold popResources
  rw [hn, hr]

theorem restoreState_of_save {m n : Machine α} (hs : n.saved = m.save.saved) (hc : n.clips.saved = m.save.clips.saved) :
    n.restoreState = { n.tell .restore with
      state := { m.state with outline := .ofPath n.state.path }, saved := m.saved, clips := m.clips } := by
  rw [restoreState_cons hs]
  simp only [ClipHistory.restore, hc]
  rfl

theorem concat_executed (env : Environment α) (t : Affine α) (m : Machine α) :
    (m.concat env t).executed = m.executed := by
  unfold concat
  dsimp only
  split
  · rfl
  split <;> rfl

theorem concat_same (env : Environment α) (t : Affine α) (m : Machine α) :
    (m.concat env t).around = m.around ∧ (m.concat env t).saved = m.saved ∧
      (m.concat env t).clips.saved = m.clips.saved := by
  unfold concat
  dsimp only
  split
  · exact ⟨rfl, rfl, rfl⟩
  split
  · exact ⟨rfl, rfl, rfl⟩
  · exact ⟨rfl, rfl, rfl⟩

end Machine

namespace Draws

open Machine

variable {α : Type} [Scalar α] {env : Environment α}

/-- Every stretch of a drawing leaves the saved states and clips as they were, and the surroundings where there are
resources. -/
theorem kept {p : Span} {m n : Machine α} (h : Draws env p m n) : Kept p m n := by
  induction h with
  | refl | report | tell | restyle | clip | note | font | announce | char | mask | unmask | group | tiling =>
    exact ⟨.of_around rfl, rfl, rfl⟩
  | trans _ _ ih ih' | start _ _ ih ih' =>
    obtain ⟨hf, hs, hc⟩ := ih
    obtain ⟨hf', hs', hc'⟩ := ih'
    exact ⟨hf.trans hf', hs'.trans hs, hc'.trans hc⟩
  | string _ _ ih | place _ _ ih | transparency _ _ ih | unplaced _ ih => exact ⟨⟨ih.1.others, ih.1.resources⟩, ih.2⟩
  | @resources _ m n d _ ih =>
    obtain ⟨hf, hs, hc⟩ := ih
    have dropped (hm : m.resources ≠ []) : n.popResources = { n with resources := m.resources } :=
      popResources_of_push hm (hf.around (List.cons_ne_nil _ _))
    obtain ⟨_, hp⟩ := popResources_eq n
    exact ⟨⟨by rw [hp]; exact hf.others, fun hm => by rw [dropped hm]⟩, by rw [hp]; exact hs, by rw [hp]; exact hc⟩
  | nesting _ ih =>
    obtain ⟨hf, hs, hc⟩ := ih
    exact ⟨⟨congrArg (fun f => { f with nesting := f.nesting - 1 }) hf.others, hf.resources⟩, hs, hc⟩
  | glyph _ ih =>
    obtain ⟨hf, hs, hc⟩ := ih
    exact ⟨⟨congrArg (fun f => { f with glyphDepth := f.glyphDepth - 1 }) hf.others, hf.resources⟩, hs, hc⟩
  | @base m _ _ _ ih =>
    obtain ⟨hf, hs, hc⟩ := ih
    exact ⟨⟨congrArg (fun f => { f with baseMatrix := m.baseMatrix }) hf.others, hf.resources⟩, hs, hc⟩
  | level _ ih =>
    obtain ⟨hf, hs, hc⟩ := ih
    rw [restoreState_of_save hs hc]
    exact ⟨⟨hf.others, hf.resources⟩, rfl, rfl⟩
  | @nested m n _ ih =>
    -- the floor was raised to all that is saved, so the states below it are still there to go back to
    obtain ⟨hf, ha⟩ := ih
    obtain ⟨hs, hc⟩ := (ha _ _ (.refl m)).restoreTo
    have hr : Stays { m with restoreFloor := m.saved.length } (n.restoreTo m.saved.length) :=
      hf.trans (.of_around (restoreTo_around _ n))
    exact ⟨⟨congrArg (fun f => { f with restoreFloor := m.restoreFloor }) hr.others, hr.resources⟩, hs, hc⟩
  | effect _ _ ih =>
    obtain ⟨hf, hs, hc⟩ := ih
    exact ⟨hf, fun _ _ h => h.of_same hf.floor hs hc⟩
  | save m => exact ⟨.of_around rfl, fun _ _ h => h.save⟩
  | restore m => exact ⟨.of_around (restore_around m), fun _ _ h => h.restore⟩
  | concat t m =>
    obtain ⟨hf, hs, hc⟩ := concat_same env t m
    exact ⟨.of_around hf, fun _ _ h => h.of_same (Moment.floor_of_around hf) hs hc⟩
  | shade _ _ ih ih' =>
    obtain ⟨hf, hs, hc⟩ := ih
    obtain ⟨hf', hs', hc'⟩ := ih'
    exact ⟨hf.trans ⟨hf'.others, hf'.resources⟩, fun _ _ h => (h.of_same hf.floor hs hc).of_same hf'.floor hs' hc'⟩
  | nothing m => exact ⟨.of_around rfl, fun _ _ h => h⟩
  | fault _ _ ih =>
    obtain ⟨hf, ha⟩ := ih
    exact ⟨hf.trans (.of_around rfl), fun _ _ h => (ha _ _ h).of_same rfl rfl rfl⟩
  | perform _ _ _ ih ih' =>
    obtain ⟨hf, ha⟩ := ih
    obtain ⟨hf', ha'⟩ := ih'
    refine ⟨hf.trans ⟨hf'.others, hf'.resources⟩, fun _ _ h => ?_⟩
    exact (ha' _ _ ((ha _ _ h).of_same rfl rfl rfl)).of_same rfl rfl rfl

/-- **Every stretch of a drawing leaves its surroundings as they were.** -/
theorem frames {p : Span} {m n : Machine α} (h : Draws env p m n) : Frames p m n := by
  cases p with
  | part | fresh => exact fun hm => ⟨h.kept.1.around hm, h.kept.2⟩
  | operator | content => exact fun hm => ⟨h.kept.1.around hm, h.kept.2⟩

end Draws

end PdfContent
