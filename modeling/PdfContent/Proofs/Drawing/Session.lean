import PdfContent.Proofs.Drawing.Frame
import PdfContent.Proofs.Drawing.Run
/-!
# Session — a drawing from its start to its end

A session starts with a page or with the cell of a tiling, is asked to draw any number of contents, and is finished at
the end.  `Sound` is what holds of every machine on the way, whatever the content (`session_sound`).
-/
namespace PdfContent

open Scalar

namespace Machine

variable {α : Type} [Scalar α]

inductive Origin (α : Type) where
  | page (p : PageParams α)
  | cell (resources : Dict) (bounds : Rect α)

inductive Request where
  | content (o : Object)
  | precision (type : Nat) (delta : Float32) (maxDepth : Nat)

def opening (env : Environment α) : Origin α → Machine α
  | .page p => startPage env p
  | .cell resources bounds => startCell env resources bounds

/-- Does what is asked for.  A request that fails changes nothing. -/
def serve (env : Environment α) (m : Machine α) : Request → Machine α
  | .content o => (m.draw env o).toOption.getD m
  | .precision type delta maxDepth => m.setPrecision type delta maxDepth

/-- The machine after any number of requests. -/
def session (env : Environment α) (origin : Origin α) (requests : List Request) : Machine α :=
  requests.foldl (serve env) (opening env origin)

theorem serve_content (env : Environment α) (m : Machine α) (o : Object) :
    Draws env .content m (m.serve env (.content o)) := by
  show Draws env .content m ((m.draw env o).toOption.getD m)
  unfold draw
  cases contentBytes env.store o with
  | error e => exact .nothing m
  | ok data => exact .run levels _ m

/-- **What content preserves holds all through a session.** -/
theorem session_induction {env : Environment α} {P : Machine α → Prop} {origin : Origin α}
    (hopen : P (opening env origin)) (hdraw : ∀ m n, Draws env .content m n → P m → P n)
    (hset : ∀ m type delta maxDepth, P m → P (m.setPrecision type delta maxDepth)) (requests : List Request) :
    P (session env origin requests) := by
  unfold session
  generalize opening env origin = m at hopen
  induction requests generalizing m with
  | nil => exact hopen
  | cons r rs ih =>
    refine ih (m.serve env r) ?_
    cases r with
    | content o => exact hdraw _ _ (serve_content env m o) hopen
    | precision type delta maxDepth => exact hset m type delta maxDepth hopen

end Machine

/-! ## Soundness -/

/-- There are resources, every saved state has its clip, and the floors are in order. -/
structure Moment.Sound {α : Type} (m : Moment α) : Prop where
  resources : m.resources ≠ []
  depth : m.saved.length = m.clips.depth
  floor : m.restoreFloor ≤ m.saved.length
  base : m.baseDepth ≤ m.restoreFloor

namespace Machine

variable {α : Type} {m n : Machine α}

theorem sound_of_same (hm : m.Sound) (hf : n.around = m.around) (hs : n.saved = m.saved)
    (hc : n.clips.saved = m.clips.saved) : n.Sound where
  resources := resources_of_around hf hm.resources
  depth := by rw [hs, ClipHistory.depth, hc]; exact hm.depth
  floor := by rw [hs, Moment.floor_of_around hf]; exact hm.floor
  base := by rw [Moment.floor_of_around hf, Moment.base_of_around hf]; exact hm.base

/-- A sound machine stands above surroundings that have a clip for every state. -/
theorem Moment.Sound.above (hm : m.Sound) :
    ∃ base clips, List.length clips = List.length base ∧ Above base clips m := by
  have hd : m.saved.length = m.clips.saved.length := hm.depth
  have hf := hm.floor
  refine ⟨m.saved.drop (m.saved.length - m.restoreFloor), m.clips.saved.drop (m.saved.length - m.restoreFloor), ?_, ?_,
    m.saved.take (m.saved.length - m.restoreFloor), ?_, m.clips.saved.take (m.saved.length - m.restoreFloor), ?_, ?_⟩
  · rw [List.length_drop, List.length_drop, hd]
  · rw [List.length_drop]; omega
  · exact (List.take_append_drop _ _).symm
  · rw [List.length_take, List.length_take, hd]
  · exact (List.take_append_drop _ _).symm

theorem Above.sound {base : List (State α)} {clips : List (Option (ClipPath α))} (ha : Above base clips n)
    (hl : clips.length = base.length) (hm : m.Sound) (hf : n.around = m.around) : n.Sound where
  resources := resources_of_around hf hm.resources
  depth := by
    obtain ⟨_, tops, hs, cs, hcs, hc⟩ := ha
    rw [hs, ClipHistory.depth, hc, List.length_append, List.length_append, hcs, hl]
  floor := by
    obtain ⟨hr, tops, hs, _⟩ := ha
    rw [hr, hs, List.length_append]
    exact Nat.le_add_left _ _
  base := by rw [Moment.floor_of_around hf, Moment.base_of_around hf]; exact hm.base

theorem save_sound (hm : m.Sound) : m.save.Sound :=
  ⟨hm.resources, congrArg (· + 1) hm.depth, Nat.le_succ_of_le hm.floor, hm.base⟩

/-- A sound machine with all its saved states below the floor. -/
theorem raised_sound (hm : m.Sound) : Moment.Sound { m.toMoment with restoreFloor := m.saved.length } :=
  ⟨hm.resources, hm.depth, Nat.le_refl _, Nat.le_trans hm.base hm.floor⟩

variable [Scalar α] (env : Environment α) (t : Tiling α) (seed : Option (ColorSpace × Color))

theorem cellOf_sound (m : Machine α) : (m.cellOf env t seed).Sound := by
  cases seed <;> exact ⟨List.cons_ne_nil _ _, rfl, Nat.le_refl _, Nat.le_refl _⟩

theorem cellOf_above (m : Machine α) : Above [] [] (m.cellOf env t seed) := by
  cases seed <;> exact ⟨rfl, [], rfl, [], rfl, rfl⟩

theorem cellOf_log (m : Machine α) : (m.cellOf env t seed).log = m.log := by
  cases seed <;> rfl

theorem cellOf_executed (m : Machine α) : (m.cellOf env t seed).executed = m.executed := by
  cases seed <;> rfl

end Machine

namespace Draws

open Machine

variable {α : Type} [Scalar α] {env : Environment α} {p : Span} {m n : Machine α}

theorem sound (h : Draws env p m n) (hm : m.Sound) : n.Sound := by
  have same (hf : n.around = m.around ∧ n.saved = m.saved ∧ n.clips.saved = m.clips.saved) : n.Sound :=
    sound_of_same hm hf.1 hf.2.1 hf.2.2
  have above (hf : n.around = m.around ∧ ∀ base clips, Above base clips m → Above base clips n) : n.Sound := by
    obtain ⟨base, clips, hl, ha⟩ := Moment.Sound.above hm
    exact (hf.2 base clips ha).sound hl hm hf.1
  cases p with
  | part | fresh => exact same (h.frames hm.resources)
  | operator | content => exact above (h.frames hm.resources)

/-- What was executed stays so. -/
theorem executed_mono (h : Draws env p m n) : ∀ e, m.executed e → n.executed e := by
  induction h with
  | refl | report | tell | restyle | clip | note | font | announce | char | mask | unmask | group | save | nothing =>
    exact fun _ he => he
  | trans _ _ ih ih' | start _ _ ih ih' | shade _ _ ih ih' => exact fun e he => ih' e (ih e he)
  | string _ _ ih | place _ _ ih | transparency _ _ ih | nesting _ ih | glyph _ ih | base _ _ ih | unplaced _ ih
  | effect _ _ ih | fault _ _ ih => exact ih
  | @resources _ _ n _ _ ih =>
    obtain ⟨_, hp⟩ := popResources_eq n
    rw [hp]
    exact ih
  | tiling told t part seed _ ih =>
    intro e he
    have cell := ih e ((congrFun (cellOf_executed env t seed (Machine.tell _ _)) e).mpr he)
    exact (congrFun (restoreTo_executed 0 _) e).mpr cell
  | level _ ih => exact fun e he => (congrFun (restoreState_executed _) e).mpr (ih e he)
  | nested _ ih => exact fun e he => (congrFun (restoreTo_executed _ _) e).mpr (ih e he)
  | restore m => exact fun e he => (congrFun (restore_executed m) e).mpr he
  | concat t m => exact fun e he => (congrFun (concat_executed env t m) e).mpr he
  | perform _ _ _ ih ih' => exact fun e he => .inr (ih' e (ih e he))

/-- Every operator that is executed leads from a sound moment to a sound one. -/
theorem executed_sound (h : Draws env p m n) :
    m.Sound → ∀ e, n.executed e → m.executed e ∨ e.before.Sound ∧ e.after.Sound := by
  induction h with
  | refl | report | tell | restyle | clip | note | font | announce | char | mask | unmask | group | save | nothing =>
    exact fun _ _ he => .inl he
  | trans h _ ih ih' | start h _ ih ih' =>
    intro hm e he
    rcases ih' (h.sound hm) e he with he | he
    · exact ih hm e he
    · exact .inr he
  | shade h _ ih ih' =>
    intro hm e he
    rcases ih' (sound_of_same (h.sound hm) rfl rfl rfl) e he with he | he
    · exact ih hm e he
    · exact .inr he
  | string _ _ ih | place _ _ ih | transparency _ _ ih | nesting _ ih | glyph _ ih | base _ _ ih =>
    exact fun hm => ih ⟨hm.resources, hm.depth, hm.floor, hm.base⟩
  | unplaced _ ih | effect _ _ ih | fault _ _ ih => exact ih
  | @resources _ _ n d _ ih =>
    intro hm e he
    obtain ⟨_, hp⟩ := popResources_eq n
    rw [hp] at he
    exact ih ⟨List.cons_ne_nil _ _, hm.depth, hm.floor, hm.base⟩ e he
  | tiling told t part seed _ ih =>
    intro _ e he
    rcases ih (cellOf_sound env t seed _) e ((congrFun (restoreTo_executed 0 _) e).mp he) with he | he
    · exact .inl ((congrFun (cellOf_executed env t seed (Machine.tell _ _)) e).mp he)
    · exact .inr he
  | level _ ih =>
    intro hm e he
    rw [restoreState_executed] at he
    exact ih (save_sound hm) e he
  | nested _ ih =>
    intro hm e he
    exact ih (raised_sound hm) e ((congrFun (restoreTo_executed _ _) e).mp he)
  | restore m => exact fun _ _ he => .inl ((congrFun (restore_executed m) _).mp he)
  | concat t m => exact fun _ _ he => .inl ((congrFun (concat_executed env t m) _).mp he)
  | @perform m n k op h h' ih ih' =>
    intro hm e he
    have hn := h.sound hm
    have hpush : { n with history := n.history.push op.name }.Sound := sound_of_same hn rfl rfl rfl
    rcases he with rfl | he
    · exact .inr ⟨hn, h'.sound hpush⟩
    rcases ih' hpush e he with he | he
    · exact ih hm e he
    · exact .inr he

end Draws

/-! ## What content stacks up -/

/-- Something of a log that grows with every state saved and shrinks with every state restored. -/
structure Stacking {α : Type} (q : Nat → Log α → Prop) : Prop where
  save {k log} : q k log → q (k + 1) (.call .save :: log)
  restore {k log} : q (k + 1) log → q k (.call .restore :: log)
  report {k log} (d : Diagnostic) : q k log → q k (.report d :: log)

namespace Machine

variable {α : Type} {q : Nat → Log α → Prop} {m n : Machine α}

/-- The log holds as much as the content at work has saved. -/
def Stacks (q : Nat → Log α → Prop) (m : Machine α) : Prop := q (m.saved.length - m.restoreFloor) m.log

theorem Stacks.of_same (h : Stacks q m) (hf : n.around = m.around) (hs : n.saved = m.saved)
    (hq : ∀ k, q k m.log → q k n.log) : Stacks q n := by
  rw [Stacks, hs, Moment.floor_of_around hf]
  exact hq _ h

/-- Content that has saved no state has stacked up nothing. -/
theorem Stacks.of_above {base : List (State α)} {clips : List (Option (ClipPath α))} (ha : Above base clips m)
    (hs : m.saved = base) (h : q 0 m.log) : Stacks q m := by
  rw [Stacks, ha.floor, hs, Nat.sub_self]
  exact h

/-- Nested content starts with nothing stacked up. -/
theorem raised_stacks (h : q 0 m.log) : Stacks q { m with restoreFloor := m.saved.length } :=
  .of_above (.refl m) rfl h

theorem Stacks.save (hq : Stacking q) (hm : m.Sound) (h : Stacks q m) : Stacks q m.save := by
  have hl : m.save.saved.length - m.save.restoreFloor = m.saved.length - m.restoreFloor + 1 := Nat.succ_sub hm.floor
  rw [Stacks, hl]
  exact hq.save h

variable [Scalar α]

/-- So does the cell of a tiling. -/
theorem cellOf_stacks (env : Environment α) (t : Tiling α) (seed : Option (ColorSpace × Color)) (h : q 0 m.log) :
    Stacks q (m.cellOf env t seed) := by
  refine .of_above (cellOf_above env t seed m) (by cases seed <;> rfl) ?_
  rw [cellOf_log]
  exact h

theorem restoreState_stacks (hq : Stacking q) {s : State α} {saved : List (State α)} {k : Nat}
    (hs : m.saved = s :: saved) (h : q (k + 1) m.log) : q k m.restoreState.log := by
  rw [restoreState_cons hs]
  exact hq.restore h

theorem Stacks.restore (hq : Stacking q) (h : Stacks q m) : Stacks q m.restore := by
  unfold Machine.restore
  split
  case isTrue => exact hq.report _ h
  case isFalse hlt =>
    obtain ⟨s, saved, hs⟩ : ∃ s saved, m.saved = s :: saved :=
      List.exists_cons_of_length_pos (Nat.zero_lt_of_lt (Nat.lt_of_not_le hlt))
    rw [hs, List.length_cons] at hlt
    have hr : m.restoreState.restoreFloor = m.restoreFloor := Moment.floor_of_around (restoreState_around m)
    rw [Stacks, hs, List.length_cons, Nat.succ_sub (by omega)] at h
    rw [Stacks, restoreState_saved, hs, hr]
    exact restoreState_stacks hq hs h

theorem restoreTo_stacks (hq : Stacking q) {base tops : List (State α)} (hs : m.saved = tops ++ base)
    (h : q tops.length m.log) : q 0 (m.restoreTo base.length).log :=
  restoreTo_induction (p := fun tops m => q tops.length m.log) (fun _ _ _ hs => restoreState_stacks hq hs) tops m hs h

/-- Once the states that content left saved are restored, nothing is stacked up. -/
theorem Stacks.restoreTo (hq : Stacking q) {base : List (State α)} {clips : List (Option (ClipPath α))}
    (ha : Above base clips m) (h : Stacks q m) : q 0 (m.restoreTo base.length).log := by
  obtain ⟨hf, tops, ht⟩ := ha
  rw [Stacks, ht.saved, hf, List.length_append, Nat.add_sub_cancel] at h
  exact restoreTo_stacks hq ht.saved h

end Machine

namespace Machine

variable {α : Type} [Scalar α]

/-- A page before its crop box: one level that is not the content's own, under the transform of the page. -/
def pageLevel (env : Environment α) (p : PageParams α) : Machine α :=
  let (ctm, width, height) := p.frame
  let scale := ofFloat Style.pixelsPerPoint
  ((start env [] p.resources ctm).tell (.documentSize (width * scale) (height * scale))).save.tell
    (.setTransform ((Affine.scale scale).mul ctm))

theorem pageLevel_sound (env : Environment α) (p : PageParams α) : (pageLevel env p).Sound :=
  ⟨List.cons_ne_nil _ _, rfl, Nat.zero_le _, Nat.le_refl _⟩

theorem crop_draws (width height : α) (r : Rect α) (m : Machine α) :
    Draws env (.part false) m (m.crop width height r) :=
  .branch (fun _ => .refl m) (fun _ => .trans (.addRect _ m) (.trans (.clip _ _ _) (.trans (.tellState rfl rfl)
    (.clearPath _))))

/-- A page starts with a stretch on its level, which its content may not leave. -/
theorem startPage_draws (env : Environment α) (p : PageParams α) :
    ∃ m, Draws env (.part false) (pageLevel env p) m ∧ startPage env p =
      { m with
        baseDepth := m.saved.length, restoreFloor := m.saved.length, history := m.history.push "startPage" } := by
  cases h : p.crop with
  | none => exact ⟨pageLevel env p, .refl _, by unfold startPage; rw [h]; rfl⟩
  | some r => exact ⟨_, crop_draws p.frame.2.1 p.frame.2.2 r (pageLevel env p), by unfold startPage; rw [h]; rfl⟩

theorem opening_sound (env : Environment α) (origin : Origin α) :
    (opening env origin).Sound ∧ ∀ e, (opening env origin).executed e → e.before.Sound ∧ e.after.Sound := by
  cases origin with
  | cell => exact ⟨⟨List.cons_ne_nil _ _, rfl, Nat.le_refl _, Nat.le_refl _⟩, fun _ he => he.elim⟩
  | page p =>
    obtain ⟨m, h, hp⟩ := startPage_draws env p
    have hl := pageLevel_sound env p
    have hm := h.sound hl
    rw [opening, hp]
    refine ⟨⟨hm.resources, hm.depth, Nat.le_refl _, Nat.le_refl _⟩, fun e he => ?_⟩
    rcases h.executed_sound hl e he with he | he
    · exact he.elim
    · exact he

/-- **Every moment of a session is sound**, and so are those before and after every operator that was executed. -/
theorem session_sound (env : Environment α) (origin : Origin α) (requests : List Request) :
    (session env origin requests).Sound ∧
      ∀ e, (session env origin requests).executed e → e.before.Sound ∧ e.after.Sound := by
  refine session_induction (P := fun m => m.Sound ∧ ∀ e, m.executed e → e.before.Sound ∧ e.after.Sound)
    (opening_sound env origin) ?_ ?_ requests
  · rintro m n h ⟨hm, he⟩
    refine ⟨h.sound hm, fun e hn => ?_⟩
    rcases h.executed_sound hm e hn with hn | hn
    · exact he e hn
    · exact hn
  · exact fun m type delta maxDepth ⟨hm, he⟩ => ⟨sound_of_same hm rfl rfl rfl, he⟩

end Machine

end PdfContent
