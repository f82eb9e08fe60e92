import PdfContent.Proofs.Content.Steps
import PdfContent.Proofs.Drawing.Groups
/-!
# Placement — the groups of the builder follow the coordinate system

In exact arithmetic every stretch of a drawing on a page keeps the groups where the state is, as long as nothing that is
executed loses a transform; and if something does, then the groups are elsewhere right after it (`page_placement`).
-/
namespace PdfContent

open Scalar

variable {α : Type} [Scalar α]

namespace Machine

/-- An operator that was executed outside of tilings is not the one that shades, and loses nothing. -/
def Obeys (e : Executed α) : Prop :=
  ¬InTiling e.before.log → e.operator.operation ≠ .shade ∧ (¬e.Loses ∨ e.after.Placed)

/-- What a stretch of a drawing does to the fit. -/
def Fitting : Span → Machine α → Machine α → Prop
  | .part _, m, n => ∀ st, opened m.log = some st → Good st m → Good st n
  | .fresh, m, n =>
    ∀ st r, opened m.log = some st → openLevels m.log = .fresh :: r → Good st m → Good st n
  | .operator o, m, n =>
    ∀ st, Stacks (OpenAbove st) m → (.tiling ∉ st → o ≠ .shade) →
      (.tiling ∉ st → o = .concat → m.history.previous 1 = "q" → ¬m.Lost n.toMoment ∨ n.Placed) →
      Settled st m → Settled st n
  | .content, m, n => ∀ st, Stacks (OpenAbove st) m → Settled st m → Settled st n

end Machine

namespace Draws

open Machine

variable {env : Environment α} {p : Span} {m n : Machine α}

/-- **Every stretch of a drawing keeps the groups where the state is**, if what it executes obeys. -/
theorem fitting [Exact α] (henv : env.builder.transform = innermost) (h : Draws env p m n) :
    m.Sound → (∀ e, n.executed e → Obeys e) → Fitting p m n := by
  induction h with
  | refl => exact fun _ _ st _ h => h
  | report | clip | note | font => exact fun _ _ st _ h => h.congr id id (fun _ he => he) rfl rfl
  | restyle s hs _ => exact fun _ _ st _ h => h.congr id id (fun _ he => he) rfl (congrArg Prod.fst hs)
  | announce | char | mask =>
    intro _ _ st ho hg
    exact (hg.tellState ho id rfl fun _ => rfl).congr id id (fun _ he => he) rfl rfl
  | unmask m =>
    intro _ _ st ho hg
    have unmasked : Good st (m.modifyState fun s => { s with softMask := none }) :=
      hg.congr id id (fun _ he => he) rfl rfl
    exact unmasked.tellState ho id rfl fun _ => rfl
  | tell hc => exact fun _ _ st ho h => h.tell ho id (fun s hs => congrArg _ (hc.state s hs)) (hc.levels _)
  | trans h h' ih ih' =>
    intro hm hobey st ho hg
    have hn := ih hm (fun e he => hobey e (h'.executed_mono e he)) st ho hg
    exact ih' (h.sound hm) hobey st (h.brackets hm st ho) hn
  | @resources _ m n d _ ih =>
    intro hm hobey st ho hg
    obtain ⟨_, hp⟩ := popResources_eq n
    rw [hp] at hobey ⊢
    have hn := ih ⟨List.cons_ne_nil _ _, hm.depth, hm.floor, hm.base⟩ hobey st ho
      (hg.congr id id (fun _ he => he) rfl rfl)
    exact hn.congr id id (fun _ he => he) rfl rfl
  | @string _ m n s h ih =>
    intro hm hobey st ho hg
    have hs : (m.tellState (.beginString · s)).Sound := ⟨hm.resources, hm.depth, hm.floor, hm.base⟩
    have inside := opened_call (.beginString m.state s) ho
    have hn := ih hs hobey _ inside (hg.tellState ho (outside_cons (by decide)).mp rfl fun _ => rfl)
    exact hn.tellState (h.brackets hs _ inside) (outside_cons (by decide)).mpr rfl fun _ => rfl
  | nesting _ ih =>
    intro hm hobey st ho hg
    have hn := ih ⟨hm.resources, hm.depth, hm.floor, hm.base⟩ hobey st ho (hg.congr id id (fun _ he => he) rfl rfl)
    exact hn.congr id id (fun _ he => he) rfl rfl
  | @tiling _ m n told t part seed h ih =>
    intro hm hobey st ho hg
    have hc := cellOf_sound env t seed (m.tell (.pushTiling told part))
    have ha := cellOf_above env t seed (m.tell (.pushTiling told part))
    have hl : Stacks (OpenAbove (.tiling :: st)) (cellOf env t seed (m.tell (.pushTiling told part))) :=
      cellOf_stacks env t seed (opened_call _ ho)
    have hn := ih hc (fun e he => hobey e ((congrFun (restoreTo_executed 0 n) e).mpr he)) _ hl
      (.inside (.head _) (hg.cell told t part seed ho))
    have kept : Leveled (.part false) m _ := (Draws.tiling told t part seed h).leveled hm
    exact hg.endCell (hn.restoreTo ((h.frames hc.resources).2 _ _ ha)) kept.1
  | @level _ m n h ih =>
    intro hm hobey st ho hg
    have kept : Leveled (.part false) m n.restoreState := (Draws.level h).leveled hm
    have hn := ih (save_sound hm) (fun e he => hobey e ((congrFun (restoreState_executed n) e).mpr he)) _ _
      (opened_call .save ho) rfl (hg.save ho)
    exact hg.endLevel hn (h.frames hm.resources).2.1 kept.1
  | start h h' ih ih' =>
    intro hm hobey st r ho hr hg
    have hn := ih hm (fun e he => hobey e (h'.executed_mono e he)) st ho hg
    exact ih' (h.sound hm) hobey st r (h.brackets hm st ho) ((h.leveled hm).1.trans hr) hn
  | @place m n t _ ih =>
    intro hm hobey st r ho hr hg
    refine ih ⟨hm.resources, hm.depth, hm.floor, hm.base⟩ hobey st (opened_call _ ho) ?_
    refine hg.move t ⟨fun _ _ hs => (nomatch hs), hg.faithful⟩ rfl rfl fun _ => ?_
    have hn : openLevels ((m.multiply t).setTransform t).log = Level.fresh.set t :: r := levels_setTransform t hr
    rw [hn, hr]
    exact ⟨List.cons_ne_nil _ _, placement_set_fresh t r⟩
  | unplaced _ ih => exact fun hm hobey st _ ho _ hg => ih hm hobey st ho hg
  | @transparency m n g h ih =>
    intro hm hobey st r ho hr hg
    have hs : (m.tellState (.pushTransparencyGroup · g)).Sound := ⟨hm.resources, hm.depth, hm.floor, hm.base⟩
    have inside := opened_call (.pushTransparencyGroup m.state g) ho
    have hn := ih hs hobey _ r inside hr (hg.tellState ho (outside_cons (by decide)).mp rfl fun _ => rfl)
    exact hn.tellState (h.brackets hs _ inside) (outside_cons (by decide)).mpr rfl fun _ => rfl
  | group t m => exact fun _ _ st _ hg => hg.group t
  | glyph _ ih | base _ _ ih =>
    intro hm hobey st ho hg
    have hn := ih ⟨hm.resources, hm.depth, hm.floor, hm.base⟩ hobey st ho (hg.congr id id (fun _ he => he) rfl rfl)
    exact hn.congr id id (fun _ he => he) rfl rfl
  | @nested m n h ih =>
    intro hm hobey st ho hg
    -- the content has saved nothing yet, and what it leaves saved still fits when it ends
    have none : own { m with restoreFloor := m.saved.length } = [] := own_eq_nil rfl
    have raised : Settled st { m with restoreFloor := m.saved.length } :=
      ⟨hg.congr id id (fun _ he => he) rfl rfl, fun _ => by rw [none]; trivial⟩
    have hn := ih (raised_sound hm) (fun e he => hobey e ((congrFun (restoreTo_executed _ n) e).mpr he)) st
      (raised_stacks ho) raised
    exact (hn.restoreTo ((h.frames hm.resources).2 _ _ (.refl m))).congr id id (fun _ he => he) rfl rfl
  | effect o h ih =>
    intro hm hobey st ho _ _ hg
    obtain ⟨hf, hs, -⟩ := h.frames hm.resources
    have hn := ih hm hobey _ ho (hg.good.mono (outside_levels _).mp)
    refine ⟨hn.mono (outside_levels _).mpr, fun hu => ?_⟩
    rw [own_of_same hf hs, (h.leveled hm).1]
    exact hg.stored hu
  | save m => exact fun hm _ st ho _ _ hg => hg.save hm ho
  | restore m => exact fun _ _ st _ _ _ hg => hg.restore
  | concat t m => exact fun _ _ st _ _ hq hg => hg.concat henv t fun hu => hq hu rfl
  | @shade m n k h h' ih ih' =>
    intro hm hobey st ho hshade _ hg
    -- outside of tilings there is no such operator
    have hu : .tiling ∈ st := Classical.byContradiction fun hu => hshade hu rfl
    have hl := List.mem_append_right (List.replicate (m.saved.length - m.restoreFloor) Bracket.level) hu
    have hn := ih hm (fun e he => hobey e (h'.executed_mono e he)) _ ho (hg.good.mono (outside_levels _).mp)
    have on := h.brackets hm _ ho
    have hk := ih' (sound_of_same (h.sound hm) rfl rfl rfl) hobey _ (opened_call _ on)
      ⟨hn.faithful_tell on fun _ hs => (nomatch hs), hn.executed, fun hs => absurd hl hs⟩
    exact .inside hu (hk.mono (outside_levels _).mpr)
  | nothing m => exact fun _ _ _ _ hg => hg
  | fault d h ih =>
    intro hm hobey st ho hg
    exact (ih hm hobey st ho hg).congr id (fun _ he => he) rfl rfl rfl
  | @perform m n k op h h' ih ih' =>
    intro hm hobey st ho hg
    -- the operator itself is the last one recorded, so what it obeys is known before it is looked into
    have on := h.brackets hm st ho
    have obeys (hu : .tiling ∉ st) :
        op.operation ≠ .shade ∧ (¬Executed.Loses ⟨op, n.toMoment, k.toMoment⟩ ∨ k.Placed) :=
      hobey ⟨op, n.toMoment, k.toMoment⟩ (.inl rfl) fun ht => (outside_levels _).mpr hu ((inTiling_iff on).mp ht)
    have hn := ih hm (fun e he => hobey e (.inr (h'.executed_mono e he))) st ho hg
    have hk := ih' (sound_of_same (h.sound hm) rfl rfl rfl) (fun e he => hobey e (.inr he)) st on
      (fun hu => (obeys hu).1)
      (fun hu hop hq => (obeys hu).2.imp_left fun hl lost =>
        hl ⟨hop, (OpHistory.previous_push _ _).symm.trans hq, lost⟩)
      (hn.congr id (fun _ he => he) rfl rfl rfl)
    exact hk.record op hn.good on

end Draws

/-! ## Pages -/

omit [Scalar α] in
theorem not_mem_replicate_level (k : Nat) : Bracket.tiling ∉ List.replicate k Bracket.level := by
  rw [List.mem_replicate]
  exact fun h => nomatch h.2

namespace Machine

/-- A machine between two contents of a page. -/
def Fitted (m : Machine α) : Prop :=
  m.Rests ∧ ((∀ e, m.executed e → Obeys e) → Settled (List.replicate m.restoreFloor .level) m)

theorem pageLevel_good [Exact α] (env : Environment α) (p : PageParams α) : Good [.level] (pageLevel env p) where
  faithful := ⟨fun _ _ hs => (nomatch hs), fun _ _ hs => (nomatch hs), fun _ _ hs => (nomatch hs), trivial⟩
  executed _ he := he.elim
  fits _ := by
    refine ⟨List.cons_ne_nil _ _, ?_⟩
    show Affine.identity.mul (Affine.identity.mul (pageScale.mul p.frame.1)) = _
    rw [Affine.identity_mul, Affine.identity_mul]
    rfl

theorem startPage_fitted [Exact α] {env : Environment α} (henv : env.builder.transform = innermost) (p : PageParams α) :
    Fitted (opening env (.page p)) := by
  refine ⟨opening_rests env (.page p), fun hobey => ?_⟩
  obtain ⟨m, h, hp⟩ := startPage_draws env p
  rw [opening, hp] at hobey ⊢
  have hm : Good [.level] m := h.fitting henv (pageLevel_sound env p) hobey _ rfl (pageLevel_good env p)
  refine ⟨hm.congr (fun _ => not_mem_replicate_level 1) id (fun _ he => he) rfl rfl, fun _ => ?_⟩
  rw [own_eq_nil rfl]
  trivial

theorem Fitted.draws [Exact α] {env : Environment α} (henv : env.builder.transform = innermost) {m n : Machine α}
    (h : Draws env .content m n) (hm : m.Fitted) : n.Fitted := by
  obtain ⟨hr, hg⟩ := hm
  refine ⟨hr.draws h, fun hobey => ?_⟩
  have settled := hg fun e he => hobey e (h.executed_mono e he)
  have floor : n.restoreFloor = m.restoreFloor := Moment.floor_of_around (h.frames hr.1.resources).1
  rw [floor]
  exact h.fitting henv hr.1 hobey _ hr.2 settled

end Machine

/-- What is faithful holds at every call. -/
theorem Faithful.at_call {c : Call α} {earlier : Log α} (hu : ¬InTiling earlier) :
    ∀ log : Log α, Faithful log → .call c :: earlier <:+ log →
      ∀ s ∈ c.state?, placement (openLevels earlier) = pageScale.mul s.ctm
  | [], _, hc => absurd (List.suffix_nil.mp hc) (List.cons_ne_nil _ _)
  | .report _ :: log, h, hc => by
    rcases List.suffix_cons_iff.mp hc with hc | hc
    · cases hc
    · exact at_call hu log h hc
  | .call _ :: log, h, hc => by
    rcases List.suffix_cons_iff.mp hc with hc | hc
    · cases hc
      exact h.1 hu
    · exact at_call hu log h.2 hc

theorem Machine.finish_faithful {m : Machine α} (h : Faithful m.log) : Faithful m.finish.log := by
  have kept (m : Machine α) : Faithful m.restoreState.log = Faithful m.log := by
    unfold Machine.restoreState
    split
    · rfl
    · exact propext ⟨fun h => h.2, fun h => ⟨fun _ _ hs => (nomatch hs), h⟩⟩
  exact (restoreTo_eq (f := fun m => Faithful m.log) kept 0 m).mpr h

namespace Machine

theorem session_good [Exact α] {env : Environment α} (henv : env.builder.transform = innermost) (p : PageParams α)
    (requests : List Request) (hobey : ∀ e, (session env (.page p) requests).executed e → Obeys e) :
    ∃ st, Good st (session env (.page p) requests) := by
  have fitted : Fitted (session env (.page p) requests) :=
    session_induction (startPage_fitted henv p) (fun _ _ h hm => hm.draws henv h)
      (fun _ _ _ _ hm => ⟨⟨sound_of_same hm.1.1 rfl rfl rfl, hm.1.2⟩, fun hobey =>
        (hm.2 hobey).congr id (fun _ he => he) rfl rfl rfl⟩) requests
  exact ⟨_, (fitted.2 hobey).good⟩

/-- Between two moments that are placed nothing was lost. -/
theorem not_lost_of_placed [Exact α] {m n : Moment α} (hm : m.Placed) (hn : n.Placed) : ¬m.Lost n := by
  rintro ⟨t, -, hc, hp⟩
  refine hp ?_
  rw [hn, hm, hc, Affine.mul_assoc]

/-- **The groups of the builder follow the coordinate system exactly if nothing gets lost**: on a page without shading
operators, and outside of tilings, every operator leaves the product of the open groups where the state is if and only
if no change of the coordinate system loses the transform of a group, and then every call with a state is told under the
groups that place things where this state does. -/
theorem page_placement [Exact α] (env : Environment α) (henv : env.builder.transform = innermost) (p : PageParams α)
    (requests : List Request)
    (hshade : ∀ e, (session env (.page p) requests).executed e → e.operator.operation ≠ .shade) :
    ((∀ e, (session env (.page p) requests).executed e → ¬InTiling e.before.log → ¬e.Loses) ↔
      ∀ e, (session env (.page p) requests).executed e → ¬InTiling e.before.log → e.after.Placed) ∧
    ((∀ e, (session env (.page p) requests).executed e → ¬InTiling e.before.log → ¬e.Loses) →
      ∀ c earlier, .call c :: earlier <:+ (session env (.page p) requests).finish.log → ¬InTiling earlier →
        ∀ s ∈ c.state?, placement (openLevels earlier) = pageScale.mul s.ctm) := by
  refine ⟨⟨fun hl e he hu => ?_, fun hp e he hu => ?_⟩, fun hl c earlier hc hu => ?_⟩
  · obtain ⟨_, good⟩ := session_good henv p requests fun e he hu => ⟨hshade e he, .inl (hl e he hu)⟩
    exact (good.executed e he hu).2
  · obtain ⟨_, good⟩ := session_good henv p requests fun e he hu => ⟨hshade e he, .inr (hp e he hu)⟩
    exact fun hlost => not_lost_of_placed (good.executed e he hu).1 (good.executed e he hu).2 hlost.2.2
  · obtain ⟨_, good⟩ := session_good henv p requests fun e he hu => ⟨hshade e he, .inl (hl e he hu)⟩
    exact Faithful.at_call hu _ (finish_faithful good.faithful) hc

/-- A level that was just saved has nothing to lose. -/
theorem not_lost_of_saved [Exact α] {m n : Moment α} {log : Log α} (h : m.log = .call .save :: log) : ¬m.Lost n := by
  rintro ⟨t, hn, -, hp⟩
  refine hp ?_
  rw [hn, h]
  exact placement_set_fresh t (openLevels log)

def movingContent : Object := .stream ⟨.empty, Bytes.ofText "q 1 0 0 1 5 0 cm"⟩

theorem items_moving (st : Store) : ∃ a b c d e f : Thunk Nat,
    Content.items st (Bytes.ofText "q 1 0 0 1 5 0 cm") =
      [.command (Bytes.ofText "q") none, .operand (.num (.int 1)) a, .operand (.num (.int 0)) b,
        .operand (.num (.int 0)) c, .operand (.num (.int 1)) d, .operand (.num (.int 5)) e, .operand (.num (.int 0)) f,
        .command (Bytes.ofText "cm") none] :=
  ⟨_, _, _, _, _, _, Content.items_of_plain 10 rfl⟩

theorem executed_moving {env : Environment α} {m : Machine α} {e : Executed α}
    (he : (m.serve env (.content movingContent)).executed e) :
    m.executed e ∨ e.operator.operation = .save ∨
      e.operator.operation = .concat ∧ ∃ log, e.before.log = .call .save :: log := by
  obtain ⟨_, _, _, _, _, _, hi⟩ := items_moving env.store
  have drawn := congrArg (run env levels · m) hi
  rw [show m.serve env (.content movingContent) = _ from drawn] at he
  rcases he with rfl | he
  · exact .inr (.inr ⟨rfl, _, rfl⟩)
  rcases (congrFun (concat_executed env _ _) e).mp he with rfl | he
  · exact .inr (.inl rfl)
  · exact .inl he

/-- A page whose content saves the state and moves the coordinate system. -/
theorem moved_page_placed :
    let env : Environment Rat := ⟨.empty, { Builder.silent with transform := innermost }, true, .default⟩
    let m := session env (.page ⟨⟨0, 0, 100, 100⟩, 0, .empty, none⟩) [.content movingContent]
    env.builder.transform = innermost ∧ (∀ e, m.executed e → e.operator.operation ≠ .shade) ∧
      ∀ e, m.executed e → ¬InTiling e.before.log → e.after.Placed := by
  intro env m
  have executed (e : Executed Rat) (he : m.executed e) : e.operator.operation = .save ∨
      e.operator.operation = .concat ∧ ∃ log, e.before.log = .call .save :: log :=
    (executed_moving he).resolve_left fun he => he
  have hshade (e : Executed Rat) (he : m.executed e) : e.operator.operation ≠ .shade := by
    rcases executed e he with h | ⟨h, -⟩ <;> exact h ▸ nofun
  refine ⟨rfl, hshade, (page_placement env rfl _ _ hshade).1.mp fun e he _ hlost => ?_⟩
  rcases executed e he with h | ⟨-, log, h⟩
  · exact nomatch h.symm.trans hlost.1
  · exact not_lost_of_saved h hlost.2.2

end Machine

end PdfContent
