import PdfContent.Proofs.Drawing.Brackets
/-!
# Levels — the groups that are open at the builder, and their transforms

A level is opened by saving or by a tiling; it starts with one group, more are started inside of it, and all of them end
with it.  A stretch of a drawing leaves every level but its own as it was, and unless it moves the coordinate system,
that one too.
-/
namespace PdfContent

/-- The groups of a level, each with the transform that was set on it: the innermost one, and those around it from the
inside out. -/
structure Level (α : Type) where
  inner : Option (Affine α)
  outer : List (Option (Affine α))

namespace Level

variable {α : Type}

/-- A level with a single group, which has no transform yet. -/
def fresh : Level α := ⟨none, []⟩

def push (l : Level α) : Level α := ⟨none, l.inner :: l.outer⟩

def set (t : Affine α) (l : Level α) : Level α := { l with inner := some t }

end Level

def Call.levels {α : Type} : Call α → List (Level α) → List (Level α)
  | .save, ls | .pushTiling .., ls => .fresh :: ls
  | .restore, ls | .popTiling, ls => ls.tail
  | .pushGroup, l :: ls => l.push :: ls
  | .setTransform t, l :: ls => l.set t :: ls
  | _, ls => ls

def openLevels {α : Type} : Log α → List (Level α)
  | [] => []
  | .report _ :: log => openLevels log
  | .call c :: log => c.levels (openLevels log)

section

variable {α : Type} {log : Log α}

theorem Call.Plain.levels {s : State α} {c : Call α} (h : c.Plain s) (ls : List (Level α)) : c.levels ls = ls := by
  obtain ⟨hp, -⟩ := h
  cases c <;> first | rfl | cases hp

theorem levels_pushGroup {l : Level α} {r : List (Level α)} (h : openLevels log = l :: r) :
    openLevels (.call .pushGroup :: log) = l.push :: r := by
  rw [openLevels, h]
  rfl

theorem levels_setTransform (t : Affine α) {l : Level α} {r : List (Level α)} (h : openLevels log = l :: r) :
    openLevels (.call (.setTransform t) :: log) = l.set t :: r := by
  rw [openLevels, h]
  rfl

end

/-- One level for content and one for each state that it has saved, all on top of `r`. -/
def LevelsAbove {α : Type} (r : List (Level α)) (k : Nat) (log : Log α) : Prop :=
  ∃ ls, ls.length = k + 1 ∧ openLevels log = ls ++ r

theorem levelsAbove_stacking {α : Type} (r : List (Level α)) : Stacking (LevelsAbove r) where
  save := fun ⟨ls, hl, h⟩ => ⟨.fresh :: ls, congrArg (· + 1) hl, congrArg (Level.fresh :: ·) h⟩
  restore := fun ⟨ls, hl, h⟩ => ⟨ls.tail, by rw [List.length_tail, hl]; rfl, by
    rw [openLevels, h, Call.levels, List.tail_append_of_ne_nil (List.ne_nil_of_length_eq_add_one hl)]⟩
  report := fun _ h => h

/-- Only the innermost level may have changed. -/
theorem LevelsAbove.of_top {α : Type} {r : List (Level α)} {k : Nat} {log log' : Log α}
    (h : ∀ g r, openLevels log = g :: r → ∃ g', openLevels log' = g' :: r) (hk : LevelsAbove r k log) :
    LevelsAbove r k log' := by
  obtain ⟨ls, hl, hg⟩ := hk
  obtain ⟨g, ls, rfl⟩ := List.exists_cons_of_length_eq_add_one hl
  obtain ⟨g', hg'⟩ := h g (ls ++ r) hg
  exact ⟨g' :: ls, hl, hg'⟩

namespace Machine

variable {α : Type} [Scalar α]

/-- What a stretch of a drawing does to the open levels. -/
def Leveled : Span → Machine α → Machine α → Prop
  | .part false, m, n => openLevels n.log = openLevels m.log ∧ n.state.ctm = m.state.ctm
  | .part true, m, n | .fresh, m, n => ∀ g r, openLevels m.log = g :: r → ∃ g', openLevels n.log = g' :: r
  | .operator _, m, n | .content, m, n => ∀ r, Stacks (LevelsAbove r) m → Stacks (LevelsAbove r) n

omit [Scalar α] in
theorem Leveled.still {m n : Machine α} {b : Bool} (hl : openLevels n.log = openLevels m.log)
    (hc : n.state.ctm = m.state.ctm) : Leveled (.part b) m n := by
  cases b with
  | false => exact ⟨hl, hc⟩
  | true => exact fun g r h => ⟨g, hl.trans h⟩

omit [Scalar α] in
theorem Leveled.trans {m n k : Machine α} {b : Bool} (h : Leveled (.part b) m n) (h' : Leveled (.part b) n k) :
    Leveled (.part b) m k := by
  cases b with
  | false => exact ⟨h'.1.trans h.1, h'.2.trans h.2⟩
  | true =>
    intro g r hg
    obtain ⟨g', hn⟩ := h g r hg
    exact h' g' r hn

omit [Scalar α] in
/-- Only the log and the coordinate system count. -/
theorem Leveled.congr {m n m' n' : Machine α} {b : Bool} (h : Leveled (.part b) m n)
    (hm : openLevels m'.log = openLevels m.log) (hmc : m'.state.ctm = m.state.ctm)
    (hn : openLevels n'.log = openLevels n.log) (hnc : n'.state.ctm = n.state.ctm) : Leveled (.part b) m' n' :=
  (Leveled.still hm.symm hmc.symm).trans (h.trans (.still hn hnc))

/-- A change of the coordinate system only touches the innermost level. -/
theorem concat_levels (env : Environment α) (t : Affine α) (m : Machine α) :
    ∀ g r, openLevels m.log = g :: r → ∃ g', openLevels (m.concat env t).log = g' :: r := by
  intro g r hg
  unfold concat
  dsimp only
  split
  · exact ⟨_, levels_setTransform t hg⟩
  split
  · exact ⟨_, levels_setTransform _ hg⟩
  · exact ⟨_, levels_setTransform t (levels_pushGroup hg)⟩

end Machine

namespace Draws

open Machine

variable {α : Type} [Scalar α] {env : Environment α} {p : Span} {m n : Machine α}

/-- **Every stretch of a drawing leaves the levels around it as they were.** -/
theorem leveled (h : Draws env p m n) : m.Sound → Leveled p m n := by
  induction h with
  | refl | report | clip | note | font | announce | char | mask | unmask => exact fun _ => .still rfl rfl
  | restyle _ h _ => exact fun _ => .still rfl (congrArg Prod.fst h)
  | tell h => exact fun _ => .still (h.levels _) rfl
  | trans h _ ih ih' => exact fun hm => (ih hm).trans (ih' (h.sound hm))
  | @resources b _ n _ _ ih =>
    intro hm
    obtain ⟨_, hp⟩ := popResources_eq n
    rw [hp]
    exact (ih ⟨List.cons_ne_nil _ _, hm.depth, hm.floor, hm.base⟩).congr rfl rfl rfl rfl
  | string _ _ ih | nesting _ ih =>
    exact fun hm => (ih ⟨hm.resources, hm.depth, hm.floor, hm.base⟩).congr rfl rfl rfl rfl
  | @tiling b m n told t part seed h ih =>
    intro _
    have hc := cellOf_sound env t seed (m.tell (.pushTiling told part))
    have ha := cellOf_above env t seed (m.tell (.pushTiling told part))
    have hl : Stacks (LevelsAbove (openLevels m.log)) (cellOf env t seed (m.tell (.pushTiling told part))) :=
      cellOf_stacks env t seed ⟨[.fresh], rfl, rfl⟩
    obtain ⟨ls, hn, hg⟩ := (ih hc _ hl).restoreTo (levelsAbove_stacking _) ((h.frames hc.resources).2 _ _ ha)
    obtain ⟨g, rfl⟩ := List.length_eq_one_iff.mp hn
    exact .still (congrArg List.tail hg) rfl
  | @level b m n h ih =>
    intro hm
    obtain ⟨hf, hs, hc⟩ := h.frames hm.resources
    obtain ⟨g, hg⟩ := ih (save_sound hm) .fresh (openLevels m.log) rfl
    rw [restoreState_of_save hs hc]
    exact .still (congrArg List.tail hg) rfl
  | start h _ ih ih' =>
    intro hm g r hg
    exact ih' (h.sound hm) g r ((ih hm).1.trans hg)
  | place t _ ih =>
    intro hm g r hg
    exact ih ⟨hm.resources, hm.depth, hm.floor, hm.base⟩ _ r (levels_setTransform t hg)
  | unplaced _ ih => exact ih
  | transparency _ _ ih => exact fun hm g r hg => ih ⟨hm.resources, hm.depth, hm.floor, hm.base⟩ g r hg
  | group t m => exact fun _ g r hg => ⟨_, levels_setTransform t (levels_pushGroup hg)⟩
  | glyph _ ih | base _ _ ih => exact fun hm => ih ⟨hm.resources, hm.depth, hm.floor, hm.base⟩
  | @nested m n h ih =>
    intro hm g r hg
    have hl : Stacks (LevelsAbove r) { m with restoreFloor := m.saved.length } := raised_stacks ⟨[g], rfl, hg⟩
    obtain ⟨ls, hn, hg'⟩ :=
      (ih (raised_sound hm) r hl).restoreTo (levelsAbove_stacking r) ((h.frames hm.resources).2 _ _ (.refl m))
    obtain ⟨g', rfl⟩ := List.length_eq_one_iff.mp hn
    exact ⟨g', hg'⟩
  | effect _ h ih =>
    intro hm r hl
    obtain ⟨hf, hs, -⟩ := h.frames hm.resources
    exact hl.of_same hf hs fun k ⟨ls, hn, hg⟩ => ⟨ls, hn, (ih hm).1.trans hg⟩
  | save m => exact fun hm r hl => hl.save (levelsAbove_stacking r) hm
  | restore m => exact fun _ r hl => hl.restore (levelsAbove_stacking r)
  | concat t m =>
    obtain ⟨hf, hs, -⟩ := concat_same env t m
    exact fun _ r hl => hl.of_same hf hs fun k => .of_top (concat_levels env t m)
  | shade h h' ih ih' =>
    intro hm r hl
    -- only the transform of the innermost group is lost
    obtain ⟨hf, hs, -⟩ := h.frames hm.resources
    obtain ⟨hf', hs', -⟩ := h'.frames (resources_of_around hf hm.resources)
    refine hl.of_same (hf'.trans hf) (hs'.trans hs) fun k => .of_top fun g r hg => ?_
    have placed := levels_setTransform .identity ((ih hm).1.trans hg)
    exact ⟨_, (ih' (sound_of_same (h.sound hm) rfl rfl rfl)).1.trans placed⟩
  | nothing => exact fun _ _ h => h
  | fault _ _ ih => exact fun hm r h => ih hm r h
  | perform op h h' ih ih' => exact fun hm r hr => ih' (sound_of_same (h.sound hm) rfl rfl rfl) r (ih hm r hr)

end Draws

end PdfContent
