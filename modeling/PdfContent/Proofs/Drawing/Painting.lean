import PdfContent.Proofs.Drawing.Draws
/-!
# Painting — the operators on colors, paths and images as moves

Each function that such an operator is made of is a stretch of moves, given that nested content is (`inner`).
-/
namespace PdfContent

theorem State.basis_setInk {α : Type} (s : State α) (ink : Ink α) (part : Part) :
    (s.setInk ink part).basis = s.basis := by
  cases part <;> rfl

theorem State.outline_setInk {α : Type} (s : State α) (ink : Ink α) (part : Part) :
    (s.setInk ink part).outline = s.outline := by
  cases part <;> rfl

namespace Draws

open Machine

variable {α : Type} [Scalar α] {env : Environment α} {b : Bool}

theorem tellState {c : State α → Call α} {m : Machine α} (h : (c m.state).isPlain = true)
    (hs : (c m.state).state? = some m.state) : Draws env (.part b) m (m.tellState c) :=
  .tell (.of_some h hs)

theorem modifyState {f : State α → State α} {m : Machine α} (h : (f m.state).basis = m.state.basis)
    (ho : m.state.outline.Restorable → (f m.state).outline.Restorable) : Draws env (.part b) m (m.modifyState f) :=
  .restyle (f m.state) h ho

theorem setInk (ink : State α → Ink α) (part : Part) (m : Machine α) :
    Draws env (.part b) m (m.modifyState fun s => s.setInk (ink s) part) :=
  modifyState (State.basis_setInk ..) fun ho => by rw [State.outline_setInk]; exact ho

theorem setOutline {o : Outline α} {m : Machine α} (ho : m.state.outline.Restorable → o.Restorable) :
    Draws env (.part b) m (m.setOutline o) :=
  modifyState rfl ho

theorem clearPath (m : Machine α) : Draws env (.part b) m m.clearPath := setOutline fun _ => .empty

theorem addRect (r : Rect α) (m : Machine α) : Draws env (.part b) m (m.addRect r) := setOutline fun ho => ho.rect r

/-- Moves that depend on something and preserve it. -/
theorem foldl_while {β : Type} {f : Machine α → β → Machine α} {r : Machine α → Prop}
    (h : ∀ m x, r m → Draws env (.part b) m (f m x) ∧ r (f m x)) :
    ∀ (xs : List β) (m : Machine α), r m → Draws env (.part b) m (xs.foldl f m) ∧ r (xs.foldl f m)
  | [], m, hm => ⟨.refl m, hm⟩
  | x :: xs, m, hm => by
    obtain ⟨hd, hr⟩ := h m x hm
    obtain ⟨hds, hrs⟩ := foldl_while h xs (f m x) hr
    exact ⟨hd.trans hds, hrs⟩

theorem foldl {β : Type} {f : Machine α → β → Machine α} (h : ∀ m x, Draws env (.part b) m (f m x)) (xs : List β)
    (m : Machine α) : Draws env (.part b) m (xs.foldl f m) :=
  (foldl_while (r := fun _ => True) (fun m x _ => ⟨h m x, trivial⟩) xs m trivial).1

theorem branch {p : Span} {c : Prop} [Decidable c] {m n k : Machine α} (h : c → Draws env p m n)
    (h' : ¬c → Draws env p m k) : Draws env p m (if c then n else k) := by
  split
  · exact h ‹_›
  · exact h' ‹_›

theorem reportAll (ds : List Diagnostic) (m : Machine α) : Draws env (.part b) m (m.reportAll ds) :=
  foldl (fun m d => .report d m) ds m

theorem withSome {β : Type} {f : β → Machine α → Machine α} (v : Option β) (m : Machine α)
    (h : ∀ x, Draws env (.part b) m (f x m)) : Draws env (.part b) m (m.withSome v f) := by
  cases v with
  | none => exact .refl m
  | some x => exact h x

theorem withChecked {β : Type} {f : β → Machine α → Machine α} (v : Checked β) (m : Machine α)
    (h : ∀ x, Draws env (.part b) m (f x m)) : Draws env (.part b) m (m.withChecked v f) := by
  cases v with
  | ok x => exact h x
  | error p => exact .report _ m

theorem takeAll_while {β : Type} {f : Machine α → β → Machine α} {r : Machine α → Prop} (values : Emission β)
    {m : Machine α} (hm : r m) (h : ∀ m x, r m → Draws env (.part b) m (f m x) ∧ r (f m x))
    (hr : ∀ m d, r m → r (m.report d)) :
    Draws env (.part b) m (m.takeAll f values) ∧ r (m.takeAll f values) :=
  takeAll_keeps (p := fun n => Draws env (.part b) m n ∧ r n) values ⟨.refl m, hm⟩
    (fun n ⟨drawn, kept⟩ x _ => ⟨drawn.trans (h n x kept).1, (h n x kept).2⟩)
    fun n d ⟨drawn, kept⟩ => ⟨drawn.trans (.report d n), hr n d kept⟩

theorem takeAll {β : Type} {f : Machine α → β → Machine α} (values : Emission β) (m : Machine α)
    (h : ∀ m x, Draws env (.part b) m (f m x)) : Draws env (.part b) m (m.takeAll f values) :=
  (takeAll_while (r := fun _ => True) values trivial (fun m x _ => ⟨h m x, trivial⟩) fun _ _ _ => trivial).1

theorem requireResource {category name : Name} {label : String} {m n : Machine α} {o : Option Object}
    (h : m.requireResource env.store category label name = (o, n)) : Draws env (.part b) m n := by
  unfold Machine.requireResource at h
  split at h
  · cases h; exact .refl m
  · cases h; exact .report _ m

/-! ## Colors -/

theorem select (part : Part) (space : ColorSpace) (color : Color) (pattern : Option (Pattern α)) (m : Machine α) :
    Draws env (.part b) m (m.select part space color pattern) :=
  (setInk _ part m).trans (tellState rfl rfl)

theorem setColorSpace (part : Part) (name : Name) (m : Machine α) :
    Draws env (.part b) m (m.setColorSpace env part name) := by
  have cleared : Draws env (.part b) m (m.modifyState fun s => s.setInk { s.ink part with pattern := none } part) :=
    setInk _ part m
  unfold Machine.setColorSpace
  dsimp only
  split
  · exact cleared.trans (withChecked _ _ fun _ => select part _ _ none _)
  · exact cleared.trans (.report _ _)

theorem setColor (part : Part) (op : String) (operands : List Object) (m : Machine α) :
    Draws env (.part b) m (m.setColor part op operands) := by
  unfold Machine.setColor
  dsimp only
  split
  · exact .report _ m
  · exact select part _ _ none m

theorem findPattern {name : Name} {m n : Machine α} {p : Option (Pattern α)}
    (h : m.findPattern env name = (p, n)) : Draws env (.part b) m n := by
  unfold Machine.findPattern at h
  split at h
  · rename_i hr
    cases h
    exact requireResource hr
  · rename_i hr
    split at h
    · cases h
      exact requireResource hr
    · cases h
      exact (requireResource hr).trans (.report _ _)

theorem setColorOrPattern (part : Part) (op : String) (operands : List Object) (m : Machine α) :
    Draws env (.part b) m (m.setColorOrPattern env part op operands) := by
  unfold Machine.setColorOrPattern
  dsimp only
  split
  · exact setColor part op operands m
  split
  · exact .report _ m
  split
  · exact (findPattern rfl).trans (select part _ _ _ _)
  · exact select part _ _ _ m

/-! ## Paints -/

section

variable {inner : Inner α} (hinner : ∀ items m, Draws env .content m (inner items m))
include hinner

theorem tilingPaint (t : Tiling α) (part : Part) (m : Machine α) :
    Draws env (.part b) m (m.tilingPaint env inner t part).2 := by
  unfold Machine.tilingPaint
  split
  · exact .refl m
  · exact .tiling _ t part _ (hinner _ _)

omit hinner in
theorem gradientPaint (s : Shading α) (matrix : Affine α) (m : Machine α) :
    Draws env (.part b) m (m.gradientPaint env s matrix).2 := by
  unfold Machine.gradientPaint
  split
  · exact .report _ m
  · exact .tell (.of_none _ rfl rfl)

theorem paintOf (part : Part) (m : Machine α) : Draws env (.part b) m (m.paintOf env inner part).2 := by
  unfold Machine.paintOf
  dsimp only
  split
  · exact .refl m
  split
  · exact .refl m
  · exact gradientPaint _ _ m
  · exact tilingPaint hinner _ part m

end

/-! ## Shadings by cells -/

theorem useSpaceOf (s : Shading α) (m : Machine α) : Draws env (.part b) m (m.useSpaceOf s) := modifyState rfl id

theorem fillCells (s : Shading α) (m : Machine α) : Draws env (.part b) m (m.fillCells s) :=
  takeAll _ m fun _ _ => (modifyState rfl fun _ => .ofPath _).trans ((tellState rfl rfl).trans (clearPath _))

theorem fillBackground (s : Shading α) (m : Machine α) : Draws env (.part b) m (m.fillBackground s) := by
  unfold Machine.fillBackground
  split
  · exact .refl m
  · exact (modifyState rfl id).trans (tellState rfl rfl)

theorem approximate (s : Shading α) (matrix : Affine α) (part : Part) (evenOdd : Bool) (m : Machine α) :
    Draws env (.part b) m (m.approximate s matrix part evenOdd) := by
  have clipped : Draws env (.part false) m.save
      (if part = .fill then m.save.tellState (.setClipPath · evenOdd) else m.save) :=
    .branch (fun _ => tellState rfl rfl) (fun _ => .refl _)
  have ready := clipped.trans ((useSpaceOf s _).trans ((fillBackground s _).trans (clearPath _)))
  have placed (k : Machine α) : Draws env .fresh k (Machine.fillCells s
      (if k.state.ctm.isInvertible then
        let t := (k.state.ctm.inverse.mul k.baseMatrix).mul matrix
        (k.multiply t).setTransform t
      else k)) := by
    split
    · exact .place _ (fillCells s _)
    · exact .unplaced (fillCells s _)
  exact .trans (.level (.start ready (placed _))) (setOutline fun _ => .ofPath _)

theorem approximatePattern (p : Pattern α) (part : Part) (evenOdd : Bool) (m : Machine α) :
    Draws env (.part b) m (m.approximatePattern p part evenOdd) := by
  cases p with
  | shading s matrix => exact approximate s matrix part evenOdd m
  | tiling t => exact .refl m

/-! ## Paths -/

section

variable {inner : Inner α} (hinner : ∀ items m, Draws env .content m (inner items m))
include hinner

theorem paintPart (part : Part) (approximated : Option (Pattern α)) (evenOdd : Bool) (m : Machine α) :
    Draws env (.part b) m (m.paintPart env inner part approximated evenOdd) := by
  unfold Machine.paintPart
  split
  · exact approximatePattern _ part evenOdd m
  · dsimp only
    split
    · exact paintOf hinner part m
    · refine (paintOf hinner part m).trans ?_
      cases part <;> exact tellState rfl rfl

theorem paintIf (part : Part) (wanted : Bool) (m : Machine α) :
    Draws env (.part b) m (if wanted then m.paintOf env inner part else (none, m)).2 := by
  split
  · exact paintOf hinner part m
  · exact .refl m

theorem paintBoth (how : PathPainting) (m : Machine α) :
    Draws env (.part b) m (m.paintBoth env inner how) := by
  unfold Machine.paintBoth
  exact (paintIf hinner .fill how.fill m).trans ((paintIf hinner .stroke how.stroke _).trans
    (.branch (fun _ => tellState rfl rfl) (fun _ => .refl _)))

theorem paintCurrent (how : PathPainting) (m : Machine α) :
    Draws env (.part b) m (m.paintCurrent env inner how) := by
  have one (part : Part) (wanted : Bool) (p : Option (Pattern α)) (m : Machine α) :
      Draws env (.part b) m (if wanted then m.paintPart env inner part p how.evenOdd else m) :=
    .branch (fun _ => paintPart hinner part p how.evenOdd m) (fun _ => .refl m)
  unfold Machine.paintCurrent
  exact .branch (fun _ => paintBoth hinner how m)
    (fun _ => (one .fill how.fill _ m).trans (one .stroke how.stroke _ _))

omit hinner in
theorem endPath (m : Machine α) : Draws env (.part b) m m.endPath := by
  unfold Machine.endPath
  refine .trans ?clipped ((clearPath _).trans (.note none _ _ _))
  split
  · split
    · exact .trans (tellState rfl rfl) (.clip _ _ _)
    · exact .refl m
  · exact .refl m

theorem paintPath (how : PathPainting) (m : Machine α) : Draws env (.part b) m (m.paintPath env inner how) := by
  unfold Machine.paintPath
  refine .branch (fun _ => .report _ m) (fun _ => ?_)
  have closed : Draws env (.part b) m
      (if how.close then m.setOutline (m.state.outline.close?.getD m.state.outline) else m) :=
    .branch (fun _ => setOutline fun ho => ho.closed) (fun _ => .refl m)
  exact closed.trans (.trans (.branch (fun _ => paintCurrent hinner how _) (fun _ => .refl _)) (endPath _))

end

/-! ## The shading operator -/

theorem clipToBounds (s : Shading α) {call : State α → Bool → Call α} (m : Machine α)
    (h : ∀ st, (call st false).isPlain = true) (hs : ∀ st, (call st false).state? = some st) :
    Draws env (.part b) m (m.clipToBounds s call) := by
  unfold Machine.clipToBounds
  split
  · exact .refl m
  · exact (addRect _ m).trans ((tellState (h _) (hs _)).trans (clearPath _))

theorem fillGradient (s : Shading α) (matrix : Option (Affine α)) (m : Machine α) :
    Draws env (.part b) m (m.fillGradient env s matrix) := by
  have asked (g : Gradient α) : Draws env (.part b) m (m.tell (.addGradient g true)) := .tell (.of_none _ rfl rfl)
  unfold Machine.fillGradient
  split
  · exact .refl m
  split
  · exact .report _ m
  · dsimp only
    split
    · exact (asked _).trans (.tell (.of_none _ rfl rfl))
    · exact asked _

theorem shadeCells (s : Shading α) (m : Machine α) : Draws env (.part b) m (m.shadeCells s) := by
  unfold Machine.shadeCells
  refine .trans (.level (.unplaced ?_)) (setOutline fun _ => .ofPath _)
  exact (clipToBounds s _ (fun _ => rfl) (fun _ => rfl)).trans ((useSpaceOf s _).trans (fillCells s _))

theorem shadeGradient (s : Shading α) {m n : Machine α} (h : Draws env (.part false) m n) :
    Draws env (.operator .shade) m (n.shadeGradient env s) := by
  unfold Machine.shadeGradient
  dsimp only
  generalize (if sawConcat n.history && n.clips.current.isSome then env.builder.transform n.log else none) = matrix
  have filled (k : Machine α) : Draws env (.part false) k ((k.clipToBounds s .clip).fillGradient env s matrix) :=
    (clipToBounds s k (fun _ => rfl) (fun _ => rfl)).trans (fillGradient s matrix _)
  split
  · exact .shade h (filled _)
  · exact .effect _ (h.trans (filled n))

theorem shading (name : Name) (m : Machine α) : Draws env (.operator .shade) m (m.shade env name) := by
  unfold Machine.shade
  split
  · rename_i hr
    exact .effect _ (requireResource hr)
  · rename_i hr
    split
    · exact .effect _ ((requireResource hr).trans (.report _ _))
    split
    · exact shadeGradient _ (requireResource hr)
    · exact .effect _ ((requireResource hr).trans (shadeCells _ _))

end Draws

end PdfContent
