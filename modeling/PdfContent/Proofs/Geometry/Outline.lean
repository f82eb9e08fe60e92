import PdfContent.Geometry.Path
/-!
# Outline — the path under construction is known from its steps

An outline is put together again from its steps whenever a state is restored.  Whatever was drawn before, closed
subpaths, subpaths that go on after they were closed and moves without a segment included, this gives back its current
point and where its last subpath began (`Restorable`).
-/
namespace PdfContent.Outline

variable {α : Type} [Scalar α] {o o' : Outline α}

/-- The outline with another step as it stands. -/
def append (o : Outline α) (s : PathStep α) : Outline α :=
  match s with
  | .move p => ⟨s :: o.reversed, some p, p⟩
  | .line p | .quad _ p | .curve _ _ p => ⟨s :: o.reversed, some p, o.start⟩
  | .close => ⟨s :: o.reversed, some o.start, o.start⟩

omit [Scalar α] in
@[simp] theorem append_reversed (o : Outline α) (s : PathStep α) : (o.append s).reversed = s :: o.reversed := by
  cases s <;> rfl

theorem ofPath_concat (path : Path α) (s : PathStep α) : ofPath (path ++ [s]) = (ofPath path).append s := by
  unfold ofPath
  rw [List.foldl_append]
  cases s <;> rfl

omit [Scalar α] in
theorem reversed_foldl {f : Outline α → PathStep α → Outline α} (hf : ∀ o s, (f o s).reversed = s :: o.reversed)
    (path : Path α) (o : Outline α) : (path.foldl f o).reversed = path.reverse ++ o.reversed := by
  induction path generalizing o with
  | nil => rfl
  | cons s path ih => rw [List.foldl_cons, ih, hf, List.reverse_cons, List.append_assoc, List.singleton_append]

@[simp] theorem ofPath_reversed (path : Path α) : (ofPath path).reversed = path.reverse :=
  (reversed_foldl (fun _ s => by cases s <;> rfl) path empty).trans (List.append_nil _)

theorem path_ofPath (path : Path α) : (ofPath path).path = path := by
  rw [Outline.path, ofPath_reversed, List.reverse_reverse]

omit [Scalar α] in
theorem move_eq (o : Outline α) (p : Point α) : ∃ r, o.move p = ⟨.move p :: r, some p, p⟩ := by
  unfold move
  split
  case h_1 r _ => exact ⟨r, rfl⟩
  case h_2 => exact ⟨o.reversed, rfl⟩

/-- Put together again from its steps, the outline is what it was. -/
def Restorable (o : Outline α) : Prop := ofPath o.path = o

namespace Restorable

theorem empty : (empty : Outline α).Restorable := rfl

theorem ofPath (path : Path α) : (Outline.ofPath path).Restorable := congrArg Outline.ofPath (path_ofPath path)

theorem append (h : o.Restorable) (s : PathStep α) : (o.append s).Restorable := by
  unfold Restorable Outline.path at *
  rw [append_reversed, List.reverse_cons, ofPath_concat, h]

/-- A step that was put at the end says where the outline is. -/
theorem eq_append (h : o.Restorable) {s : PathStep α} {r : List (PathStep α)} (hr : o.reversed = s :: r) :
    o = (Outline.ofPath r.reverse).append s := by
  have built : Outline.ofPath (s :: r).reverse = o := hr ▸ h
  rw [← built, List.reverse_cons, ofPath_concat]

theorem move (h : o.Restorable) (p : Point α) : (o.move p).Restorable := by
  unfold Outline.move
  split
  case h_1 q r hr =>
    have replaced : (⟨.move p :: r, some p, p⟩ : Outline α) = (Outline.ofPath r.reverse).append (.move p) := by
      simp only [Outline.append, ofPath_reversed, List.reverse_reverse]
    exact replaced ▸ (ofPath r.reverse).append _
  case h_2 => exact h.append (.move p)

/-- What a segment is put behind. -/
theorem reopen (h : o.Restorable) :
    ∃ k : Outline α, k.Restorable ∧ k.reversed = o.reopen ∧ k.start = o.start := by
  unfold Outline.reopen
  split
  case h_1 r hr => exact ⟨o.append (.move o.start), h.append _, by rw [append_reversed, hr], rfl⟩
  case h_2 => exact ⟨o, h, rfl, rfl⟩

theorem line? (h : o.Restorable) {p : Point α} (ho : o.line? p = some o') : o'.Restorable := by
  obtain ⟨k, hk, hr, hs⟩ := h.reopen
  obtain ⟨_, -, rfl⟩ := Option.map_eq_some_iff.mp ho
  have built : ({ o with reversed := .line p :: o.reopen, current := some p } : Outline α) = k.append (.line p) := by
    rw [Outline.append, hr, hs]
  exact built ▸ hk.append _

theorem curve? (h : o.Restorable) {p₁ p₂ p : Point α} (ho : o.curve? p₁ p₂ p = some o') : o'.Restorable := by
  obtain ⟨k, hk, hr, hs⟩ := h.reopen
  obtain ⟨_, -, rfl⟩ := Option.map_eq_some_iff.mp ho
  have built : ({ o with reversed := .curve p₁ p₂ p :: o.reopen, current := some p } : Outline α) =
      k.append (.curve p₁ p₂ p) := by rw [Outline.append, hr, hs]
  exact built ▸ hk.append _

/-- After a move or a close the current point is already where the subpath began. -/
theorem close? (h : o.Restorable) (ho : o.close? = some o') : o'.Restorable := by
  obtain ⟨_, -, rfl⟩ := Option.map_eq_some_iff.mp ho
  split
  case h_1 r hr =>
    have back : ({ o with current := some o.start } : Outline α) = o := by rw [h.eq_append hr]; rfl
    exact back ▸ h
  case h_2 q r hr =>
    have back : ({ o with current := some o.start } : Outline α) = o := by rw [h.eq_append hr]; rfl
    exact back ▸ h
  case h_3 => exact h.append .close

/-- Without a current point there is nothing to close. -/
theorem closed (h : o.Restorable) : (o.close?.getD o).Restorable := by
  cases ho : o.close? with
  | none => exact h
  | some o' => exact h.close? ho

theorem rect (h : o.Restorable) (r : Rect α) : (o.rect r).Restorable := by
  have moved := h.move ⟨r.x0, r.y0⟩
  obtain ⟨steps, hm⟩ := o.move_eq ⟨r.x0, r.y0⟩
  unfold Outline.rect
  rw [hm] at moved ⊢
  exact (((moved.append (.line ⟨r.x1, r.y0⟩)).append (.line ⟨r.x1, r.y1⟩)).append (.line ⟨r.x0, r.y1⟩)).append .close

end Restorable

end PdfContent.Outline
