import Mathlib.Algebra.Order.Field.Basic
import Mathlib.Data.Set.Basic
import Mathlib.Tactic.Linarith
import PdfContent.Proofs.Geometry.Rational
/-!
# Rectangle — rectangles in exact coordinates as sets of points

A rectangle is the set of the points between its corners (`region`).  What two rectangles have in common is a rectangle
with an area exactly if they share inner points, and then it consists of the points of both (`region_intersect`).
-/
namespace PdfContent

open Scalar

/-- Without a NaN the lesser number is the minimum. -/
theorem Scalar.min_eq (x y : Rat) : Scalar.min x y = Min.min x y := by
  simp only [Scalar.min, isNaN, Scalar.eq, Scalar.le, beq_self_eq_true, Bool.not_true, Bool.false_or, decide_eq_true_eq]
  split
  · rename_i h
    exact (min_eq_right h).symm
  · rename_i h
    exact (min_eq_left (le_of_not_ge h)).symm

theorem Scalar.max_eq (x y : Rat) : Scalar.max x y = Max.max x y := by
  simp only [Scalar.max, isNaN, Scalar.eq, Scalar.le, beq_self_eq_true, Bool.not_true, Bool.false_or, decide_eq_true_eq]
  split
  · rename_i h
    exact (max_eq_right h).symm
  · rename_i h
    exact (max_eq_left (le_of_not_ge h)).symm

namespace Rect

def region (r : Rect Rat) : Set (Point Rat) := {p | r.x0 ≤ p.x ∧ p.x ≤ r.x1 ∧ r.y0 ≤ p.y ∧ p.y ≤ r.y1}

def interior (r : Rect Rat) : Set (Point Rat) := {p | r.x0 < p.x ∧ p.x < r.x1 ∧ r.y0 < p.y ∧ p.y < r.y1}

structure Proper (r : Rect Rat) : Prop where
  x : r.x0 < r.x1
  y : r.y0 < r.y1

/-- The corners are in order. -/
structure Ordered (r : Rect Rat) : Prop where
  x : r.x0 ≤ r.x1
  y : r.y0 ≤ r.y1

variable {r s : Rect Rat}

theorem normalize_ordered (r : Rect Rat) : r.normalize.Ordered := by
  simp only [normalize, min_eq, max_eq]
  exact ⟨min_le_max, min_le_max⟩

theorem Proper.area_pos (h : r.Proper) : 0 < r.area := mul_pos (sub_pos.mpr h.x) (sub_pos.mpr h.y)

theorem Ordered.area_nonneg (h : r.Ordered) : 0 ≤ r.area := mul_nonneg (sub_nonneg.mpr h.x) (sub_nonneg.mpr h.y)

/-- A rectangle with its corners in order has an area only if it has an inside. -/
theorem Ordered.area_pos_iff (h : r.Ordered) : 0 < r.area ↔ r.Proper := by
  refine ⟨fun pos => ?_, Proper.area_pos⟩
  have width : 0 ≤ r.x1 - r.x0 := sub_nonneg.mpr h.x
  have height : 0 ≤ r.y1 - r.y0 := sub_nonneg.mpr h.y
  exact ⟨sub_pos.mp (pos_of_mul_pos_left pos height), sub_pos.mp (pos_of_mul_pos_right pos width)⟩

theorem intersect_ordered (r s : Rect Rat) : (r.intersect s).Ordered := by
  simp only [intersect, max_eq]
  exact ⟨le_max_right _ _, le_max_right _ _⟩

theorem intersect_proper_iff :
    (r.intersect s).Proper ↔ Max.max r.x0 s.x0 < Min.min r.x1 s.x1 ∧ Max.max r.y0 s.y0 < Min.min r.y1 s.y1 := by
  have grows (low high : Rat) : low < Max.max high low ↔ low < high := by simp
  simp only [intersect, max_eq, min_eq]
  exact ⟨fun h => ⟨(grows _ _).mp h.x, (grows _ _).mp h.y⟩, fun h => ⟨(grows _ _).mpr h.1, (grows _ _).mpr h.2⟩⟩

/-- Two rectangles have an area in common exactly if they have inner points in common. -/
theorem intersect_proper_iff_nonempty : (r.intersect s).Proper ↔ (r.interior ∩ s.interior).Nonempty := by
  rw [intersect_proper_iff]
  constructor
  · rintro ⟨hx, hy⟩
    obtain ⟨x, left, right⟩ := exists_between hx
    obtain ⟨y, bottom, top⟩ := exists_between hy
    rw [max_lt_iff] at left bottom
    rw [lt_min_iff] at right top
    exact ⟨⟨x, y⟩, ⟨left.1, right.1, bottom.1, top.1⟩, ⟨left.2, right.2, bottom.2, top.2⟩⟩
  · rintro ⟨p, ⟨left, right, bottom, top⟩, ⟨left', right', bottom', top'⟩⟩
    exact ⟨(max_lt left left').trans (lt_min right right'), (max_lt bottom bottom').trans (lt_min top top')⟩

/-- What two rectangles have in common are the points of both. -/
theorem region_intersect (h : (r.intersect s).Proper) : (r.intersect s).region = r.region ∩ s.region := by
  obtain ⟨hx, hy⟩ := intersect_proper_iff.mp h
  ext p
  simp only [region, intersect, max_eq, min_eq, max_eq_left hx.le, max_eq_left hy.le, Set.mem_ofPred_eq, Set.mem_inter_iff,
    max_le_iff, le_min_iff]
  tauto

end Rect

end PdfContent
