import Mathlib.Algebra.BigOperators.Fin
import Mathlib.Algebra.Module.Prod
import Mathlib.Data.Nat.Choose.Basic
import Mathlib.Data.Rat.Cast.CharZero
import Mathlib.Data.Real.Basic
import Mathlib.Tactic.Module
import Mathlib.Tactic.NormNum
import PdfContent.Proofs.Geometry.Rational
import PdfContent.Shading.Tessellation
/-!
# Surface — the surface and the colors of a patch

The control points of a patch give its surface by Bernstein polynomials, and the colors of its corners those in between
by bilinear interpolation.  In exact numbers both are kept by splitting: each of the four parts has them as the patch has
them in one quarter of the parameters (`splitPatch_surface`).  A row that is split gives the two halves of its curve
(`curve_splitRow`); columns are the rows of the transposed net.
-/
namespace PdfContent

open Scalar

variable {K : Type*} [Field K]

def bernstein (i : Fin 4) (t : K) : K := Nat.choose 3 i * t ^ (i : Nat) * (1 - t) ^ (3 - (i : Nat))

def Point.vec (p : Point Rat) : K × K := (p.x, p.y)

theorem Point.vec_midpoint [CharZero K] (p q : Point Rat) :
    (p.midpoint q).vec = ((1 / 2 : K) • (p.vec + q.vec) : K × K) := by
  ext
  · simp only [vec, midpoint_x, Prod.smul_mk, Prod.mk_add_mk, smul_eq_mul]
    push_cast
    ring
  · simp only [vec, midpoint_y, Prod.smul_mk, Prod.mk_add_mk, smul_eq_mul]
    push_cast
    ring

namespace Row

def points (r : Row Rat) : Fin 4 → Point Rat := ![r.p0, r.p1, r.p2, r.p3]

def curve (r : Row Rat) (t : K) : K × K := ∑ j, bernstein j t • (r.points j).vec

theorem curve_eq (r : Row Rat) (t : K) :
    r.curve t = (1 - t) ^ 3 • r.p0.vec + (3 * t * (1 - t) ^ 2) • r.p1.vec + (3 * t ^ 2 * (1 - t)) • r.p2.vec +
      t ^ 3 • r.p3.vec := by
  simp [curve, Fin.sum_univ_four, points, bernstein, Nat.choose]

end Row

namespace Tessellation

variable [CharZero K]

/-- **A row that is split gives the two halves of its curve.** -/
theorem curve_splitRow (r : Row Rat) (t : K) :
    (splitRow r).1.curve t = r.curve (t / 2) ∧ (splitRow r).2.curve t = r.curve ((1 + t) / 2) := by
  simp only [Row.curve_eq, splitRow, Point.vec_midpoint]
  constructor <;> module

namespace Net

omit [CharZero K]

def row (n : Net Rat) : Fin 4 → Row Rat := ![n.r0, n.r1, n.r2, n.r3]

def surface (n : Net Rat) (u v : K) : K × K := ∑ i, ∑ j, (bernstein i u * bernstein j v) • ((n.row i).points j).vec

theorem surface_eq_sum_curve (n : Net Rat) (u v : K) : n.surface u v = ∑ i, bernstein i u • (n.row i).curve v := by
  simp only [surface, Row.curve, Finset.smul_sum, smul_smul]

theorem surface_eq (n : Net Rat) (u v : K) :
    n.surface u v = (1 - u) ^ 3 • n.r0.curve v + (3 * u * (1 - u) ^ 2) • n.r1.curve v +
      (3 * u ^ 2 * (1 - u)) • n.r2.curve v + u ^ 3 • n.r3.curve v := by
  simp [surface_eq_sum_curve, Fin.sum_univ_four, row, bernstein, Nat.choose]

theorem points_transpose (n : Net Rat) (i j : Fin 4) : (n.transpose.row i).points j = (n.row j).points i := by
  fin_cases i <;> fin_cases j <;> rfl

theorem surface_transpose (n : Net Rat) (u v : K) : n.transpose.surface u v = n.surface v u := by
  simp only [surface, points_transpose]
  rw [Finset.sum_comm]
  simp only [mul_comm]

theorem row_splitRows (n : Net Rat) (i : Fin 4) :
    n.splitRows.1.row i = (splitRow (n.row i)).1 ∧ n.splitRows.2.row i = (splitRow (n.row i)).2 := by
  fin_cases i <;> exact ⟨rfl, rfl⟩

variable [CharZero K]

theorem surface_splitRows (n : Net Rat) (u v : K) :
    n.splitRows.1.surface u v = n.surface u (v / 2) ∧ n.splitRows.2.surface u v = n.surface u ((1 + v) / 2) := by
  simp only [surface_eq_sum_curve, row_splitRows, curve_splitRow, and_self]

theorem surface_splitColumns (n : Net Rat) (u v : K) :
    n.splitColumns.1.surface u v = n.surface (u / 2) v ∧ n.splitColumns.2.surface u v = n.surface ((1 + u) / 2) v := by
  have columns := surface_splitRows n.transpose v u
  rw [surface_transpose, surface_transpose] at columns
  simp only [splitColumns, surface_transpose]
  exact columns

theorem surface_quarters (n : Net Rat) (u v : K) :
    n.splitRows.1.splitColumns.1.surface u v = n.surface (u / 2) (v / 2) ∧
    n.splitRows.1.splitColumns.2.surface u v = n.surface ((1 + u) / 2) (v / 2) ∧
    n.splitRows.2.splitColumns.1.surface u v = n.surface (u / 2) ((1 + v) / 2) ∧
    n.splitRows.2.splitColumns.2.surface u v = n.surface ((1 + u) / 2) ((1 + v) / 2) := by
  simp only [surface_splitColumns, surface_splitRows, and_self]

end Net

end Tessellation

/-! ## Colors -/

namespace Tessellation

def blend (t : K) (a b : List K) : List K := List.zipWith (fun x y => (1 - t) * x + t * y) a b

def bilinear (nw ne sw se : List K) (u v : K) : List K := blend u (blend v nw ne) (blend v sw se)

def castColor (color : List Rat) : List K := color.map (↑)

variable [CharZero K]

theorem castColor_mean (a b : List Rat) : castColor (mean a b) = (blend (1 / 2) (castColor a) (castColor b) : List K) := by
  unfold castColor mean blend
  rw [List.map_zipWith, List.zipWith_map]
  congr
  funext x y
  show ((((x + y) / 2 : Rat)) : K) = _
  push_cast
  ring

/-- **Half blends give the colors of the four quarters.** -/
theorem bilinear_quarters (nw ne sw se : List K) (u v : K) :
    let top := blend (1 / 2) nw ne
    let right := blend (1 / 2) ne se
    let bottom := blend (1 / 2) se sw
    let left := blend (1 / 2) sw nw
    let center := blend (1 / 2) left right
    bilinear nw top left center u v = bilinear nw ne sw se (u / 2) (v / 2) ∧
    bilinear left center sw bottom u v = bilinear nw ne sw se ((1 + u) / 2) (v / 2) ∧
    bilinear top ne center right u v = bilinear nw ne sw se (u / 2) ((1 + v) / 2) ∧
    bilinear center right bottom se u v = bilinear nw ne sw se ((1 + u) / 2) ((1 + v) / 2) := by
  refine ⟨?_, ?_, ?_, ?_⟩
  all_goals
    refine List.ext_getElem? fun i => ?_
    simp only [bilinear, blend, List.getElem?_zipWith]
    -- colors need not have equally many components: where one of the four has none, neither side has any
    rcases nw[i]? with _ | a <;> rcases ne[i]? with _ | b <;> rcases sw[i]? with _ | c <;> rcases se[i]? with _ | d <;>
      simp only [Option.some.injEq]
    ring

end Tessellation

namespace Patch

variable {γ : Type}

def net (p : Patch Rat γ) : Tessellation.Net Rat := ⟨p.r0, p.r1, p.r2, p.r3⟩

/-- The point of a patch at two parameters, that along its columns and that along its rows. -/
def surface (p : Patch Rat γ) (u v : K) : K × K := p.net.surface u v

open Tessellation

def color (p : Patch Rat Rat) (u v : K) : List K :=
  bilinear (castColor p.c00) (castColor p.c01) (castColor p.c10) (castColor p.c11) u v

variable [CharZero K]

/-- **Splitting moves neither the surface nor the colors.**  The four parts of a patch are the patch over the four halves
of its two parameters: upper left, lower left, upper right and lower right. -/
theorem splitPatch_surface (p : Patch Rat Rat) :
    List.Forall₂ (fun q (half : K × K) => ∀ u v : K,
        q.surface u v = p.surface ((half.1 + u) / 2) ((half.2 + v) / 2) ∧
        q.color u v = p.color ((half.1 + u) / 2) ((half.2 + v) / 2))
      (splitPatch p) [(0, 0), (1, 0), (0, 1), (1, 1)] := by
  have surfaces (u v : K) := p.net.surface_quarters u v
  have colors (u v : K) := bilinear_quarters (castColor p.c00) (castColor p.c01) (castColor p.c10) (castColor p.c11) u v
  simp only [← castColor_mean] at colors
  refine .cons (fun u v => ?_) (.cons (fun u v => ?_) (.cons (fun u v => ?_) (.cons (fun u v => ?_) .nil)))
  all_goals simp only [zero_add]
  · exact ⟨(surfaces u v).1, (colors u v).1⟩
  · exact ⟨(surfaces u v).2.1, (colors u v).2.1⟩
  · exact ⟨(surfaces u v).2.2.1, (colors u v).2.2.1⟩
  · exact ⟨(surfaces u v).2.2.2, (colors u v).2.2.2⟩

/-- A patch over a square that is raised in the middle of its right edge, black on the left and white on the right. -/
def raised : Patch Rat Rat :=
  ⟨⟨⟨0, 0⟩, ⟨0, 1⟩, ⟨0, 2⟩, ⟨0, 3⟩⟩, ⟨⟨1, 0⟩, ⟨1, 1⟩, ⟨1, 2⟩, ⟨1, 7⟩⟩, ⟨⟨2, 0⟩, ⟨2, 1⟩, ⟨2, 2⟩, ⟨2, 7⟩⟩,
    ⟨⟨3, 0⟩, ⟨3, 1⟩, ⟨3, 2⟩, ⟨3, 3⟩⟩, [0], [1], [0], [1]⟩

/-- Over the real numbers, too; the last corner of the first part is the middle of the patch. -/
theorem raised_split : ∃ q parts, splitPatch raised = q :: parts ∧
    (∀ u v : ℝ, q.surface u v = raised.surface (u / 2) (v / 2)) ∧
    q.surface (1 : ℝ) 1 = (3 / 2, 15 / 8) ∧ q.color (1 : ℝ) 1 = [1 / 2] := by
  obtain ⟨q, parts, same, -, heq⟩ := List.forall₂_cons_right_iff.mp (splitPatch_surface (K := ℝ) raised)
  simp only [zero_add] at same
  refine ⟨q, parts, heq, fun u v => (same u v).1, ?_, ?_⟩
  · rw [(same 1 1).1]
    norm_num [surface, net, raised, Net.surface_eq, Row.curve_eq, Point.vec]
  · rw [(same 1 1).2]
    norm_num [color, raised, bilinear, blend, castColor]

end Patch

end PdfContent
