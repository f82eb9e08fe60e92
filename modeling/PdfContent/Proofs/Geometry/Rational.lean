import Mathlib.Algebra.Order.Field.Rat
import Mathlib.Tactic.Ring
import PdfContent.Proofs.Geometry.Exact
/-!
# Rational — what midpoints are in exact numbers
-/
namespace PdfContent

open Scalar

theorem Scalar.ofFloat_half : (ofFloat 0.5 : Rat) = 1 / 2 := by decide +kernel

theorem Scalar.half_mul_add (x y : Rat) : (ofFloat 0.5 : Rat) * (x + y) = (x + y) / 2 := by
  rw [ofFloat_half]
  ring

namespace Point

@[simp]
theorem midpoint_x (p q : Point Rat) : (p.midpoint q).x = (p.x + q.x) / 2 := half_mul_add p.x q.x

@[simp]
theorem midpoint_y (p q : Point Rat) : (p.midpoint q).y = (p.y + q.y) / 2 := half_mul_add p.y q.y

end Point

end PdfContent
