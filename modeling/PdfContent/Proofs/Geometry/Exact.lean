import PdfContent.Geometry.Affine
/-!
# Exact — number systems without rounding

Over an `Exact` scalar the composition of affine maps is that of functions, so it is associative and the identity is
neutral.  The rational numbers are such a system.
-/
namespace PdfContent

namespace Scalar

/-- A number system in which sums and products are not rounded. -/
class Exact (α : Type) [Scalar α] : Prop where
  add_assoc (x y z : α) : x + y + z = x + (y + z)
  add_comm (x y : α) : x + y = y + x
  add_zero (x : α) : x + zero = x
  mul_assoc (x y z : α) : x * y * z = x * (y * z)
  mul_one (x : α) : x * one = x
  one_mul (x : α) : one * x = x
  mul_zero (x : α) : x * zero = zero
  zero_mul (x : α) : zero * x = zero
  mul_add (x y z : α) : x * (y + z) = x * y + x * z
  add_mul (x y z : α) : (x + y) * z = x * z + y * z

/-- The value of the bits of a float; infinities and NaNs count as 0. -/
def ratOfBits (f : Format) (bits : Nat) : Rat :=
  match f.magnitude bits with
  | .finite mantissa exponent =>
    let x : Rat := mantissa * (2 : Rat) ^ exponent
    if f.isNegative bits then -x else x
  | _ => 0

instance : Scalar Rat where
  ofInt i := i
  ofFloat x := ratOfBits .double x.toBits.toNat
  ofFloat32 x := ratOfBits .single x.toBits.toNat
  toFloat32 x := Float32.ofBits (Format.single.withSign (x < 0) (Format.single.round x.num.natAbs x.den)).toUInt32
  toNat x := x.floor.toNat
  lt x y := x < y
  le x y := x ≤ y
  eq x y := x == y
  isFinite _ := true

instance : Exact Rat where
  add_assoc := Rat.add_assoc
  add_comm := Rat.add_comm
  add_zero := Rat.add_zero
  mul_assoc := Rat.mul_assoc
  mul_one := Rat.mul_one
  one_mul := Rat.one_mul
  mul_zero := Rat.mul_zero
  zero_mul := Rat.zero_mul
  mul_add := Rat.mul_add
  add_mul := Rat.add_mul

end Scalar

namespace Affine

open Scalar

variable {α : Type} [Scalar α] [Exact α]

instance : Std.Associative (α := α) (· + ·) := ⟨Exact.add_assoc⟩

instance : Std.Commutative (α := α) (· + ·) := ⟨Exact.add_comm⟩

theorem mul_assoc (m n k : Affine α) : (m.mul n).mul k = m.mul (n.mul k) := by
  simp only [mul, mk.injEq, Exact.mul_add, Exact.add_mul, Exact.mul_assoc]
  refine ⟨?_, ?_, ?_, ?_, ?_, ?_⟩ <;> ac_rfl

theorem mul_identity (m : Affine α) : m.mul .identity = m := by
  have zero_add (x : α) : zero + x = x := (Exact.add_comm _ _).trans (Exact.add_zero x)
  simp only [mul, identity, Exact.mul_one, Exact.mul_zero, Exact.add_zero, zero_add]

theorem identity_mul (m : Affine α) : Affine.identity.mul m = m := by
  have zero_add (x : α) : zero + x = x := (Exact.add_comm _ _).trans (Exact.add_zero x)
  simp only [mul, identity, Exact.one_mul, Exact.zero_mul, Exact.add_zero, zero_add]

end Affine

end PdfContent
