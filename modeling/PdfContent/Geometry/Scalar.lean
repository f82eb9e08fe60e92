import PdfContent.Decimal.Binary
/-!
# Scalar — the number systems that geometry and colors are computed in

Coordinates are double-precision floats and color components single-precision ones, but nothing in the formulas depends
on that: they are written for any `Scalar`, in one fixed order of operations, so the same definitions can be read over
exact numbers.
-/
namespace PdfContent

/-- A number system with the operations that geometry needs.  The comparisons are tests, since a NaN is neither less
than, equal to nor greater than anything. -/
class Scalar (α : Type) extends Add α, Sub α, Mul α, Div α, Neg α where
  ofInt : Int → α
  ofFloat : Float → α
  ofFloat32 : Float32 → α
  toFloat32 : α → Float32
  /-- The integer part of a number that is not negative; 0 for other values. -/
  toNat : α → Nat
  lt : α → α → Bool
  le : α → α → Bool
  eq : α → α → Bool
  isFinite : α → Bool

instance : Scalar Float where
  ofInt := Double.ofInt
  ofFloat x := x
  ofFloat32 := Single.toFloat
  toFloat32 := Single.ofFloat
  toNat x := x.toUInt64.toNat
  lt x y := x < y
  le x y := x ≤ y
  eq x y := x == y
  isFinite := Float.isFinite

instance : Scalar Float32 where
  ofInt i := Single.ofFloat (Double.ofInt i)
  ofFloat := Single.ofFloat
  ofFloat32 x := x
  toFloat32 x := x
  toNat x := x.toUInt64.toNat
  lt x y := x < y
  le x y := x ≤ y
  eq x y := x == y
  isFinite := Float32.isFinite

namespace Scalar

variable {α : Type} [Scalar α]

def zero : α := ofInt 0

def one : α := ofInt 1

def isNaN (x : α) : Bool := !eq x x

/-- The lesser of two numbers, the second if they are equal; a NaN gives way to the other one. -/
def min (x y : α) : α := if isNaN x || le y x then y else x

/-- The greater of two numbers, the second if they are equal; a NaN gives way to the other one. -/
def max (x y : α) : α := if isNaN x || le x y then y else x

/-- The absolute value; that of either zero is the positive zero. -/
def abs (x : α) : α := if lt x zero then -x else if eq x zero then zero else x

/-- The nearest number between `low` and `high`; a NaN is kept. -/
def clamp (low high x : α) : α :=
  let x := if lt x low then low else x
  if lt high x then high else x

/-- Maps `x` from the interval between `low` and `high` to the one between `first` and `last`.  An empty interval is
mapped to `first`. -/
def interpolate (x low high first last : α) : α :=
  if eq high low then first else first + (x - low) * (last - first) / (high - low)

end Scalar

end PdfContent
