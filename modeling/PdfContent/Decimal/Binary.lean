/-!
# Binary — the two floating-point formats as pairs of integers

A finite number of a format is `mantissa * 2 ^ exponent`.  `Format.round` gives the bits of the number of a format that
is nearest to a quotient, ties going to the even mantissa, so conversions between the formats need no machine word.
-/
namespace PdfContent

/-- A binary interchange format: the stored bits of the mantissa and of the exponent. -/
structure Format where
  mantissaBits : Nat
  exponentBits : Nat

namespace Format

def single : Format := ⟨23, 8⟩

def double : Format := ⟨52, 11⟩

def topExponent (f : Format) : Nat := (1 <<< f.exponentBits) - 1

def leastExponent (f : Format) : Int := 2 - (1 <<< (f.exponentBits - 1) : Nat) - f.mantissaBits

end Format

inductive Magnitude where
  | finite (mantissa : Nat) (exponent : Int)
  | infinite
  | nan
deriving DecidableEq, Repr

namespace Format

def isNegative (f : Format) (bits : Nat) : Bool := bits.testBit (f.mantissaBits + f.exponentBits)

def magnitude (f : Format) (bits : Nat) : Magnitude :=
  let fraction := bits % (1 <<< f.mantissaBits)
  let exponent := (bits >>> f.mantissaBits) % (1 <<< f.exponentBits)
  if exponent == f.topExponent then if fraction == 0 then .infinite else .nan
  else if exponent == 0 then .finite fraction f.leastExponent
  else .finite (fraction + (1 <<< f.mantissaBits)) (f.leastExponent + exponent - 1)

def infinityBits (f : Format) : Nat := f.topExponent <<< f.mantissaBits

/-- The nearest integer of a quotient; a tie goes to the even one. -/
def roundHalfEven (num den : Nat) : Nat :=
  let q := num / den
  let r := num % den
  if 2 * r > den || (2 * r == den && q % 2 == 1) then q + 1 else q

/-- The bits of the number nearest to `num / den`.  A mantissa that rounds up to the next power of two carries into the
exponent field, which is again the right number. -/
def round (f : Format) (num den : Nat) : Nat :=
  if num == 0 then 0
  else
    let guess : Int := num.log2 - den.log2 - f.mantissaBits
    -- The quotient lies between two powers of two, so the guess is right or one too large.
    let exponent := if num <<< (-guess).toNat < den <<< (f.mantissaBits + guess.toNat) then guess - 1 else guess
    let exponent := max exponent f.leastExponent
    let mantissa := roundHalfEven (num <<< (-exponent).toNat) (den <<< exponent.toNat)
    let field := (exponent - f.leastExponent).toNat
    min ((field <<< f.mantissaBits) + mantissa) f.infinityBits

def withSign (f : Format) (negative : Bool) (bits : Nat) : Nat :=
  if negative then bits + (1 <<< (f.mantissaBits + f.exponentBits)) else bits

/-- The bits in the format `target` of the number nearest to the one with the given bits in the format `of`. -/
def convert (of target : Format) (bits : Nat) : Nat :=
  target.withSign (of.isNegative bits) <|
    match of.magnitude bits with
    | .finite m e => target.round (m <<< e.toNat) (1 <<< (-e).toNat)
    | .infinite => target.infinityBits
    | .nan => target.infinityBits + (1 <<< (target.mantissaBits - 1))

end Format

namespace Single

def ofFloat (x : Float) : Float32 := Float32.ofBits (Format.convert .double .single x.toBits.toNat).toUInt32

def toFloat (x : Float32) : Float := Float.ofBits (Format.convert .single .double x.toBits.toNat).toUInt64

def ofNat (n : Nat) : Float32 := Float32.ofBits (Format.single.round n 1).toUInt32

end Single

namespace Double

def ofDecimal (digits places : Nat) : Float := Float.ofBits (Format.double.round digits (Nat.pow 10 places)).toUInt64

def ofInt (i : Int) : Float :=
  let x := Float.ofBits (Format.double.round i.natAbs 1).toUInt64
  if i < 0 then -x else x

/-- The integer part, between the least and the greatest signed 64-bit word; 0 for a NaN. -/
def truncate (x : Float) : Int :=
  if x < 0 then -(min (-x).toUInt64.toNat (1 <<< 63)) else min x.toUInt64.toNat ((1 <<< 63) - 1)

end Double

end PdfContent
