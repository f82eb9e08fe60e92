import PdfContent.Decimal.Binary
/-!
# Shortest — the fewest decimal digits that read back as the same float

`Shortest.digits` looks for a point of a decimal grid inside of the interval of the reals that round to a number, on
ever finer grids: the first grid with a hit wins, of two hits the nearer one, and a tie goes up.  The written form is
positional, without an exponent and without a fraction for whole numbers.
-/
namespace PdfContent

/-- A number and the reals that round to it, all four over one denominator. -/
structure Rounding where
  value : Nat
  low : Nat
  high : Nat
  den : Nat
  /-- Whether the two ends round to the number as well. -/
  closed : Bool

namespace Rounding

/-- The reals that round to `m * 2 ^ e`.  In quarters of the last place the value is `4 m`; the neighbor below a power
of two is only half as far away as the one above. -/
def of (f : Format) (m : Nat) (e : Int) : Rounding :=
  let up := 1 <<< e.toNat
  let below := if m == (1 <<< f.mantissaBits) && e > f.leastExponent then 1 else 2
  ⟨4 * m * up, (4 * m - below) * up, (4 * m + 2) * up, 4 * (1 <<< (-e).toNat), m % 2 == 0⟩

def contains (r : Rounding) (num div : Nat) : Bool :=
  if r.closed then r.low * div ≤ num && num ≤ r.high * div else r.low * div < num && num < r.high * div

def decade (r : Rounding) : Int :=
  let guess : Int := ((r.value.log2 : Int) - r.den.log2) * 30103 / 100000
  let atLeast (k : Int) : Bool := Nat.pow 10 k.toNat * r.den ≤ r.value * Nat.pow 10 (-k).toNat
  if atLeast (guess + 1) then guess + 1 else if atLeast guess then guess else guess - 1

end Rounding

namespace Shortest

/-- Tries the grids of the multiples of `10 ^ k`, `10 ^ (k - 1)` and so on, at most `fuel` of them. -/
def search (r : Rounding) : Nat → Int → Nat × Int
  | 0, k => (0, k)
  | fuel + 1, k =>
    let div := Nat.pow 10 (-k).toNat
    let unit := Nat.pow 10 k.toNat * r.den
    let scaled := r.value * div
    let d := scaled / unit
    match r.contains (d * unit) div, r.contains ((d + 1) * unit) div with
    | true, true => (if 2 * (scaled - d * unit) ≥ unit then d + 1 else d, k)
    | true, false => (d, k)
    | false, true => (d + 1, k)
    | false, false => search r fuel (k - 1)

/-- Digits `d` and an exponent `k` such that `d * 10 ^ k` is the shortest decimal for the float `m * 2 ^ e`, with `m`
positive.  Seventeen digits always do. -/
def digits (f : Format) (m : Nat) (e : Int) : Nat × Int :=
  let r := Rounding.of f m e
  let (d, k) := search r 20 r.decade
  if d % 10 == 0 then (d / 10, k + 1) else (d, k)

def positional (d : Nat) (k : Int) : String :=
  let ds := Nat.toDigits 10 d
  if 0 ≤ k then String.ofList (ds ++ List.replicate k.toNat '0')
  else
    let places := (-k).toNat
    if places < ds.length then
      String.ofList (ds.take (ds.length - places) ++ '.' :: ds.drop (ds.length - places))
    else String.ofList ('0' :: '.' :: List.replicate (places - ds.length) '0' ++ ds)

def text (f : Format) (bits : Nat) : String :=
  let sign := if f.isNegative bits then "-" else ""
  match f.magnitude bits with
  | .nan => "NaN"
  | .infinite => sign ++ "inf"
  | .finite m e =>
    if m == 0 then sign ++ "0"
    else
      let (d, k) := digits f m e
      sign ++ positional d k

def ofFloat (x : Float) : String := text .double x.toBits.toNat

def ofFloat32 (x : Float32) : String := text .single x.toBits.toNat

end Shortest

end PdfContent
