import PdfContent.Bytes
import PdfContent.Geometry.Scalar
/-!
# BitReader — numbers of any width, the most significant bit first
-/
namespace PdfContent

/-- Bytes read bit by bit: the data and how many bits have been read. -/
structure BitReader where
  data : Array UInt8
  pos : Nat

namespace BitReader

def ofBytes (s : Bytes) : BitReader := ⟨s.toArray, 0⟩

def hasLessThan (r : BitReader) (n : Nat) : Bool := r.data.size * 8 < r.pos + n

def bit (r : BitReader) (i : Nat) : Nat := ((r.data.getD (i / 8) 0).toNat >>> (7 - i % 8)) % 2

def value (r : BitReader) (i : Nat) : Nat → Nat
  | 0 => 0
  | n + 1 => value r i n * 2 + r.bit (i + n)

/-- The `take` bits of a byte that follow its first `offset` ones. -/
def chunk (byte : UInt8) (offset take : Nat) : UInt8 :=
  (byte >>> (8 - offset - take).toUInt8) &&& (((1 : UInt16) <<< take.toUInt16) - 1).toUInt8

/-- Puts `n` bits behind those of `value`: of the first byte the bits that follow its first `offset` ones, and as many
bits of the next bytes as are still missing. -/
def gather (value : UInt64) (offset n : Nat) : Bytes → UInt64
  | [] => value
  | byte :: bytes =>
    let take := min n (8 - offset)
    gather ((value <<< take.toUInt64) ||| (chunk byte offset take).toUInt64) 0 (n - take) bytes

def gathered (r : BitReader) (n : Nat) : Nat :=
  (gather 0 (r.pos % 8) n (r.data.extract (r.pos / 8) ((r.pos + n + 7) / 8)).toList).toUInt32.toNat

/-- Reads a number of `n` bits; at most 32 are read at once, and a whole byte is taken as it is. -/
def read? (r : BitReader) (n : Nat) : Option (Nat × BitReader) :=
  if n > 32 || r.hasLessThan n then none
  else
    let next := { r with pos := r.pos + n }
    if n == 8 && r.pos % 8 == 0 then some ((r.data.getD (r.pos / 8) 0).toNat, next) else some (r.gathered n, next)

def align (r : BitReader) : BitReader := { r with pos := (r.pos + 7) / 8 * 8 }

/-- Maps a number of `n` bits from the interval of its values to the one between `low` and `high`. -/
def scaled (n : Nat) (low high : Float32) (raw : Nat) : Float32 :=
  let share := Double.ofInt raw / Double.ofInt (max ((1 <<< n) - 1 : Nat) 1 : Nat)
  low + Single.ofFloat share * (high - low)

def readScaled? (r : BitReader) (n : Nat) (low high : Float32) : Option (Float32 × BitReader) :=
  (r.read? n).map fun (raw, r) => (scaled n low high raw, r)

end BitReader

end PdfContent
