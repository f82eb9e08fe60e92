import PdfContent.Bytes
/-!
# Ascii — the two filters that write bytes as printable characters
-/
namespace PdfContent

namespace AsciiHex

/-- The byte of a last digit without a partner, which counts as if a zero followed. -/
def loneDigit : Option UInt8 → Bytes
  | some h => [h <<< 4]
  | none => []

/-- Decodes pairs of hexadecimal digits up to `>`; `high` is a digit without its partner.  White space is skipped, other
characters are refused. -/
def decodeFrom (high : Option UInt8) : Bytes → Option Bytes
  | [] => some (loneDigit high)
  | b :: r =>
    if b == 0x3e then some (loneDigit high)
    else if Byte.isBlank b then decodeFrom high r
    else
      match Byte.hexValue? b, high with
      | none, _ => none
      | some d, none => decodeFrom (some d) r
      | some d, some h => (decodeFrom none r).map (((h <<< 4) ||| d) :: ·)

def decode (s : Bytes) : Option Bytes := decodeFrom none s

end AsciiHex

namespace Ascii85

/-- The four bytes of a group of five digits in base 85, if their number fits. -/
def word? (group : List Nat) : Option Bytes :=
  let n := group.foldl (fun n d => n * 85 + d) 0
  if n < UInt32.size then
    some [(n >>> 24).toUInt8, (n >>> 16).toUInt8, (n >>> 8).toUInt8, n.toUInt8]
  else none

/-- The bytes of a last group of fewer than five digits: one byte fewer than digits.  The group is filled up with the
highest digit, and one digit alone stands for nothing. -/
def lastWord? (group : List Nat) : Option Bytes :=
  if group.length ≤ 1 then some []
  else (word? (group ++ List.replicate (5 - group.length) 84)).map (·.take (group.length - 1))

/-- Decodes the digits up to `~`; `group` holds those of the group that is not yet complete.  White space is skipped,
and `z` stands for a group of zeros, but not inside of a group. -/
def decodeFrom (group : List Nat) : Bytes → Option Bytes
  | [] => lastWord? group
  | b :: r =>
    if b == 0x7e then lastWord? group
    else if b == 0x7a && group.isEmpty then (decodeFrom [] r).map ([0, 0, 0, 0] ++ ·)
    else if 0x21 ≤ b && b ≤ 0x75 then
      let group := group ++ [b.toNat - 0x21]
      if group.length == 5 then (word? group).bind fun w => (decodeFrom [] r).map (w ++ ·) else decodeFrom group r
    else if Byte.isBlank b then decodeFrom group r
    else none

/-- Decodes a text that may start with `<~`. -/
def decode : Bytes → Option Bytes
  | 0x3c :: 0x7e :: r => decodeFrom [] r
  | s => decodeFrom [] s

end Ascii85

end PdfContent
