import PdfContent.Object.Basic
import PdfContent.Word
/-!
# Literal — the spellings of names, strings and numbers

Each decoder takes the bytes of a token without its outer marks: a name without its slash, a string without its
parentheses or angle brackets.
-/
namespace PdfContent.Literal

/-- Decodes the escapes of a name: a number sign and two characters that are a hexadecimal number stand for one byte. -/
def name : Bytes → Bytes
  | [] => []
  | [b] => [b]
  | [b, c] => [b, c]
  | b :: c :: d :: r =>
    match if b == 0x23 then Unicode.hexNumber? [c, d] else none with
    | some n => n.toUInt8 :: name r
    | none => b :: name (c :: d :: r)

/-- Pairs of hexadecimal digits as bytes; a last digit without a partner counts as if a zero followed. -/
def hexPairs : List UInt8 → Bytes
  | [] => []
  | [h] => [h <<< 4]
  | h :: l :: r => ((h <<< 4) ||| l) :: hexPairs r

/-- Decodes the body of a hexadecimal string; what is no digit is skipped. -/
def hexString (body : Bytes) : Bytes := hexPairs (body.filterMap Byte.hexValue?)

def isOctal (b : UInt8) : Bool := 0x30 ≤ b && b ≤ 0x37

/-- The byte that an escape with one letter stands for; other characters stand for themselves. -/
def escaped (b : UInt8) : UInt8 :=
  if b == 0x6e then 0x0a
  else if b == 0x72 then 0x0d
  else if b == 0x74 then 0x09
  else if b == 0x62 then 0x08
  else if b == 0x66 then 0x0c
  else b

inductive StringMode where
  | plain
  /-- After a carriage return, which a line feed may follow. -/
  | afterReturn
  | afterBackslash
  /-- After one octal digit. -/
  | octal₁ (value : Nat)
  /-- After two octal digits. -/
  | octal₂ (value : Nat)

namespace StringMode

def readPlain (b : UInt8) : Bytes × StringMode :=
  if b == 0x0d then ([0x0a], .afterReturn) else if b == 0x5c then ([], .afterBackslash) else ([b], .plain)

/-- What a byte adds to the string.  Of an octal number the low eight bits count. -/
def read (b : UInt8) : StringMode → Bytes × StringMode
  | .plain => readPlain b
  | .afterReturn => if b == 0x0a then ([], .plain) else readPlain b
  | .afterBackslash =>
    if b == 0x0d then ([], .afterReturn)
    else if b == 0x0a then ([], .plain)
    else if isOctal b then ([], .octal₁ (b.toNat - 0x30))
    else ([escaped b], .plain)
  | .octal₁ v =>
    if isOctal b then ([], .octal₂ (v * 8 + (b.toNat - 0x30)))
    else let (out, mode) := readPlain b; (v.toUInt8 :: out, mode)
  | .octal₂ v =>
    if isOctal b then ([(v * 8 + (b.toNat - 0x30)).toUInt8], .plain)
    else let (out, mode) := readPlain b; (v.toUInt8 :: out, mode)

def finish : StringMode → Bytes
  | .octal₁ v | .octal₂ v => [v.toUInt8]
  | _ => []

end StringMode

/-- Decodes the rest of the body of a literal string: an end of line is a line feed, a backslash before one joins two
lines, and up to three octal digits after a backslash are a byte. -/
def stringFrom (mode : StringMode) : Bytes → Bytes
  | [] => mode.finish
  | b :: r => (mode.read b).1 ++ stringFrom (mode.read b).2 r

def string (body : Bytes) : Bytes := stringFrom .plain body

def isSign (b : UInt8) : Bool := b == 0x2b || b == 0x2d

/-- The digits of a decimal up to the first byte that does not belong to it, without the point, and how many of them
follow the point. -/
def decimalDigits : Bytes → Bytes × Nat
  | [] => ([], 0)
  | b :: r =>
    if Byte.isDigit b then let (ds, places) := decimalDigits r; (b :: ds, places)
    else if b == 0x2e then let ds := r.takeWhile Byte.isDigit; (ds, ds.length)
    else ([], 0)

/-- The word that digits make of a word, one after the other.  Each step is held at the bounds of the word. -/
def accumulate (v : Int64) (digits : Bytes) : Int64 :=
  digits.foldl (fun v d => Word.saturatingAdd (Word.saturatingMul v 10) (.ofInt (d - 0x30).toNat)) v

/-- Reads a number token.  An odd number of minus signs in front makes it negative.  What follows the digits of a real
is ignored. -/
def number? (token : Bytes) : Option Number :=
  let negative := (token.takeWhile isSign).count 0x2d % 2 == 1
  let digits := token.dropWhile isSign
  if digits.isEmpty then none
  else if digits.contains 0x2e then
    let (ds, places) := decimalDigits digits
    let x := Double.ofDecimal (Bytes.decimal ds) places
    some (.real (if negative then -x else x))
  else if digits.all Byte.isDigit then
    let i := accumulate 0 digits
    some (.int (if negative then -i else i).toInt)
  else none

end PdfContent.Literal
