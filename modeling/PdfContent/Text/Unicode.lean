import PdfContent.Bytes
/-!
# Unicode — text from bytes

Three encodings of text occur in a file: UTF-8, in names and commands; UTF-16 with the high byte first, in strings and
character maps; and one byte per character.  A malformed sequence is decoded to `none`, once for each longest piece that
could have begun a well-formed one, so that a caller can refuse it or put U+FFFD in its place.
-/
namespace PdfContent.Unicode

def replacement : Char := '\uFFFD'

def isContinuation (b : UInt8) : Bool := 0x80 ≤ b && b ≤ 0xbf

/-- Whether `second` may follow the first byte of a three-byte sequence: overlong forms and surrogates are out. -/
def opensThree (first second : UInt8) : Bool :=
  (first == 0xe0 && 0xa0 ≤ second && second ≤ 0xbf) || (0xe1 ≤ first && first ≤ 0xec && isContinuation second)
    || (first == 0xed && 0x80 ≤ second && second ≤ 0x9f) || (0xee ≤ first && first ≤ 0xef && isContinuation second)

def opensFour (first second : UInt8) : Bool :=
  (first == 0xf0 && 0x90 ≤ second && second ≤ 0xbf) || (0xf1 ≤ first && first ≤ 0xf3 && isContinuation second)
    || (first == 0xf4 && 0x80 ≤ second && second ≤ 0x8f)

/-- The low six bits of a continuation byte. -/
def payload (b : UInt8) : Nat := b.toNat % 0x40

def utf8 : Bytes → List (Option Char)
  | [] => []
  | a :: r =>
    if a < 0x80 then some (Char.ofNat a.toNat) :: utf8 r
    else
      match r with
      | [] => [none]
      | b :: r =>
        if 0xc2 ≤ a && a ≤ 0xdf && isContinuation b then some (Char.ofNat (a.toNat % 0x20 * 0x40 + payload b)) :: utf8 r
        else if opensThree a b then
          match r with
          | [] => [none]
          | c :: r =>
            if isContinuation c then
              some (Char.ofNat (a.toNat % 0x10 * 0x1000 + payload b * 0x40 + payload c)) :: utf8 r
            else none :: utf8 (c :: r)
        else if opensFour a b then
          match r with
          | [] => [none]
          | c :: r =>
            if isContinuation c then
              match r with
              | [] => [none]
              | d :: r =>
                if isContinuation d then
                  some (Char.ofNat (a.toNat % 8 * 0x40000 + payload b * 0x1000 + payload c * 0x40 + payload d)) :: utf8 r
                else none :: utf8 (d :: r)
            else none :: utf8 (c :: r)
        else none :: utf8 (b :: r)
termination_by s => s.length

def ofUtf8? (s : Bytes) : Option String := ((utf8 s).mapM id).map String.ofList

/-- The text of UTF-8 bytes, with U+FFFD for what is malformed. -/
def ofUtf8 (s : Bytes) : String := String.ofList ((utf8 s).map (·.getD replacement))

def toUtf8 (s : String) : Bytes := s.toUTF8.toList

/-- The 16-bit units of a byte string, the high byte first; a last odd byte is dropped. -/
def units (s : Bytes) : List Nat := (Bytes.pairs s).map fun (hi, lo) => hi.toNat * 256 + lo.toNat

def isHighSurrogate (u : Nat) : Bool := 0xd800 ≤ u && u < 0xdc00

def isLowSurrogate (u : Nat) : Bool := 0xdc00 ≤ u && u < 0xe000

/-- Decodes UTF-16: a surrogate without its partner is malformed. -/
def utf16 : List Nat → List (Option Char)
  | [] => []
  | [u] => [if isHighSurrogate u || isLowSurrogate u then none else some (Char.ofNat u)]
  | u :: v :: r =>
    if isHighSurrogate u then
      if isLowSurrogate v then some (Char.ofNat (0x10000 + (u - 0xd800) * 0x400 + (v - 0xdc00))) :: utf16 r
      else none :: utf16 (v :: r)
    else if isLowSurrogate u then none :: utf16 (v :: r)
    else some (Char.ofNat u) :: utf16 (v :: r)

/-- The text of UTF-16 bytes, with U+FFFD for what is malformed. -/
def ofUtf16 (s : Bytes) : String := String.ofList ((utf16 (units s)).map (·.getD replacement))

def ofLatin1 (s : Bytes) : String := String.ofList (s.map fun b => Char.ofNat b.toNat)

/-- The number that hexadecimal digits denote; a plus sign may stand before them. -/
def hexNumber? (s : Bytes) : Option Nat :=
  let digits := match s with
    | 0x2b :: r => r
    | _ => s
  if digits.isEmpty then none
  else (digits.mapM Byte.hexValue?).map fun ds => ds.foldl (fun n d => n * 16 + d.toNat) 0

end PdfContent.Unicode
