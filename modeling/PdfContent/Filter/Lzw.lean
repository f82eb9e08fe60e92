import PdfContent.Filter.BitReader
/-!
# Lzw — the dictionary coder with codes of 9 to 12 bits

An entry of the table is its last byte and the number of the entry that it extends, so a new one copies nothing.  The
string of an entry is written backwards, from its last byte to its first.
-/
namespace PdfContent.Lzw

def clearCode : Nat := 256

def endCode : Nat := 257

def firstFree : Nat := 258

def maxEntries : Nat := 4096

/-- An entry of the table: the entry it extends, its last byte, and the length of its string. -/
structure Entry where
  parent : Nat
  last : UInt8
  length : Nat

def noParent : Nat := UInt64.size - 1

/-- The table after a clear: the entries of one byte, and two for the special codes. -/
def initial : Array Entry :=
  ((List.range 256).map fun b => ⟨noParent, b.toUInt8, 1⟩).toArray ++ #[⟨noParent, 0, 0⟩, ⟨noParent, 0, 0⟩]

/-- The width of the next code for a table of a given size.  An encoder may widen its codes one entry early. -/
def width (size : Nat) (early : Bool) : Nat :=
  let n := size + (if early then 1 else 0)
  if n < 512 then 9 else if n < 1024 then 10 else if n < 2048 then 11 else 12

/-- Writes the last `n` bytes of the string of an entry from place `start` on, the last one first. -/
def writeFrom (table : Array Entry) (start : Nat) : Nat → Nat → Array UInt8 → Option (Array UInt8)
  | 0, _, out => some out
  | n + 1, code, out =>
    match table[code]? with
    | none => none
    | some e => writeFrom table start n e.parent (out.setIfInBounds (start + n) e.last)

def writeEntry (table : Array Entry) (code : Nat) (out : Array UInt8) : Option (Array UInt8) :=
  match table[code]? with
  | none => none
  | some e => writeFrom table out.size e.length code (out ++ Array.replicate e.length 0)

/-- Puts the string of an entry with one more byte into the table, unless it is full. -/
def pushEntry (table : Array Entry) (parent : Nat) (b : UInt8) : Array Entry :=
  if table.size < maxEntries then
    table.push ⟨parent, b, ((table[parent]?.map (·.length)).getD 0) + 1⟩
  else table

/-- What a decoder knows: the table, the last code since it was cleared, and the output. -/
structure Decoder where
  table : Array Entry
  prev : Option Nat
  out : Array UInt8

namespace Decoder

def start : Decoder := ⟨initial, none, #[]⟩

def clear (d : Decoder) : Decoder := { d with table := d.table.take firstFree, prev := none }

/-- Takes a code of the table, or the next one to be put in.  That stands for the string of the last code and its own
first byte, and needs a last code. -/
def take (d : Decoder) (code : Nat) : Option Decoder :=
  if code < d.table.size then
    (writeEntry d.table code d.out).map fun out =>
      let first := out.getD d.out.size 0
      ⟨(d.prev.map fun p => pushEntry d.table p first).getD d.table, some code, out⟩
  else
    d.prev.bind fun p => (writeEntry d.table p d.out).map fun out =>
      let first := out.getD d.out.size 0
      ⟨pushEntry d.table p first, some code, out.push first⟩

end Decoder

def decodeFrom (early : Bool) : Nat → BitReader → Decoder → Option Bytes
  | 0, _, d => some d.out.toList
  | fuel + 1, r, d =>
    match r.read? (width d.table.size early) with
    | none => some d.out.toList
    | some (code, r) =>
      if code == clearCode then decodeFrom early fuel r d.clear
      else if code == endCode then some d.out.toList
      else if code > d.table.size then some d.out.toList
      else
        match d.take code with
        | none => none
        | some d => decodeFrom early fuel r d

/-- Decodes data; every code takes at least nine of its bits. -/
def decode (early : Bool) (s : Bytes) : Option Bytes := decodeFrom early (s.length + 1) (.ofBytes s) .start

end PdfContent.Lzw
