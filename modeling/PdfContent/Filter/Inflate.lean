import PdfContent.Store.Basic
/-!
# Inflate — decompression of zlib and raw deflate data

The bits of a byte are read from the least significant one up.  Codes are canonical: `Codebook` holds how many codes
there are of each length, and the symbols in the order of their codes, which determines the code of each.

Data that end too early keep all that was decoded.  Where they are wrong, only the pieces stay that had been handed over
before: `handedOver` says how many bytes those have.
-/
namespace PdfContent.Inflate

inductive Outcome where
  /-- The end of the data was reached. -/
  | complete (out : Array UInt8) (pos : Nat)
  /-- The input ends too early; what was decoded up to there. -/
  | truncated (out : Array UInt8)
  /-- The input is wrong; what had been handed over before that was noticed. -/
  | invalid (kept : Array UInt8)

/-- Decoded bytes are handed over in pieces: 32 bytes, and then each time as many as there are so far.  The piece that the
last of `n` bytes belongs to has not been handed over yet. -/
def handedOver (n : Nat) : Nat := if n ≤ 32 then 0 else 1 <<< (n - 1).log2

/-- The end of wrong input, noticed when `n` bytes are written or about to be written. -/
def Outcome.wrong (out : Array UInt8) (n : Nat) : Outcome := .invalid (out.take (handedOver n))

inductive Step (β : Type) where
  | ok (v : β) (pos : Nat)
  | ended
  | wrong

def bit? (data : Array UInt8) (pos : Nat) : Option Nat :=
  data[pos / 8]?.map fun b => (b.toNat >>> (pos % 8)) % 2

/-- The number of `n` bits from a position on, the first bit being the least significant. -/
def bits? (data : Array UInt8) (pos : Nat) : Nat → Option Nat
  | 0 => some 0
  | n + 1 =>
    match bit? data pos, bits? data (pos + 1) n with
    | some b, some v => some (b + 2 * v)
    | _, _ => none

structure Codebook where
  /-- The number of codes of each length, from 1 to the greatest one, which is at least 1. -/
  counts : List Nat
  /-- The symbols in the order of their codes. -/
  symbols : Array Nat

namespace Codebook

def maxLength : Nat := 15

/-- The code in which symbol `i` has a code word of `lengths[i]` bits, or none for length 0.  The words have to use up all
bits, unless there is no word at all or, where `lone` allows it, a single one of one bit. -/
def ofLengths? (lone : Bool) (lengths : List Nat) : Option Codebook :=
  let indexed := lengths.zipIdx
  let ofLength (n : Nat) : List Nat := indexed.filterMap fun (l, i) => if l == n then some i else none
  let longest := lengths.foldl max 0
  let groups := (List.range (max longest 1)).map fun n => ofLength (n + 1)
  -- A word of `l` bits takes the share `1 / 2 ^ l` of all bits.
  let share := lengths.foldl (fun n l => if l == 0 then n else n + (1 <<< (maxLength - l))) 0
  let whole := 1 <<< maxLength
  if longest == 0 || share == whole || (lone && longest == 1 && share < whole) then
    some ⟨groups.map List.length, groups.flatten.toArray⟩
  else none

/-- Reads a code word bit by bit.  Among the words of one length the symbols follow each other; `first` is the first
word of the length and `index` the place of its symbol. -/
def readFrom (book : Codebook) (data : Array UInt8) (pos code first index : Nat) : List Nat → Step Nat
  | [] => .wrong
  | count :: counts =>
    match bit? data pos with
    | none => .ended
    | some b =>
      let code := code + b
      if code < first + count then
        match book.symbols[index + (code - first)]? with
        | some s => .ok s (pos + 1)
        | none => .wrong
      else readFrom book data (pos + 1) (code * 2) ((first + count) * 2) (index + count) counts

def read (book : Codebook) (data : Array UInt8) (pos : Nat) : Step Nat := book.readFrom data pos 0 0 0 book.counts

end Codebook

def lengthTable : Array (Nat × Nat) :=
  #[(3, 0), (4, 0), (5, 0), (6, 0), (7, 0), (8, 0), (9, 0), (10, 0), (11, 1), (13, 1), (15, 1), (17, 1), (19, 2),
    (23, 2), (27, 2), (31, 2), (35, 3), (43, 3), (51, 3), (59, 3), (67, 4), (83, 4), (99, 4), (115, 4), (131, 5),
    (163, 5), (195, 5), (227, 5), (258, 0)]

def distanceTable : Array (Nat × Nat) :=
  #[(1, 0), (2, 0), (3, 0), (4, 0), (5, 1), (7, 1), (9, 2), (13, 2), (17, 3), (25, 3), (33, 4), (49, 4), (65, 5),
    (97, 5), (129, 6), (193, 6), (257, 7), (385, 7), (513, 8), (769, 8), (1025, 9), (1537, 9), (2049, 10), (3073, 10),
    (4097, 11), (6145, 11), (8193, 12), (12289, 12), (16385, 13), (24577, 13)]

def copy (out : Array UInt8) (distance : Nat) : Nat → Array UInt8
  | 0 => out
  | n + 1 => copy (out.push (out.getD (out.size - distance) 0)) distance n

def extended (table : Array (Nat × Nat)) (data : Array UInt8) (pos symbol : Nat) : Step Nat :=
  match table[symbol]? with
  | none => .wrong
  | some (least, extra) =>
    match bits? data pos extra with
    | none => .ended
    | some v => .ok (least + v) (pos + extra)

def endOfBlock : Nat := 256

/-- Decodes the symbols of a block up to its end.  Each takes at least one bit, so the number of bits bounds them. -/
def symbols (literals distances : Codebook) (data : Array UInt8) : Nat → Nat → Array UInt8 → Outcome
  | 0, _, out => .truncated out
  | fuel + 1, pos, out =>
    match literals.read data pos with
    | .ended => .truncated out
    | .wrong => .wrong out out.size
    | .ok symbol pos =>
      if symbol < 256 then symbols literals distances data fuel pos (out.push symbol.toUInt8)
      else if symbol == endOfBlock then .complete out pos
      else
        match extended lengthTable data pos (symbol - 257) with
        | .ended => .truncated out
        | .wrong => .wrong out out.size
        | .ok length pos =>
          match distances.read data pos with
          | .ended => .truncated out
          | .wrong => .wrong out out.size
          | .ok symbol pos =>
            match extended distanceTable data pos symbol with
            | .ended => .truncated out
            | .wrong => .wrong out out.size
            | .ok distance pos =>
              -- That a distance is too large shows once there is room for the byte.
              if distance > out.size then .wrong out (out.size + 1)
              else symbols literals distances data fuel pos (copy out distance length)

/-- A block of bytes that are not compressed: its length, the complement of that, and the bytes. -/
def stored (data : Array UInt8) (pos : Nat) (out : Array UInt8) : Outcome :=
  let pos := (pos + 7) / 8 * 8
  match bits? data pos 16, bits? data (pos + 16) 16 with
  | some n, some complement =>
    if n + complement != 0xffff then .wrong out out.size
    else
      let start := pos / 8 + 4
      let taken := data.extract start (start + n)
      if taken.size < n then .truncated (out ++ taken) else .complete (out ++ taken) ((start + n) * 8)
  | _, _ => .truncated out

def fixedLiterals : List Nat :=
  List.replicate 144 8 ++ List.replicate 112 9 ++ List.replicate 24 7 ++ List.replicate 8 8

def fixedDistances : List Nat := List.replicate 32 5

def lengthOrder : List Nat := [16, 17, 18, 0, 8, 7, 9, 6, 10, 5, 11, 4, 12, 3, 13, 2, 14, 1, 15]

def threeBits (data : Array UInt8) (pos : Nat) : Nat → Option (List Nat)
  | 0 => some []
  | n + 1 =>
    match bits? data pos 3, threeBits data (pos + 3) n with
    | some v, some vs => some (v :: vs)
    | _, _ => none

/-- Reads code lengths until there are at least `total`; `lengths` are those so far, the last one first.  Three symbols
repeat the last length or zeros. -/
def codeLengths (book : Codebook) (data : Array UInt8) (total : Nat) : Nat → Nat → List Nat → Step (List Nat)
  | 0, _, _ => .ended
  | fuel + 1, pos, lengths =>
    if lengths.length ≥ total then .ok lengths.reverse pos
    else
      match book.read data pos with
      | .ended => .ended
      | .wrong => .wrong
      | .ok symbol pos =>
        let repeated (v : Option Nat) (least extra : Nat) : Step (List Nat) :=
          match bits? data pos extra, v with
          | none, _ => .ended
          | some _, none => .wrong
          | some n, some v => codeLengths book data total fuel (pos + extra) (List.replicate (least + n) v ++ lengths)
        if symbol < 16 then codeLengths book data total fuel pos (symbol :: lengths)
        else if symbol == 16 then repeated lengths.head? 3 2
        else if symbol == 17 then repeated (some 0) 3 3
        else repeated (some 0) 11 7

def maxSymbols : Nat × Nat := (286, 30)

/-- Reads the code lengths of a block, whose own code has the lengths `short`.  Where no symbol has a code, each bit
stands for the length 0. -/
def readLengths (short : List Nat) (data : Array UInt8) (pos total : Nat) : Step (List Nat) :=
  if short.all (· == 0) then
    if pos + total ≤ data.size * 8 then .ok (List.replicate total 0) (pos + total) else .ended
  else
    match Codebook.ofLengths? false short with
    | none => .wrong
    | some book => codeLengths book data total (total + 1) pos []

def dynamic (data : Array UInt8) (pos : Nat) (out : Array UInt8) : Outcome :=
  match bits? data pos 5, bits? data (pos + 5) 5, bits? data (pos + 10) 4 with
  | some l, some d, some c =>
    let (l, d, c) := (l + 257, d + 1, c + 4)
    if l > maxSymbols.1 || d > maxSymbols.2 then .wrong out out.size
    else
      match threeBits data (pos + 14) c with
      | none => .truncated out
      | some short =>
        let assigned := lengthOrder.zip short
        let short := (List.range 19).map fun i => (assigned.lookup i).getD 0
        match readLengths short data (pos + 14 + 3 * c) (l + d) with
        | .ended => .truncated out
        | .wrong => .wrong out out.size
        | .ok lengths pos =>
          if lengths.length != l + d || lengths.getD endOfBlock 0 == 0 then .wrong out out.size
          else
            match Codebook.ofLengths? true (lengths.take l), Codebook.ofLengths? true (lengths.drop l) with
            | some literals, some distances => symbols literals distances data (data.size * 8 + 1) pos out
            | _, _ => .wrong out out.size
  | _, _, _ => .truncated out

def block (data : Array UInt8) (kind pos : Nat) (out : Array UInt8) : Outcome :=
  if kind == 0 then stored data pos out
  else if kind == 1 then
    match Codebook.ofLengths? false fixedLiterals, Codebook.ofLengths? false fixedDistances with
    | some literals, some distances => symbols literals distances data (data.size * 8 + 1) pos out
    | _, _ => .wrong out out.size
  else if kind == 2 then dynamic data pos out
  else .wrong out out.size

/-- Decodes blocks up to the last one.  Each takes at least three bits. -/
def blocks (data : Array UInt8) : Nat → Nat → Array UInt8 → Outcome
  | 0, _, out => .truncated out
  | fuel + 1, pos, out =>
    match bits? data pos 1, bits? data (pos + 1) 2 with
    | some last, some kind =>
      match block data kind (pos + 3) out with
      | .complete out pos => if last == 1 then .complete out pos else blocks data fuel pos out
      | other => other
    | _, _ => .truncated out

def raw (s : Bytes) : Outcome := blocks s.toArray (s.length * 8 + 1) 0 #[]

/-- Whether two bytes can start zlib data: the method is deflate, the window at most 32 KiB, there is no preset
dictionary and the check bits are right. -/
def isZlibHeader (a b : UInt8) : Bool :=
  a.toNat % 16 == 8 && a.toNat / 16 ≤ 7 && b.toNat / 32 % 2 == 0 && (a.toNat * 256 + b.toNat) % 31 == 0

/-- The Adler-32 checksum: the sum of the bytes, starting from 1, and the sum of those sums, modulo the largest prime
below `2 ^ 16`. -/
def checksum (out : Array UInt8) : Nat :=
  let (a, b) := out.foldl (fun (a, b) x =>
    let a := (a + x.toNat) % 65521
    (a, (b + a) % 65521)) (1, 0)
  b * 65536 + a

/-- Decodes zlib data, which end with the checksum in four bytes. -/
def zlib (s : Bytes) : Outcome :=
  match s with
  | a :: b :: r =>
    if isZlibHeader a b then
      match raw r with
      | .complete out pos =>
        let sum := (r.drop ((pos + 7) / 8)).take 4
        if sum.length < 4 then .truncated out
        else if Bytes.bigEndian sum != checksum out then .wrong out out.size
        else .complete out pos
      | other => other
    else .invalid #[]
  | _ => .truncated #[]

def Outcome.inflated : Outcome → Inflated
  | .complete out _ => ⟨out.toList, true⟩
  | .truncated out | .invalid out => ⟨out.toList, false⟩

def decompressor : Decompressor := ⟨fun s => (zlib s).inflated, fun s => (raw s).inflated⟩

end PdfContent.Inflate
