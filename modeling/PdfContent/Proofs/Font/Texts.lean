import PdfContent.Font.ToUnicode
import PdfContent.Proofs.Font.GlyphRanges
import PdfContent.Proofs.Font.LastEntry
/-!
# Texts — which entry of a program gives the text of a code

A program lists the texts of single codes in some sections and those of ranges of codes in others (`Part`).  The text of
a code is that of the last entry that covers it (`text_of_sections`).  Where a range has one destination of two bytes, the
texts of its codes are consecutive units of UTF-16: incrementing the last byte with a carry into the first one counts
modulo 65536 (`units_increment`).  A range stands for as many insertions into a map as it has codes (`get?_eq_getElem?`).
-/
namespace PdfContent

open Bytes

namespace ToUnicode

/-! ## Programs -/

/-- A string of one to four bytes, as a character code. -/
structure CodeString where
  bytes : Bytes
  nonempty : bytes ≠ []
  short : bytes.length ≤ 4

namespace CodeString

def number (c : CodeString) : Nat := bigEndian c.bytes

end CodeString

/-- The text of one unit of UTF-16; half of a surrogate pair is malformed. -/
def unitText (u : Nat) : String :=
  .singleton (if 0xd800 ≤ u ∧ u < 0xe000 then Unicode.replacement else .ofNat u)

/-- The text of a string: one byte is a character of its own, two bytes are one unit of UTF-16. -/
def stringText : Bytes → String
  | [b] => .singleton (.ofNat b.toNat)
  | [hi, lo] => unitText (hi.toNat * 256 + lo.toNat)
  | s => Unicode.ofUtf16 s

structure CharEntry where
  code : CodeString
  text : Bytes

/-- Where the texts of a range come from: a string of two bytes, from which on they are counted, or an array. -/
inductive Destination where
  | counted (hi lo : UInt8)
  | listed (texts : List Bytes)

structure RangeEntry where
  low : CodeString
  high : CodeString
  destination : Destination
  ordered : low.number ≤ high.number
  narrow : high.number - low.number ≤ 65536

inductive Entry where
  | char (e : CharEntry)
  | range (e : RangeEntry)

/-- The text that an entry gives a code, if it covers the code.  An array covers as many codes as it has elements. -/
def Entry.text? (code : Nat) : Entry → Option String
  | char e => if e.code.number = code then some (stringText e.text) else none
  | range e =>
    if e.low.number ≤ code ∧ code ≤ e.high.number then
      match e.destination with
      | .counted hi lo => some (unitText ((hi.toNat * 256 + lo.toNat + (code - e.low.number)) % 65536))
      | .listed texts => texts[code - e.low.number]?.map stringText
    else none

def CharEntry.operands (e : CharEntry) : List Object := [.str e.code.bytes, .str e.text]

def Destination.operand : Destination → Object
  | counted hi lo => .str [hi, lo]
  | listed texts => .array (texts.map .str)

def RangeEntry.operands (e : RangeEntry) : List Object :=
  [.str e.low.bytes, .str e.high.bytes, e.destination.operand]

/-- A part of a program: a section of codes or of ranges, with the number before it that should be that of its entries,
or any other command. -/
inductive Part where
  | chars (count : Number) (entries : List CharEntry)
  | ranges (count : Number) (entries : List RangeEntry)
  | other (operands : List Object) (command : Bytes) (chars : command ≠ Bytes.ofText "endbfchar")
      (ranges : command ≠ Bytes.ofText "endbfrange")

namespace Part

def row (operands : List Object) (command : Bytes) : List Content.Token :=
  operands.map .operand ++ [.command command]

def items : Part → List Content.Token
  | chars count entries => row [.num count] (Bytes.ofText "beginbfchar") ++
    row (entries.flatMap CharEntry.operands) (Bytes.ofText "endbfchar")
  | ranges count entries => row [.num count] (Bytes.ofText "beginbfrange") ++
    row (entries.flatMap RangeEntry.operands) (Bytes.ofText "endbfrange")
  | other operands command _ _ => row operands command

def entries : Part → List Entry
  | chars _ entries => entries.map .char
  | ranges _ entries => entries.map .range
  | other .. => []

end Part

/-! ## The rows of an entry -/

theorem ofUtf16_unit (hi lo : UInt8) : Unicode.ofUtf16 [hi, lo] = unitText (hi.toNat * 256 + lo.toNat) := by
  unfold Unicode.ofUtf16 Unicode.units unitText
  simp only [pairs, List.map_cons, List.map_nil, Unicode.utf16]
  generalize hi.toNat * 256 + lo.toNat = u
  have surrogate : (Unicode.isHighSurrogate u || Unicode.isLowSurrogate u) = true ↔ 0xd800 ≤ u ∧ u < 0xe000 := by
    simp only [Unicode.isHighSurrogate, Unicode.isLowSurrogate, Bool.or_eq_true, Bool.and_eq_true, decide_eq_true_eq]
    omega
  by_cases h : 0xd800 ≤ u ∧ u < 0xe000
  · rw [if_pos (surrogate.2 h), if_pos h]
    rfl
  · rw [if_neg (mt surrogate.1 h), if_neg h]
    rfl

theorem destination?_str (s : Bytes) : CodeText.destination? (.str s) = some (stringText s) := by
  match s with
  | [] => rfl
  | [b] => rfl
  | [hi, lo] => exact congrArg some (ofUtf16_unit hi lo)
  | _ :: _ :: _ :: _ => rfl

/-- Incrementing counts modulo 65536. -/
theorem units_increment (hi lo : UInt8) (n : Nat) : ∃ hi' lo', CodeText.increment [hi, lo] n = [hi', lo'] ∧
    hi'.toNat * 256 + lo'.toNat = (hi.toNat * 256 + lo.toNat + n) % 65536 := by
  refine ⟨_, _, rfl, ?_⟩
  simp only [UInt8.toNat_add, Nat.toUInt8_eq, UInt8.toNat_ofNat']
  omega

/-- What is inserted for an entry of the table: a text for each of its codes, unless its destination is none. -/
def textRows : CodeText → List (Nat × String)
  | .char code text => [(code, text)]
  | .run low high base => rowsBetween low high fun code =>
    CodeText.destination? (.str (CodeText.increment base (code - low)))

/-- The text of a code is what a map holds for it after the texts of all entries were inserted, code by code. -/
theorem get?_eq_getElem? (m : ToUnicode) (code : Nat) :
    m.get? code = (insertedAll (m.entries.reverse.flatMap textRows))[code]? := by
  have textRows_value (e : CodeText) : LastGiven (rowValue? code) (textRows e) (e.get? code) := by
    cases e with
    | char c text =>
      rw [textRows, lastGiven_singleton, CodeText.get?, rowValue?]
      simp only [beq_iff_eq]
    | run low high base =>
      rw [textRows, CodeText.get?]
      simp only [Bool.and_eq_true, decide_eq_true_eq]
      exact lastGiven_rowsBetween code low high _
  refine (getElem?_insertedAll textRows_value ?_).symm
  rw [lastGiven_iff, List.reverse_reverse, get?]

def Entry.rows : Entry → List CodeText
  | char e => [.char e.code.number (stringText e.text)]
  | range e =>
    match e.destination with
    | .counted hi lo => [.run e.low.number e.high.number [hi, lo]]
    | .listed texts =>
      ((texts.take (e.high.number - e.low.number + 1)).zipIdx e.low.number).map fun row => .char row.2 (stringText row.1)

/-- The rows of an entry give the texts that the entry gives. -/
theorem rows_text (code : Nat) (e : Entry) : LastGiven (CodeText.get? code) e.rows (e.text? code) := by
  match e with
  | .char e =>
    rw [Entry.rows, lastGiven_singleton, Entry.text?, CodeText.get?]
    simp only [beq_iff_eq]
  | .range ⟨low, high, .counted hi lo, _, _⟩ =>
    obtain ⟨hi', lo', unit, count⟩ := units_increment hi lo (code - low.number)
    rw [Entry.rows, lastGiven_singleton, Entry.text?, CodeText.get?]
    simp only [Bool.and_eq_true, decide_eq_true_eq, unit, destination?_str, stringText, count]
  | .range ⟨low, high, .listed texts, ordered, _⟩ =>
    have listed := lastGiven_zipIdx stringText code low.number (texts.take (high.number - low.number + 1))
    rw [Entry.rows, lastGiven_map]
    simp only [CodeText.get?, beq_iff_eq, Entry.text?]
    convert listed using 1
    -- the array covers codes up to the end of the range
    by_cases hl : low.number ≤ code
    · by_cases hh : code ≤ high.number
      · rw [if_pos ⟨hl, hh⟩, if_pos hl, List.getElem?_take_of_lt (by omega)]
      · have past : (texts.take (high.number - low.number + 1)).length ≤ code - low.number := by
          rw [List.length_take]
          omega
        rw [if_neg fun h => hh h.2, if_pos hl, List.getElem?_eq_none past]
        rfl
    · rw [if_neg fun h => hl h.1, if_neg hl]

/-! ## The commands of a program -/

theorem code?_number (c : CodeString) : CMap.code? (.str c.bytes) = some (c.number, c.bytes.length) :=
  CMap.code?_str c.nonempty c.short

theorem ofChar?_entry (e : CharEntry) :
    CodeText.ofChar? (.str e.code.bytes, .str e.text) = some (.char e.code.number (stringText e.text)) := by
  simp only [CodeText.ofChar?, code?_number, destination?_str]
  rfl

theorem ofRange_entry (e : RangeEntry) :
    CodeText.ofRange (.str e.low.bytes, .str e.high.bytes, e.destination.operand) = (Entry.range e).rows := by
  obtain ⟨low, high, destination, ordered, narrow⟩ := e
  have inside : (decide (low.number > high.number) || decide (high.number - low.number > CodeText.maxRange)) = false := by
    rw [Bool.or_eq_false_iff, decide_eq_false_iff_not, decide_eq_false_iff_not]
    exact ⟨Nat.not_lt.2 ordered, Nat.not_lt.2 narrow⟩
  simp only [CodeText.ofRange, code?_number, inside, Bool.false_eq_true, ↓reduceIte]
  cases destination with
  | counted hi lo => rfl
  | listed texts =>
    simp only [Destination.operand, Entry.rows, ← List.map_take, List.zipIdx_map, List.filterMap_map]
    rw [← List.filterMap_eq_map]
    refine congrArg (List.filterMap · _) (funext fun row => ?_)
    simp only [Function.comp_apply, Prod.map, destination?_str, Option.map_some, id_eq]

def listedTexts : Bytes × List Object → List CodeText
  | (command, operands) =>
    if command == Bytes.ofText "endbfchar" then (Bytes.pairs operands).filterMap CodeText.ofChar?
    else if command == Bytes.ofText "endbfrange" then (Bytes.triples operands).flatMap CodeText.ofRange
    else []

def Part.commands : Part → List (Bytes × List Object)
  | chars count entries => [(Bytes.ofText "beginbfchar", [.num count]),
    (Bytes.ofText "endbfchar", entries.flatMap CharEntry.operands)]
  | ranges count entries => [(Bytes.ofText "beginbfrange", [.num count]),
    (Bytes.ofText "endbfrange", entries.flatMap RangeEntry.operands)]
  | other operands command _ _ => [(command, operands)]

/-- Operands wait for the command after them. -/
theorem gather_operands (waiting os : List Object) (items : List Content.Token) :
    CMap.gather waiting (os.map .operand ++ items) = CMap.gather (os.reverse ++ waiting) items := by
  induction os generalizing waiting with
  | nil => rfl
  | cons o os ih => rw [List.map_cons, List.cons_append, CMap.gather, ih, List.reverse_cons, List.append_assoc,
      List.singleton_append]

theorem gather_row (os : List Object) (c : Bytes) (items : List Content.Token) :
    CMap.gather [] (Part.row os c ++ items) = (c, os) :: CMap.gather [] items := by
  rw [Part.row, List.append_assoc, gather_operands, List.append_nil, List.singleton_append, CMap.gather,
    List.reverse_reverse]

theorem gather_parts (parts : List Part) (rest : List Object) :
    CMap.gather [] (parts.flatMap Part.items ++ rest.map .operand) = parts.flatMap Part.commands := by
  induction parts with
  | nil =>
    rw [List.flatMap_nil, List.nil_append, ← List.append_nil (rest.map _), gather_operands]
    rfl
  | cons p parts ih =>
    rw [List.flatMap_cons, List.flatMap_cons, List.append_assoc]
    cases p with
    | chars count entries | ranges count entries =>
      rw [Part.items, List.append_assoc, gather_row, gather_row, ih]
      rfl
    | other operands command _ _ =>
      rw [Part.items, gather_row, ih]
      rfl

/-- The commands of a part end what its entries stand for. -/
theorem listedTexts_part (p : Part) : p.commands.flatMap listedTexts = p.entries.flatMap Entry.rows := by
  cases p with
  | chars count entries =>
    have start : listedTexts (Bytes.ofText "beginbfchar", [.num count]) = [] := rfl
    have rows : listedTexts (Bytes.ofText "endbfchar", entries.flatMap CharEntry.operands) =
        (Bytes.pairs (entries.flatMap CharEntry.operands)).filterMap CodeText.ofChar? := rfl
    have pairs := pairs_flatMap (fun e : CharEntry => .str e.code.bytes) (fun e => Object.str e.text) entries
    rw [Part.commands, List.flatMap_cons, start, List.flatMap_singleton, rows, List.nil_append]
    unfold CharEntry.operands
    rw [pairs, List.filterMap_map, Part.entries, List.flatMap_map]
    simp only [Function.comp_def, ofChar?_entry, Entry.rows, List.filterMap_eq_map', List.map_eq_flatMap]
  | ranges count entries =>
    have start : listedTexts (Bytes.ofText "beginbfrange", [.num count]) = [] := rfl
    have rows : listedTexts (Bytes.ofText "endbfrange", entries.flatMap RangeEntry.operands) =
        (Bytes.triples (entries.flatMap RangeEntry.operands)).flatMap CodeText.ofRange := rfl
    have triples := triples_flatMap (fun e : RangeEntry => .str e.low.bytes) (fun e => .str e.high.bytes)
      (fun e => e.destination.operand) entries
    rw [Part.commands, List.flatMap_cons, start, List.flatMap_singleton, rows, List.nil_append]
    unfold RangeEntry.operands
    rw [triples, List.flatMap_map, Part.entries, List.flatMap_map]
    simp only [ofRange_entry]
  | other operands command chars ranges =>
    rw [Part.commands, List.flatMap_singleton, listedTexts, if_neg fun h => chars (eq_of_beq h),
      if_neg fun h => ranges (eq_of_beq h)]
    rfl

/-- The rows of a program are those of its entries, the last ones first. -/
theorem parse_entries {data : Bytes} {parts : List Part} {rest : List Object}
    (h : (Content.tokens data).map Prod.fst = parts.flatMap Part.items ++ rest.map .operand) :
    (parse data).entries = ((parts.flatMap Part.entries).flatMap Entry.rows).reverse := by
  have rows : (parse data).entries = ((CMap.commands data).flatMap listedTexts).reverse := rfl
  rw [rows, CMap.commands_eq, h, gather_parts, List.flatMap_assoc, List.flatMap_assoc]
  simp only [listedTexts_part]

/-- **The text of a code is that of the last entry that covers it.**  A program has any number of sections of codes and of
ranges, in any order and among any other commands.  Of a range with an array only as many codes are covered as the array
has elements; a range with a string of two bytes gives each of its codes the unit of UTF-16 as far behind the string's
as the code is behind the first one, modulo 65536.  A code that no entry covers has no text. -/
theorem text_of_sections (data : Bytes) (parts : List Part) (rest : List Object)
    (h : (Content.tokens data).map Prod.fst = parts.flatMap Part.items ++ rest.map .operand) (code : Nat) :
    LastGiven (Entry.text? code) (parts.flatMap Part.entries) ((parse data).get? code) := by
  rw [← lastGiven_flatMap (rows_text code), lastGiven_iff, get?, parse_entries h]

def overlapping : Bytes :=
  Bytes.ofText
    "1 beginbfchar <11> <0041> endbfchar 2 beginbfrange <10> <12> <00FE> <20> <30> [<0061> <D835DC00>] endbfrange"

def overlappingParts : List Part :=
  [.chars (.int 1) [⟨⟨[0x11], by decide, by decide⟩, [0x00, 0x41]⟩],
    .ranges (.int 2) [
      ⟨⟨[0x10], by decide, by decide⟩, ⟨[0x12], by decide, by decide⟩, .counted 0x00 0xfe, by decide, by decide⟩,
      ⟨⟨[0x20], by decide, by decide⟩, ⟨[0x30], by decide, by decide⟩, .listed [[0x00, 0x61], [0xd8, 0x35, 0xdc, 0x00]],
        by decide, by decide⟩]]

theorem tokens_overlapping :
    (Content.tokens overlapping).map Prod.fst = overlappingParts.flatMap Part.items ++ [].map .operand := by
  have items : Content.itemsIn? 30 overlapping = some (overlappingParts.flatMap Part.items ++ [].map .operand) := by
    rw [show overlapping = _ from Bytes.ofText_ofList _]
    rfl
  exact Content.items_of_steps items

/-- The range gives code 17 its text and counts past the last byte of its string for code 18; the array ends after code
33, far before the end of its range. -/
theorem range_replaces_code :
    (Content.tokens overlapping).map Prod.fst = overlappingParts.flatMap Part.items ++ [].map .operand ∧
    (parse overlapping).get? 0x11 = some "ÿ" ∧ (parse overlapping).get? 0x12 = some "Ā" ∧
    (parse overlapping).get? 0x21 = some "𝐀" ∧ (parse overlapping).get? 0x22 = none := by
  have last (code : Nat) := lastGiven_iff.1 (text_of_sections overlapping overlappingParts [] tokens_overlapping code)
  refine ⟨tokens_overlapping, ?_, ?_, ?_, ?_⟩
  · exact (last 0x11).symm.trans rfl
  · exact (last 0x12).symm.trans rfl
  · exact (last 0x21).symm.trans rfl
  · exact (last 0x22).symm.trans rfl

end ToUnicode
end PdfContent
