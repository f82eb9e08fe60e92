import PdfContent.Content.Token
/-!
# CMap — character codes of several bytes and the glyphs they select

A character map is a program, but only a few of its commands matter: those that end a list of ranges, and the writing
mode.  Its tokens are those of a content stream.
-/
namespace PdfContent

structure CodeRange where
  low : Nat
  high : Nat
  length : Nat

/-- The codes between two bounds, which select consecutive glyphs from `glyph` on. -/
structure GlyphRange where
  low : Nat
  high : Nat
  glyph : Nat

structure CMap where
  codespace : List CodeRange
  /-- In ascending order of their lower bounds; of ranges with one lower bound, the last one comes last. -/
  ranges : List GlyphRange
  vertical : Bool
  /-- Whether a code that is in no range selects the glyph of its own number. -/
  identity : Bool

namespace CodeRange

def contains (r : CodeRange) (code length : Nat) : Bool := r.length == length && r.low ≤ code && code ≤ r.high

end CodeRange

namespace CMap

def twoBytes : List CodeRange := [⟨0, 0xffff, 2⟩]

/-- The map in which every code of two bytes selects the glyph of its own number. -/
def ofIdentity (vertical : Bool) : CMap := ⟨twoBytes, [], vertical, true⟩

def predefined? (n : Name) : Option CMap :=
  if n == Name.ofText "Identity-H" then some (ofIdentity false)
  else if n == Name.ofText "Identity-V" then some (ofIdentity true)
  else none

def commands (data : Bytes) : List (Bytes × List Object) :=
  go [] (Content.tokens data)
where
  go (operands : List Object) : List (Content.Token × Bytes) → List (Bytes × List Object)
    | [] => []
    | (.operand o, _) :: r => go (o :: operands) r
    | (.command c, _) :: r => (c, operands.reverse) :: go [] r

def code? (o : Object) : Option (Nat × Nat) :=
  (o.string?.filter fun s => !s.isEmpty && s.length ≤ 4).map fun s => (Bytes.bigEndian s, s.length)

def glyph? (o : Object) : Option Nat :=
  (o.number?.filter fun n => 0 ≤ n.toInt && n.toInt < (UInt32.size : Int)).map fun n => n.toInt.toNat

def codeRange? : Object × Object → Option CodeRange
  | (low, high) => do
    let (l, length) ← code? low
    let (h, _) ← code? high
    return ⟨l, h, length⟩

def glyphChar? : Object × Object → Option GlyphRange
  | (code, glyph) => do
    let (c, _) ← code? code
    return ⟨c, c, ← glyph? glyph⟩

def glyphRange? : Object × Object × Object → Option GlyphRange
  | (low, high, glyph) => do
    let (l, _) ← code? low
    let (h, _) ← code? high
    let g ← glyph? glyph
    if l ≤ h then some ⟨l, h, g⟩ else none

/-- The map after a command.  Using another map only counts before the first range of glyphs. -/
def apply (m : CMap) : Bytes × List Object → CMap
  | (command, operands) =>
    if command == Bytes.ofText "endcodespacerange" then
      { m with codespace := m.codespace ++ (Bytes.pairs operands).filterMap codeRange? }
    else if command == Bytes.ofText "endcidchar" then
      { m with ranges := m.ranges ++ (Bytes.pairs operands).filterMap glyphChar? }
    else if command == Bytes.ofText "endcidrange" then
      { m with ranges := m.ranges ++ (Bytes.triples operands).filterMap glyphRange? }
    else if command == Bytes.ofText "def" then
      match operands with
      | [.name n, .num v] => if n == Name.ofText "WMode" then { m with vertical := v.toInt == 1 } else m
      | _ => m
    else if command == Bytes.ofText "usecmap" then
      match (operands.getLast?.bind Object.name?).bind predefined? with
      | some parent =>
        { m with
          identity := m.ranges.isEmpty
          codespace := if m.codespace.isEmpty then parent.codespace else m.codespace }
      | none => m
    else m

/-- The map that a program defines.  Without ranges of codes, all codes have two bytes. -/
def parse (data : Bytes) : CMap :=
  let m := (commands data).foldl apply ⟨[], [], false, false⟩
  { m with
    codespace := if m.codespace.isEmpty then twoBytes else m.codespace
    ranges := m.ranges.mergeSort fun r s => r.low ≤ s.low }

/-- The first code of a string and how many bytes it takes: the shortest one that is in a range.  If there is none, as
many bytes are taken as the shortest range has. -/
def nextCode? (m : CMap) (s : Bytes) : Option (Nat × Nat) :=
  if s.isEmpty then none
  else
    let found := (List.range' 1 (min s.length 4)).find? fun n =>
      m.codespace.any (·.contains (Bytes.bigEndian (s.take n)) n)
    let length := found.getD (min ((m.codespace.map (·.length)).min?.getD 1) s.length)
    some (Bytes.bigEndian (s.take length), length)

/-- How many elements stand before the first one without a property, found by halving.  Those with the property have to
stand before all others. -/
def boundary (p : β → Bool) (xs : List β) : Nat :=
  go xs.length xs
where
  go : Nat → List β → Nat
    | 0, _ => 0
    | fuel + 1, xs =>
      let middle := xs.length / 2
      match xs.drop middle with
      | [] => 0
      | x :: back => if p x then middle + 1 + go fuel back else go fuel (xs.take middle)

/-- The glyph of a code: of the ranges that begin at the code or before it, the last one that holds it counts. -/
def glyph (m : CMap) (code : Nat) : Checked Nat :=
  let begun := m.ranges.take (boundary (fun r => r.low ≤ code) m.ranges)
  match begun.reverse.find? fun r => r.low ≤ code && code ≤ r.high with
  | some r => Word.add32 r.glyph (code - r.low)
  | none => .ok (if m.identity then code else 0)

end CMap

end PdfContent
