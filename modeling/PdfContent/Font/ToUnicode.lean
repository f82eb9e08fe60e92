import PdfContent.Font.CMap
/-!
# ToUnicode — the text of character codes
-/
namespace PdfContent

inductive CodeText where
  | char (code : Nat) (text : String)
  /-- The codes between two bounds; the destination of each is that of the one before, incremented. -/
  | run (low high : Nat) (base : Bytes)

namespace CodeText

/-- How many codes a range may have after its first. -/
def maxRange : Nat := 65536

/-- The text of a destination: one character for a single byte, else UTF-16.  Names stand for themselves. -/
def destination? : Object → Option String
  | .str [b] => some (Unicode.ofLatin1 [b])
  | .str s => some (Unicode.ofUtf16 s)
  | .name n => some n.text
  | _ => none

/-- A destination with its last byte incremented; a carry goes to the byte before it and no further. -/
def increment (base : Bytes) (offset : Nat) : Bytes :=
  match base.reverse with
  | [] => []
  | [b] => [(b.toNat + offset).toUInt8]
  | b :: c :: r =>
    let sum := b.toNat + offset
    (sum.toUInt8 :: (c + (sum / 256).toUInt8) :: r).reverse

def ofChar? : Object × Object → Option CodeText
  | (code, text) => do
    let (c, _) ← CMap.code? code
    return char c (← destination? text)

/-- The entries of a range, whose destinations are either listed or counted up from the first one. -/
def ofRange : Object × Object × Object → List CodeText
  | (low, high, first) =>
    match CMap.code? low, CMap.code? high with
    | some (l, _), some (h, _) =>
      if l > h || h - l > maxRange then []
      else
        match first with
        | .array items => ((items.take (h - l + 1)).zipIdx l).filterMap fun (o, c) => (destination? o).map (char c)
        | .str base => if base.isEmpty then [] else [run l h base]
        | _ => []
    | _, _ => []

def get? (code : Nat) : CodeText → Option String
  | char c text => if c == code then some text else none
  | run low high base =>
    if low ≤ code && code ≤ high then destination? (.str (increment base (code - low))) else none

end CodeText

structure ToUnicode where
  /-- Later definitions come first, since they replace earlier ones. -/
  entries : List CodeText

namespace ToUnicode

def parse (data : Bytes) : ToUnicode :=
  ⟨((CMap.commands data).flatMap fun (command, operands) =>
    if command == Bytes.ofText "endbfchar" then (Bytes.pairs operands).filterMap CodeText.ofChar?
    else if command == Bytes.ofText "endbfrange" then (Bytes.triples operands).flatMap CodeText.ofRange
    else []).reverse⟩

def get? (m : ToUnicode) (code : Nat) : Option String := m.entries.findSome? (CodeText.get? code)

end ToUnicode

end PdfContent
