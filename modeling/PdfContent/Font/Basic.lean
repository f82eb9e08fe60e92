import PdfContent.Emission
import PdfContent.Font.Composite
import PdfContent.Font.ToUnicode
/-!
# Font — the characters of strings, their advances and their text

Outlines of glyphs are not read, except that the glyphs of some fonts are content, which can be drawn.
-/
namespace PdfContent

inductive FontKind where
  | simple (f : SimpleFont)
  | composite (f : CompositeFont)

structure Font where
  type : FontType
  baseFont : Option Name
  flags : FontFlags
  toUnicode : Option ToUnicode
  kind : FontKind

namespace Font

def types : List (Name × FontType) :=
  [("Type1", .type1), ("MMType1", .mmType1), ("TrueType", .trueType), ("Type3", .type3), ("Type0", .type0)]

def ofDict (st : Store) (d : Dict) : Except Diagnostic Font := do
  let some subtype := (st.lookup? d "Subtype" : Option Name) | throw (.missingResource "font" "no subtype")
  let some type := types.lookup subtype | throw (.missingResource "font" ("unknown subtype " ++ subtype.text))
  let program : Option Bytes ← match (st.lookup? d "ToUnicode" : Option Stream) with
    | some s => (s.decoded? st).mapError .panic
    | none => pure none
  let toUnicode := program.map ToUnicode.parse
  let baseFont : Option Name := st.lookup? d "BaseFont"
  if type = .type0 then
    let f ← CompositeFont.ofDict st d
    return ⟨type, baseFont, f.flags, toUnicode, .composite f⟩
  else
    let flags := FontFlags.ofFont st d
    return ⟨type, baseFont, flags, toUnicode, .simple (.ofDict st d type flags)⟩

def isVertical (f : Font) : Bool :=
  match f.kind with
  | .simple _ => false
  | .composite c => c.cmap.vertical

def isSimple (f : Font) : Bool :=
  match f.kind with
  | .simple _ => true
  | .composite _ => false

def matrix (f : Font) : Affine Float :=
  match f.kind with
  | .simple s => s.matrix
  | .composite _ => SimpleFont.thousandth

def procedure? (f : Font) (code : Nat) : Option Stream :=
  match f.kind with
  | .simple s => s.procedure? code
  | .composite _ => none

def resources? (f : Font) : Option Dict :=
  match f.kind with
  | .simple s => s.resources
  | .composite _ => none

def nextChar? (f : Font) (s : Bytes) : Checked (Option FontChar) :=
  let char : Checked (Option FontChar) := match f.kind with
    | .simple g => .ok (g.nextChar? s)
    | .composite g => g.nextChar? s
  char.map fun c => c.map fun c =>
    match f.toUnicode.bind fun m => m.get? c.code with
    | some text => { c with text }
    | none => c

def chars (f : Font) (s : Bytes) : Emission FontChar :=
  go s.length s
where
  go : Nat → Bytes → Emission FontChar
    | 0, _ => .nil
    | fuel + 1, s => .after (f.nextChar? s) fun
      | none => .nil
      | some c => .one c ++ go fuel (s.drop (max c.length 1))

end Font

end PdfContent
