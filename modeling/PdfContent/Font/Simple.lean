import PdfContent.Font.Encoding
import PdfContent.Font.GlyphName
import PdfContent.Store.Basic
/-!
# Simple font — fonts with codes of one byte

The glyph of a code is given by a name, which the encoding and its differences determine.  The name leads to the text
of the code and, in a font whose glyphs are content, to their procedures.
-/
namespace PdfContent

inductive FontType where
  | type1
  | mmType1
  | trueType
  | type3
  | type0
deriving DecidableEq

structure FontFlags where
  bits : Nat
deriving DecidableEq

namespace FontFlags

def none : FontFlags := ⟨0⟩

/-- The flags that have a meaning; the other bits are dropped. -/
def ofBits (n : Nat) : FontFlags := ⟨n &&& 0x7006f⟩

def isSymbolic (f : FontFlags) : Bool := f.bits.testBit 2

def isNonSymbolic (f : FontFlags) : Bool := f.bits.testBit 5

def ofFont (st : Store) (d : Dict) : FontFlags :=
  let descriptor : Option Dict := st.lookup? d "FontDescriptor"
  ((descriptor.bind fun d => (st.lookup? d "Flags" : Option UInt32)).map fun n => ofBits n.toNat).getD none

end FontFlags

structure FontChar where
  code : Nat
  /-- How many bytes of the string it takes. -/
  length : Nat
  /-- Empty if it is unknown. -/
  text : String
  /-- The advance in text space, for a font of size 1. -/
  dx : Float
  dy : Float
  /-- The displacement of the origin of the glyph in vertical writing. -/
  originX : Float
  originY : Float

structure SimpleFont where
  /-- The glyph names of the 256 codes. -/
  names : List (Option String)
  widths : Option (List Float)
  firstCode : Nat
  missingWidth : Float
  /-- From glyph space to text space. -/
  matrix : Affine Float
  /-- Whether widths are in glyph space and not in thousandths. -/
  inGlyphSpace : Bool
  /-- The procedures of the codes that have one. -/
  procedures : List (Nat × Stream)
  resources : Option Dict

namespace SimpleFont

def fallbackWidth : Float := 500

def thousandth : Affine Float := .scale 0.001

def baseEncoding? (n : Name) : Option Encoding :=
  if n == Name.ofText "StandardEncoding" then some .standard
  else if n == Name.ofText "WinAnsiEncoding" then some .winAnsi
  else if n == Name.ofText "MacRomanEncoding" then some .macRoman
  else none

def builtin? (type : FontType) (flags : FontFlags) : Option Encoding :=
  if type = .type3 || flags.isSymbolic && !flags.isNonSymbolic then none
  else if type = .trueType then some .winAnsi
  else some .standard

/-- Names put over those of an encoding: a number tells the code of the names that follow it. -/
def applyDifferences (st : Store) (code : Nat) (names : List (Option String)) : List Object → List (Option String)
  | [] => names
  | o :: r =>
    match st.resolve o with
    | .num n => applyDifferences st (max 0 (min n.toInt 256)).toNat names r
    | .name n => applyDifferences st (code + 1) (names.set code (some n.text)) r
    | _ => applyDifferences st code names r

def glyphNames (st : Store) (d : Dict) (type : FontType) (flags : FontFlags) : List (Option String) :=
  let builtin := builtin? type flags
  let encoding := (d.get? "Encoding").map st.resolve
  let base := match encoding with
    | some (.name n) => (baseEncoding? n).orElse fun _ => builtin
    | some (.dict e) => ((st.lookup? e "BaseEncoding" : Option Name).bind baseEncoding?).orElse fun _ => builtin
    | _ => builtin
  let differences : List Object := match encoding with
    | some (.dict e) => (st.lookup? e "Differences").getD []
    | _ => []
  applyDifferences st 0 ((List.range 256).map fun code => base.bind (·.name? code)) differences

def readProcedures (st : Store) (procs : Dict) (names : List (Option String)) : List (Nat × Stream) :=
  names.zipIdx.filterMap fun (name, code) =>
    name.bind fun name => (st.lookup? procs ⟨Unicode.toUtf8 name⟩ : Option Stream).map fun s => (code, s)

def ofDict (st : Store) (d : Dict) (type : FontType) (flags : FontFlags) : SimpleFont :=
  let names := glyphNames st d type flags
  let number (o : Object) : Float := ((st.as? o : Option Float)).getD 0
  let descriptor : Dict := (st.lookup? d "FontDescriptor").getD .empty
  { names
    widths := (st.lookup? d "Widths" : Option (List Object)).map (·.map number)
    firstCode := ((st.lookup? d "FirstChar" : Option UInt32).getD 0).toNat
    missingWidth := (st.lookup? descriptor "MissingWidth").getD 0
    matrix := if type = .type3 then (st.lookup? d "FontMatrix").getD thousandth else thousandth
    inGlyphSpace := type = .type3
    procedures := if type = .type3 then readProcedures st ((st.lookup? d "CharProcs").getD .empty) names else []
    resources := if type = .type3 then st.lookup? d "Resources" else none }

def width (f : SimpleFont) (code : Nat) : Float :=
  match f.widths with
  | none => fallbackWidth
  | some ws => if f.firstCode ≤ code then ws[code - f.firstCode]?.getD f.missingWidth else f.missingWidth

def procedure? (f : SimpleFont) (code : Nat) : Option Stream := f.procedures.lookup code

def nextChar? (f : SimpleFont) : Bytes → Option FontChar
  | [] => none
  | b :: _ =>
    let code := b.toNat
    let width := f.width code
    let dx := if f.inGlyphSpace then width * f.matrix.a else width / 1000
    some ⟨code, 1, ((f.names[code]?.join).bind GlyphName.text?).getD "", dx, 0, 0, 0⟩

end SimpleFont

end PdfContent
