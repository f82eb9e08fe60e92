import PdfContent.Graphics.State
/-!
# Operator — the commands of content streams and the operands they take

Each name stands once in the table.  An operator with a fixed number of operands takes the last ones; more than it needs
may stand before them.
-/
namespace PdfContent

/-- How many operands a command may take at most: the components of a color and the name of a pattern. -/
def maxOperands : Nat := 33

inductive Arity where
  | exact (n : Nat)
  | atMost (n : Nat)
deriving DecidableEq

inductive OperandType where
  | bool
  | num
  | int
  | string
  | name
  | array
  /-- The properties of marked content: a dictionary or a name. -/
  | properties
  /-- A color component or the name of a pattern. -/
  | component
  | any
deriving DecidableEq

namespace OperandType

def accepts : OperandType → Object → Bool
  | bool, .bool _ => true
  | num, .num _ => true
  | int, .num n => n.isInt
  | string, .str _ => true
  | name, .name _ => true
  | array, .array _ => true
  | properties, .dict _ | properties, .name _ => true
  | component, .num _ | component, .name _ => true
  | any, _ => true
  | _, _ => false

end OperandType

inductive DeviceSpace where
  | gray
  | rgb
  | cmyk
deriving DecidableEq

namespace DeviceSpace

def space : DeviceSpace → ColorSpace
  | gray => .deviceGray
  | rgb => .deviceRgb
  | cmyk => .deviceCmyk

end DeviceSpace

structure PathPainting where
  close : Bool
  evenOdd : Bool
  fill : Bool
  stroke : Bool
deriving DecidableEq

namespace PathPainting

def label (p : PathPainting) : String :=
  (if p.close then "close" else "") ++ (if p.evenOdd then "eo" else "") ++ (if p.fill then "fill" else "")
    ++ (if p.stroke then "stroke" else "")

end PathPainting

inductive Operation where
  | save
  | restore
  | concat
  | lineWidth
  | lineCap
  | lineJoin
  | miterLimit
  | dash
  | intent
  | flatness
  /-- Applies a dictionary of parameters. -/
  | parameters
  | moveTo
  | lineTo
  | curveTo
  /-- A curve whose first control point is the current point. -/
  | curveFromCurrent
  /-- A curve whose second control point is its end. -/
  | curveToEnd
  | closePath
  | rectangle
  | endPath
  | paint (how : PathPainting)
  /-- Fills what is inside of the clip path with a shading. -/
  | shade
  | clip (rule : FillRule)
  | deviceColor (part : Part) (space : DeviceSpace)
  | colorSpace (part : Part)
  | color (part : Part)
  | colorOrPattern (part : Part)
  | beginText
  | endText
  | charSpace
  | wordSpace
  | scaling
  | leading
  | font
  | textMode
  | rise
  | moveLine
  /-- Moves to the start of another line and sets the leading. -/
  | moveLineLeading
  | textMatrix
  | nextLine
  | showText
  /-- Shows text on the next line. -/
  | showNextLine
  /-- Sets the spacing and shows text on the next line. -/
  | showSpaced
  /-- Shows strings with adjustments between them. -/
  | showAdjusted
  /-- The metrics of a glyph that is content. -/
  | glyphMetrics
  /-- Draws a form or an image of the resources. -/
  | drawObject
  | inlineImage
  /-- Part of an inline image outside of one. -/
  | stray
  | beginCompatibility
  | endCompatibility
  | beginMarked
  | endMarked
  | markPoint
deriving DecidableEq

structure Operator where
  name : String
  arity : Arity
  /-- What the operands must be; the last one counts for all that follow. -/
  checks : List OperandType
  operation : Operation
deriving DecidableEq

namespace Operator

def check (op : Operator) (i : Nat) : OperandType := op.checks.getD (min i (op.checks.length - 1)) .any

def minOperands (op : Operator) : Nat :=
  match op.arity with
  | .exact n => n
  | .atMost _ => 0

def of (name : String) (checks : List OperandType) (operation : Operation) : Operator :=
  ⟨name, .exact checks.length, checks, operation⟩

def plain (name : String) (operation : Operation) : Operator := of name [] operation

def numbers (name : String) (n : Nat) (operation : Operation) : Operator := of name (List.replicate n .num) operation

def painting (name : String) (close evenOdd fill stroke : Bool) : Operator :=
  plain name (.paint ⟨close, evenOdd, fill, stroke⟩)

/-- The operators, in the order of the bytes of their names. -/
def all : List Operator :=
  [of "\"" [.num, .num, .string] .showSpaced, of "'" [.string] .showNextLine, painting "B" false false true true,
    painting "B*" false true true true, of "BDC" [.name, .properties] .beginMarked, plain "BI" .inlineImage,
    of "BMC" [.name] .beginMarked, plain "BT" .beginText, plain "BX" .beginCompatibility,
    of "CS" [.name] (.colorSpace .stroke), of "DP" [.name, .properties] .markPoint, of "Do" [.name] .drawObject,
    plain "EI" .stray, plain "EMC" .endMarked, plain "ET" .endText, plain "EX" .endCompatibility,
    painting "F" false false true false, numbers "G" 1 (.deviceColor .stroke .gray), plain "ID" .stray,
    of "J" [.int] .lineCap, numbers "K" 4 (.deviceColor .stroke .cmyk), numbers "M" 1 .miterLimit,
    of "MP" [.name] .markPoint, plain "Q" .restore, numbers "RG" 3 (.deviceColor .stroke .rgb),
    painting "S" false false false true, ⟨"SC", .atMost 4, [.num, .num, .num, .num], .color .stroke⟩,
    ⟨"SCN", .atMost maxOperands, [.component], .colorOrPattern .stroke⟩, plain "T*" .nextLine,
    numbers "TD" 2 .moveLineLeading, of "TJ" [.array] .showAdjusted, numbers "TL" 1 .leading,
    numbers "Tc" 1 .charSpace, numbers "Td" 2 .moveLine, of "Tf" [.name, .num] .font, of "Tj" [.string] .showText,
    numbers "Tm" 6 .textMatrix, of "Tr" [.int] .textMode, numbers "Ts" 1 .rise, numbers "Tw" 1 .wordSpace,
    numbers "Tz" 1 .scaling, plain "W" (.clip .nonZero), plain "W*" (.clip .evenOdd),
    painting "b" true false true true, painting "b*" true true true true, numbers "c" 6 .curveTo,
    numbers "cm" 6 .concat, of "cs" [.name] (.colorSpace .fill), of "d" [.array, .num] .dash,
    numbers "d0" 2 .glyphMetrics, numbers "d1" 6 .glyphMetrics, painting "f" false false true false,
    painting "f*" false true true false, numbers "g" 1 (.deviceColor .fill .gray), of "gs" [.name] .parameters,
    plain "h" .closePath, numbers "i" 1 .flatness, of "j" [.int] .lineJoin,
    numbers "k" 4 (.deviceColor .fill .cmyk), numbers "l" 2 .lineTo, numbers "m" 2 .moveTo, plain "n" .endPath,
    plain "q" .save, numbers "re" 4 .rectangle, numbers "rg" 3 (.deviceColor .fill .rgb), of "ri" [.name] .intent,
    painting "s" true false false true, ⟨"sc", .atMost 4, [.num, .num, .num, .num], .color .fill⟩,
    ⟨"scn", .atMost maxOperands, [.component], .colorOrPattern .fill⟩, of "sh" [.name] .shade,
    numbers "v" 4 .curveFromCurrent, numbers "w" 1 .lineWidth, numbers "y" 4 .curveToEnd]

def byName : List (Bytes × Operator) := all.map fun op => (Bytes.ofText op.name, op)

/-- The order of byte strings: that of their first bytes that differ, and what ends first comes first. -/
def order (a b : Bytes) : Ordering := if a < b then .lt else if a = b then .eq else .gt

/-- The element that `side` calls equal, found by halving a list in which the lesser elements stand first.  The half with
the middle element is left unless that one is greater, and only the last element is looked at for equality. -/
def search? {β : Type} (side : β → Ordering) (xs : List β) : Option β :=
  go xs.length xs
where
  go : Nat → List β → Option β
    | 0, _ => none
    | fuel + 1, xs =>
      let half := xs.length / 2
      if half = 0 then xs.head?.filter fun x => side x = .eq
      else if xs[half]?.map side = some .gt then go fuel (xs.take (xs.length - half))
      else go fuel (xs.drop half)

def find? (name : Bytes) : Option Operator := (search? (fun row => order row.1 name) byName).map (·.2)

/-- The place of the first operand that is not of its type. -/
def mismatch? (op : Operator) (operands : List Object) : Option (Nat × Object) :=
  (operands.zipIdx.find? fun (o, i) => !(op.check i).accepts o).map fun (o, i) => (i, o)

def take (op : Operator) (operands : List Object) : Except Diagnostic (List Object) :=
  match op.arity with
  | .exact n =>
    if operands.length < n then .error (.tooFewArguments op.name n operands.length)
    else .ok (operands.drop (operands.length - n))
  | .atMost n =>
    if operands.length > n then .error (.tooManyArguments op.name n operands.length) else .ok operands

/-- The operands for the operator, if there are enough of the right types, or why it cannot be applied. -/
def select (op : Operator) (operands : List Object) : Except Diagnostic (List Object) :=
  (op.take operands).bind fun taken =>
    match op.mismatch? taken with
    | some (i, o) => .error (.argumentType op.name i o.typeName)
    | none => .ok taken

end Operator

/-- The names of the operators that were executed last, the last one first. -/
structure OpHistory where
  names : List String

namespace OpHistory

def empty : OpHistory := ⟨[]⟩

/-- How many names are kept besides that of the current operator. -/
def depth : Nat := 16

def push (h : OpHistory) (name : String) : OpHistory := ⟨(name :: h.names).take (depth + 1)⟩

/-- The operator that was executed `n` operators before the current one, or the empty text. -/
def previous (h : OpHistory) (n : Nat) : String := h.names[n]?.getD ""

end OpHistory

end PdfContent
