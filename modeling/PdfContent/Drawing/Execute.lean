import PdfContent.Drawing.Painting
import PdfContent.Drawing.Parameters
/-!
# Execute — commands, content and the levels of nested content

A command is executed if it is an operator and its operands fit; otherwise nothing but a report happens.  Content is a
fold over its items.  Nested content runs one level further down, and there are more levels than the limits on nesting
let content use.
-/
namespace PdfContent

open Scalar

/-- The operands of an operator, read by place.  A number that is missing counts as 0. -/
structure Operands where
  items : List Object

namespace Operands

variable {α : Type} [Scalar α]

def float (a : Operands) (i : Nat) : Float := ((a.items[i]?.bind Object.number?).map (·.toFloat)).getD 0

def scalar (a : Operands) (i : Nat) : α := ofFloat (a.float i)

def point (a : Operands) (i : Nat) : Point α := ⟨a.scalar i, a.scalar (i + 1)⟩

def matrix (a : Operands) : Affine α :=
  ⟨a.scalar 0, a.scalar 1, a.scalar 2, a.scalar 3, a.scalar 4, a.scalar 5⟩

/-- The rectangle of a corner, a width and a height; it is not put in order. -/
def rect (a : Operands) : Rect α :=
  ⟨a.scalar 0, a.scalar 1, a.scalar 0 + a.scalar 2, a.scalar 1 + a.scalar 3⟩

def int? (a : Operands) : Option Int := (a.items[0]?.bind Object.number?).map (·.toInt)

def name? (a : Operands) : Option Name := a.items[0]?.bind Object.name?

def array? (a : Operands) : Option (List Object) := a.items[0]?.bind Object.array?

def string? (a : Operands) : Option Bytes := a.items.getLast?.bind Object.string?

end Operands

namespace Machine

variable {α : Type} [Scalar α]

def withSome (v : Option β) (f : β → Machine α → Machine α) (m : Machine α) : Machine α :=
  match v with
  | some v => f v m
  | none => m

def restyle (f : State α → State α) (m : Machine α) : Machine α := (m.modifyState f).tellState .updateStyle

def extend (label : String) (f : Outline α → Option (Outline α)) (m : Machine α) : Machine α :=
  match f m.state.outline with
  | some o => m.setOutline o
  | none => m.report (.noCurrentPoint label)

def executeState (env : Environment α) (inner : Inner α) (op : Operator) (a : Operands) (m : Machine α) :
    Machine α :=
  match op.operation with
  | .save => m.save
  | .restore => m.restore
  | .concat => m.concat env a.matrix
  | .lineWidth => m.restyle fun s => { s with lineWidth := a.float 0 }
  | .lineCap => m.restyle fun s => { s with lineCap := (a.int?.bind LineCap.ofInt?).getD s.lineCap }
  | .lineJoin => m.restyle fun s => { s with lineJoin := (a.int?.bind LineJoin.ofInt?).getD s.lineJoin }
  | .miterLimit => m.restyle fun s => { s with miterLimit := a.float 0 }
  | .dash => m.restyle fun s =>
    match a.array?.bind fun items => (env.store.all? items : Option (List Float)) with
    | some dashes => { s with dashes, dashPhase := a.float 1 }
    | none => s
  | .intent => m.withSome a.name? fun n => modifyState fun s => { s with intent := n.text }
  | .flatness => m.modifyState fun s => { s with flatness := a.float 0 }
  | .parameters => m.withSome a.name? (setParameters env inner)
  | .deviceColor part space => m.select part space.space (components a.items) none
  | .colorSpace part => m.withSome a.name? (setColorSpace env part)
  | .color part => m.setColor part op.name a.items
  | .colorOrPattern part => m.setColorOrPattern env part op.name a.items
  | _ => m

def executePath (env : Environment α) (inner : Inner α) (op : Operator) (a : Operands) (m : Machine α) : Machine α :=
  match op.operation with
  | .moveTo => m.setOutline (m.state.outline.move (a.point 0))
  | .lineTo => m.extend "lineto" (·.line? (a.point 0))
  | .curveTo => m.extend "curveto" (·.curve? (a.point 0) (a.point 2) (a.point 4))
  | .curveFromCurrent =>
    m.extend "curveto1" fun o => o.current.bind fun p => o.curve? p (a.point 0) (a.point 2)
  | .curveToEnd => m.extend "curveto2" (·.curve? (a.point 0) (a.point 2) (a.point 2))
  | .closePath => m.extend "closepath" (·.close?)
  | .rectangle => m.addRect a.rect
  | .endPath => m.endPath
  | .paint how => m.paintPath env inner how
  | .shade => m.withSome a.name? (shade env)
  | .clip rule => { m with pendingClip := some rule }
  | _ => m

def executeText (env : Environment α) (inner : Inner α) (op : Operator) (a : Operands) (m : Machine α) : Machine α :=
  match op.operation with
  | .beginText => m.beginText
  | .endText => m.tellState .endText
  | .charSpace => m.modifyText fun t => { t with charSpace := a.scalar 0 }
  | .wordSpace => m.modifyText fun t => { t with wordSpace := a.scalar 0 }
  | .scaling => m.setScaling (a.scalar 0)
  | .leading => m.modifyText fun t => { t with leading := a.scalar 0 }
  | .font => m.withSome a.name? fun n => setFont env n (a.scalar 1)
  | .textMode => m.withSome a.int? setTextMode
  | .rise => m.modifyText fun t => { t with rise := a.scalar 0 }
  | .moveLine => m.moveLine (a.point 0)
  | .moveLineLeading => (m.modifyText fun t => { t with leading := -(a.scalar 1 : α) }).moveLine (a.point 0)
  | .textMatrix => m.setTextMatrix a.matrix
  | .nextLine => m.nextLine
  | .showText => m.withSome a.string? (showText env inner op.name id)
  | .showNextLine => m.withSome a.string? (showText env inner op.name nextLine)
  | .showSpaced => m.withSome a.string? (showText env inner op.name fun m =>
    (m.modifyText fun t => { t with wordSpace := a.scalar 0, charSpace := a.scalar 1 }).nextLine)
  | .showAdjusted => m.withSome a.array? (showAdjusted env inner op.name)
  | _ => m

def executeObject (env : Environment α) (inner : Inner α) (op : Operator) (a : Operands)
    (image : Option Content.ImageSource) (m : Machine α) : Machine α :=
  match op.operation with
  | .drawObject => m.withSome a.name? (drawObject env inner)
  | .inlineImage => m.withSome image (drawInline env)
  | .stray => m.report (.unexpectedOperator op.name)
  | .beginCompatibility => { m with compatibility := m.compatibility + 1 }
  | .endCompatibility => { m with compatibility := m.compatibility - 1 }
  | .beginMarked => { m with markedContent := m.markedContent + 1 }
  | .endMarked =>
    if m.markedContent == 0 then m.report .unbalancedMarkedContent
    else { m with markedContent := m.markedContent - 1 }
  | _ => m

def execute (env : Environment α) (inner : Inner α) (op : Operator) (a : Operands)
    (image : Option Content.ImageSource) (m : Machine α) : Machine α :=
  match op.operation with
  | .save | .restore | .concat | .lineWidth | .lineCap | .lineJoin | .miterLimit | .dash | .intent | .flatness
  | .parameters | .deviceColor .. | .colorSpace _ | .color _ | .colorOrPattern _ => m.executeState env inner op a
  | .moveTo | .lineTo | .curveTo | .curveFromCurrent | .curveToEnd | .closePath | .rectangle | .endPath | .paint _
  | .shade | .clip _ => m.executePath env inner op a
  | .beginText | .endText | .charSpace | .wordSpace | .scaling | .leading | .font | .textMode | .rise | .moveLine
  | .moveLineLeading | .textMatrix | .nextLine | .showText | .showNextLine | .showSpaced | .showAdjusted
  | .glyphMetrics => m.executeText env inner op a
  | .drawObject | .inlineImage | .stray | .beginCompatibility | .endCompatibility | .beginMarked | .endMarked
  | .markPoint => m.executeObject env inner op a image

def perform (env : Environment α) (inner : Inner α) (op : Operator) (taken : List Object)
    (image : Option Content.ImageSource) (m : Machine α) : Machine α :=
  let done := { m with history := m.history.push op.name }.execute env inner op ⟨taken⟩ image
  done.record ⟨op, m.toMoment, done.toMoment⟩

/-- Executes a command with the operands that stand before it.  A command that is no operator, or whose operands do not
fit, is only reported. -/
def command (env : Environment α) (inner : Inner α) (name : Bytes) (operands : List Object)
    (image : Option Content.ImageSource) (m : Machine α) : Machine α :=
  match Operator.find? name with
  | none => if m.compatibility == 0 then m.report (.unknownOperator (Unicode.ofUtf8 name)) else m
  | some op =>
    match op.select operands with
    | .error e => m.report e
    | .ok taken => m.perform env inner op taken image

/-- Takes one item of content: an operand is kept, the last one first, and a command is executed.  Operands that are
too many are dropped. -/
def item (env : Environment α) (inner : Inner α) : List Object × Machine α → Content.Item → List Object × Machine α
  | (operands, m), .operand o stop =>
    if operands.length < maxOperands then (o :: operands, m) else (operands, m.report (.operandOverflow stop.get))
  | (operands, m), .command name image => ([], m.command env inner name operands.reverse image)
  | (_, m), .panic p => ([], m.report (.panic p))

def content (env : Environment α) (inner : Inner α) (items : List Content.Item) (m : Machine α) : Machine α :=
  let (operands, m) := items.foldl (item env inner) ([], m)
  if operands.isEmpty then m else m.report (.leftoverOperands operands.length)

/-- Draws content in which other content may nest to some level. -/
def run (env : Environment α) : Nat → List Content.Item → Machine α → Machine α
  | 0, _, m => m
  | level + 1, items, m => m.content env (run env level) items

/-- The levels that content can use.  Along a chain of nested contents the pair of `nesting` and `glyphDepth` increases
lexicographically, and each of the two has at most `maxContentNesting + 2` values. -/
def levels : Nat := (maxContentNesting + 2) * (maxContentNesting + 2)

end Machine

end PdfContent
