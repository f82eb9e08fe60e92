import PdfContent.Drawing.Machine
/-!
# Color — the operators that select colors
-/
namespace PdfContent.Machine

open Scalar

variable {α : Type} [Scalar α]

/-- The numbers among the operands of an operator; what is no number counts as 0. -/
def components (operands : List Object) : Color :=
  operands.map fun o => (o.number?.map fun n => Single.ofFloat n.toFloat).getD 0

def select (part : Part) (space : ColorSpace) (color : Color) (pattern : Option (Pattern α)) (m : Machine α) :
    Machine α :=
  (m.modifyState fun s => s.setInk { s.ink part with space, color, pattern } part).tellState .updateStyle

/-- Selects a color space by name, with its default color. -/
def setColorSpace (env : Environment α) (part : Part) (name : Name) (m : Machine α) : Machine α :=
  let m := m.modifyState fun s => s.setInk { s.ink part with pattern := none } part
  match ColorSpace.ofObject env.store ((m.resource? env.store "ColorSpace" name).getD (.name name)) with
  | .ok space => m.withChecked space.defaultColor fun color => select part space color none
  | .error e => m.report (.badColorSpace e)

def setColor (part : Part) (op : String) (operands : List Object) (m : Machine α) : Machine α :=
  let space := (m.state.ink part).space
  if operands.length != space.components then
    m.report (.colorComponentCount op space.components operands.length)
  else m.select part space (components operands) none

def findPattern (env : Environment α) (name : Name) (m : Machine α) : Option (Pattern α) × Machine α :=
  match m.requireResource env.store "Pattern" "pattern" name with
  | (none, m) => (none, m)
  | (some o, m) =>
    match Pattern.ofObject env.store o with
    | .ok p => (some p, m)
    | .error e => (none, m.report e)

/-- The color of an uncolored pattern, which stands before its name. -/
def patternColor (ink : Ink α) (op : String) (operands : List Object) : Except Diagnostic Color :=
  if operands.length ≤ 1 then .ok ink.color
  else
    match ink.space.under? with
    | none => .error (.colorComponentCount op 1 operands.length)
    | some under =>
      if operands.length - 1 != under.components then
        .error (.colorComponentCount op (under.components + 1) operands.length)
      else .ok (components operands.dropLast)

/-- Selects a color of the current space or, in a space of patterns, a pattern. -/
def setColorOrPattern (env : Environment α) (part : Part) (op : String) (operands : List Object) (m : Machine α) :
    Machine α :=
  let ink := m.state.ink part
  if !ink.space.isPattern then m.setColor part op operands
  else
    match patternColor ink op operands with
    | .error e => m.report e
    | .ok color =>
      match operands.getLast?.bind Object.name? with
      | some name =>
        let (pattern, m) := m.findPattern env name
        m.select part ink.space color pattern
      | none => m.select part ink.space color ink.pattern

end PdfContent.Machine
