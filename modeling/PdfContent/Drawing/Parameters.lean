import PdfContent.Drawing.Form
import PdfContent.Drawing.Text
/-!
# Parameters — graphics state parameter dictionaries

The entries are independent of each other, except that the soft mask is drawn last, with all others in effect.
-/
namespace PdfContent

open Scalar

namespace BlendMode

/-- The mode that an object names; of an array, the first that is known. -/
def ofObject? (st : Store) (o : Object) : Option BlendMode :=
  match st.resolve o with
  | .name n => ofName? n
  | .array items => items.findSome? fun o => o.name?.bind ofName?
  | _ => none

end BlendMode

namespace Transfer

/-- The transfer function of an object: none, one for all components or one for each of four. -/
def ofObject (st : Store) (o : Object) : Except Diagnostic (Option Transfer) :=
  match st.resolve o with
  | .name n =>
    if n == Name.ofText "Default" || n == Name.ofText "Identity" then .ok none
    else .error (.badExtGState .badTransfer)
  | .array items =>
    if items.length == 4 then
      ((items.mapM (Function.ofObject st)).mapError .unsupportedFunction).map fun fs => some (.perComponent fs)
    else .error (.badExtGState .badTransfer)
  | .dict d => ((Function.ofObject st (.dict d)).mapError .unsupportedFunction).map fun f => some (.single f)
  | .stream s => ((Function.ofObject st (.stream s)).mapError .unsupportedFunction).map fun f => some (.single f)
  | _ => .error (.badExtGState .badTransfer)

/-- The transfer function of a soft mask, which takes and gives one number. -/
def ofMask (st : Store) (d : Dict) : Except ExtGStateFault (Option Transfer) :=
  match (d.get? "TR").map st.resolve with
  | none => .ok none
  | some o =>
    if o.name? == some (Name.ofText "Identity") then .ok none
    else
      match Function.ofObject st o with
      | .ok f =>
        if f.domain.length == 1 && f.outputs? == some 1 then .ok (some (.single f)) else .error .badMaskTransfer
      | .error e =>
        match e.panic? with
        | some p => .error (.panic p)
        | none => .error .badMaskTransfer

end Transfer

structure MaskSource where
  /-- Whether the mask is the alpha channel of its group. -/
  alpha : Bool
  transfer : Option Transfer
  content : Stream
  group : Dict
  space : Option ColorSpace
  backdrop : Color

namespace SoftMask

/-- Whether the mask is the alpha channel of its group. -/
def readAlpha (st : Store) (d : Dict) : Except ExtGStateFault Bool :=
  match (st.lookup? d "S" : Option Name) with
  | some n =>
    if n == Name.ofText "Alpha" then .ok true
    else if n == Name.ofText "Luminosity" then .ok false
    else .error .badSoftMaskType
  | none => .error .badSoftMaskType

def readForm (st : Store) (d : Dict) : Except ExtGStateFault (Stream × Dict) :=
  match (st.lookup? d "G" : Option Stream) with
  | none => .error .noMaskForm
  | some s =>
    match (st.lookup? s.dict "Group" : Option Dict) with
    | none => .error .noMaskGroup
    | some group => .ok (s, group)

/-- The color behind the group of a soft mask: the one that is given, or the default one of the space of the group. -/
def readBackdrop (st : Store) (d : Dict) (space : Option ColorSpace) : Checked Color :=
  match (st.list? d "BC" : Option Color), space with
  | some color, _ => .ok color
  | none, some space => space.defaultColor
  | none, none => .ok []

end SoftMask

namespace Machine

variable {α : Type} [Scalar α]

def drawSoftMask (env : Environment α) (inner : Inner α) (source : MaskSource) (m : Machine α) : Machine α :=
  if m.nesting > maxContentNesting then m
  else
    match (Form.ofStream? env.store source.content : Option (Form α)) with
    | none => m.report (.badForm true)
    | some f =>
      m.drawForm env inner f (.softMask (Form.group env.store source.group f.bounds source.space true)
        ⟨f.bounds, source.alpha, source.transfer, source.backdrop⟩)

def readSoftMask (env : Environment α) (d : Dict) : Except ExtGStateFault MaskSource := do
  let alpha ← SoftMask.readAlpha env.store d
  let transfer ← Transfer.ofMask env.store d
  let (content, group) ← SoftMask.readForm env.store d
  let space ← (Form.groupSpace env.store group).mapError .panic
  let backdrop ← (SoftMask.readBackdrop env.store d space).mapError .panic
  return ⟨alpha, transfer, content, group, space, backdrop⟩

def setSoftMask (env : Environment α) (inner : Inner α) (o : Object) (m : Machine α) : Machine α :=
  match o with
  | .name n =>
    if n == Name.ofText "None" then
      (m.modifyState fun s => { s with softMask := none }).tellState .clearSoftMask
    else m.report (.badExtGState .badSoftMask)
  | .dict d =>
    match readSoftMask env d with
    | .ok source => m.drawSoftMask env inner source
    | .error e => m.report (.badExtGState e)
  | _ => m.report (.badExtGState .badSoftMask)

def modifyWith (v : Option β) (f : State α → β → State α) (m : Machine α) : Machine α :=
  match v with
  | some v => m.modifyState (f · v)
  | none => m

/-- Sets the dash pattern, an array of an array and the phase.  The array counts even without a phase. -/
def setDashes (st : Store) (d : Dict) (m : Machine α) : Machine α :=
  match (st.lookup? d "D" : Option (List Object)) with
  | none => m
  | some items =>
    match (st.item? items 0 : Option (List Object)).bind fun a => (st.all? a : Option (List Float)) with
    | none => m
    | some dashes =>
      (m.modifyState fun s => { s with dashes }).modifyWith (st.item? items 1) fun s dashPhase => { s with dashPhase }

def setFontParameter (env : Environment α) (d : Dict) (m : Machine α) : Machine α :=
  match (env.store.lookup? d "Font" : Option (List Object)) with
  | some (o :: size :: _) =>
    match (env.store.as? size : Option Float) with
    | some size => let (font, m) := m.loadFont env o; m.useFont font (ofFloat size)
    | none => m
  | _ => m

def setTransfer (st : Store) (o : Object) (m : Machine α) : Machine α :=
  match Transfer.ofObject st o with
  | .ok transfer => m.modifyState fun s => { s with transfer }
  | .error e => m.report e

def setBlendMode (st : Store) (o : Object) (m : Machine α) : Machine α :=
  match BlendMode.ofObject? st o with
  | some blendMode => m.modifyState fun s => { s with blendMode }
  | none => m.report (.badExtGState .badBlendMode)

/-- Sets the overprint of strokes, and of fills unless they have an entry of their own. -/
def setOverprint (d : Dict) (overprint : Option Bool) (m : Machine α) : Machine α :=
  m.modifyWith overprint fun s overprint =>
    { s with
      stroke := { s.stroke with overprint }
      fill := if d.contains "op" then s.fill else { s.fill with overprint } }

/-- Applies an entry of a dictionary of parameters.  A value of a wrong type is ignored, as is an unknown key. -/
def setParameter (env : Environment α) (d : Dict) (m : Machine α) : Name × Object → Machine α
  | (key, o) =>
    let st := env.store
    if key == Name.ofText "LW" then m.modifyWith (st.as? o) fun s lineWidth => { s with lineWidth }
    else if key == Name.ofText "LC" then
      m.modifyWith ((st.as? o).bind LineCap.ofInt?) fun s lineCap => { s with lineCap }
    else if key == Name.ofText "LJ" then
      m.modifyWith ((st.as? o).bind LineJoin.ofInt?) fun s lineJoin => { s with lineJoin }
    else if key == Name.ofText "ML" then m.modifyWith (st.as? o) fun s miterLimit => { s with miterLimit }
    else if key == Name.ofText "D" then m.setDashes st d
    else if key == Name.ofText "RI" then
      m.modifyWith (st.as? o : Option Name) fun s intent => { s with intent := intent.text }
    else if key == Name.ofText "FL" then m.modifyWith (st.as? o) fun s flatness => { s with flatness }
    else if key == Name.ofText "Font" then m.setFontParameter env d
    else if key == Name.ofText "BM" then m.setBlendMode st o
    else if key == Name.ofText "ca" then
      m.modifyWith (st.as? o) fun s opacity => { s with fill := { s.fill with opacity } }
    else if key == Name.ofText "CA" then
      m.modifyWith (st.as? o) fun s opacity => { s with stroke := { s.stroke with opacity } }
    else if key == Name.ofText "op" then
      m.modifyWith (st.as? o) fun s overprint => { s with fill := { s.fill with overprint } }
    else if key == Name.ofText "OP" then m.setOverprint d (st.as? o)
    else if key == Name.ofText "OPM" then
      m.modifyWith (st.as? o : Option UInt8) fun s mode => { s with overprintMode := mode.toNat }
    else if key == Name.ofText "SA" then m.modifyWith (st.as? o) fun s strokeAdjust => { s with strokeAdjust }
    else if key == Name.ofText "TR2" then m.setTransfer st o
    else if key == Name.ofText "TR" then if d.contains "TR2" then m else m.setTransfer st o
    else m

def setParameters (env : Environment α) (inner : Inner α) (name : Name) (m : Machine α) : Machine α :=
  match m.requireResource env.store "ExtGState" "ExtGState" name with
  | (none, m) => m
  | (some (.dict d), m) =>
    let m := d.entries.foldl (setParameter env d) m
    let m := match d.get? "SMask" with
      | some o => m.setSoftMask env inner (env.store.resolve o)
      | none => m
    m.tellState .updateStyle
  | (some _, m) => m.report (.badExtGState .notDictionary)

end Machine

end PdfContent
