import PdfContent.Drawing.Image
/-!
# Form — drawing forms, groups and soft masks

A form runs in a saved state, with its own resources, coordinate system and clip.  A group is drawn apart and then
painted as a whole, or becomes the soft mask.
-/
namespace PdfContent

open Scalar

structure Form (α : Type) where
  content : Stream
  bounds : Rect α
  matrix : Affine α
  resources : Dict

inductive FormUse (α : Type) where
  | plain
  | group (g : TransparencyGroup α)
  | softMask (g : TransparencyGroup α) (mask : SoftMask α)

namespace FormUse

def group? {α : Type} : FormUse α → Option (TransparencyGroup α)
  | plain => none
  | group g | softMask g _ => some g

end FormUse

namespace Form

variable {α : Type} [Scalar α]

/-- The form of a stream, if it has bounds.  They are not put in order. -/
def ofStream? (st : Store) (s : Stream) : Option (Form α) :=
  match (st.list? s.dict "BBox" : Option (List Float)) with
  | some [x0, y0, x1, y1] =>
    some ⟨s, ⟨ofFloat x0, ofFloat y0, ofFloat x1, ofFloat y1⟩, (st.lookup? s.dict "Matrix").getD .identity,
      (st.lookup? s.dict "Resources").getD .empty⟩
  | _ => none

def groupSpace (st : Store) (d : Dict) : Checked (Option ColorSpace) :=
  match d.get? "CS" with
  | some o => tolerate ColorSpaceFault.panic? (ColorSpace.ofObject st o)
  | none => .ok none

def group (st : Store) (d : Dict) (bounds : Rect α) (space : Option ColorSpace) (forSoftMask : Bool) :
    TransparencyGroup α :=
  ⟨bounds, space, (st.lookup? d "I").getD false, (st.lookup? d "K").getD false, forSoftMask⟩

def useOf (st : Store) (f : Form α) : Checked (FormUse α) :=
  match (st.lookup? f.content.dict "Group" : Option Dict) with
  | some d =>
    if (st.lookup? d "S" : Option Name) == some (Name.ofText "Transparency") then
      (groupSpace st d).map fun space => .group (group st d f.bounds space false)
    else .ok .plain
  | none => .ok .plain

end Form

namespace Machine

variable {α : Type} [Scalar α]

def enterForm (f : Form α) (use : FormUse α) (m : Machine α) : Machine α :=
  let m := (m.pushResources f.resources).save.clearPath
  let m := match use.group? with
    | some g => (m.tellState .clearSoftMask).tellState (.pushTransparencyGroup · g)
    | none => m
  let m := (((m.multiply f.matrix).setTransform f.matrix).addRect f.bounds)
  ({ m with clips := m.clips.set m.state.path .nonZero }.tellState (.clip · false)).clearPath

/-- Starts a group: it is drawn opaque, and its opacity counts for the whole. -/
def enterGroup (m : Machine α) : Machine α :=
  let m := m.modifyState fun s => { s with blendMode := .normal }
  let m :=
    if m.state.fill.opacity != 1 then
      (m.tell (.setGroupOpacity m.state.fill.opacity)).modifyState fun s =>
        { s with fill := { s.fill with opacity := 1 } }
    else m
  m.modifyState fun s => { s with stroke := { s.stroke with opacity := 1 } }

def leaveForm (use : FormUse α) (m : Machine α) : Machine α :=
  let m := if use.group?.isSome then m.tellState .popTransparencyGroup else m
  let m := m.restoreState.popResources
  match use with
  | .plain => m
  | .group g => m.tellState (.paintTransparencyGroup · g.bounds)
  | .softMask _ mask => (m.tellState (.setSoftMask · mask)).modifyState fun s => { s with softMask := some mask }

def drawForm (env : Environment α) (inner : Inner α) (f : Form α) (use : FormUse α) (m : Machine α) : Machine α :=
  let m := enterForm f use { m with nesting := m.nesting + 1 }
  let m := if use.group?.isSome then m.enterGroup else m
  let base := m.baseMatrix
  let m := runNested env inner f.content { m with baseMatrix := m.state.ctm }
  let m := leaveForm use { m with baseMatrix := base }
  { m with nesting := m.nesting - 1 }

def drawFormStream (env : Environment α) (inner : Inner α) (s : Stream) (m : Machine α) : Machine α :=
  if m.nesting > maxContentNesting then m
  else
    match Form.ofStream? env.store s with
    | none => m.report (.badForm false)
    | some f => m.withChecked (f.useOf env.store) (drawForm env inner f)

def drawObject (env : Environment α) (inner : Inner α) (name : Name) (m : Machine α) : Machine α :=
  match m.requireResource env.store "XObject" "xobject" name with
  | (some (.stream s), m) =>
    match (env.store.lookup? s.dict "Subtype" : Option Name) with
    | some subtype =>
      if subtype == Name.ofText "Image" then m.drawImage env s false
      else if subtype == Name.ofText "Form" then m.drawFormStream env inner s
      else m
    | none => m
  | (_, m) => m

end Machine

end PdfContent
