import PdfContent.Content.Item
import PdfContent.Content.Operator
import PdfContent.Drawing.Call
import PdfContent.Shading.Tessellation
/-!
# Machine — the interpreter's state and the steps that all operators are made of

`save` and `restoreState` keep the graphics state, the clip and the builder in step: each of them does one thing to all
three.  Everything that is told to the builder goes through `tell`.  A machine is a `Moment` together with the operators
that led to it, so a statement about a whole drawing can speak of every moment in it.
-/
namespace PdfContent

open Scalar

/-- How deeply forms, soft masks, tilings and glyphs that are content may nest. -/
def maxContentNesting : Nat := 20

/-- What drawing does not change. -/
structure Environment (α : Type) where
  store : Store
  builder : Builder α
  /-- Whether glyphs that are content are drawn; otherwise they are shown like other characters. -/
  drawsGlyphs : Bool
  /-- The precision that content starts with. -/
  precision : ShadingPrecision

structure Moment (α : Type) where
  log : Log α
  state : State α
  /-- The saved states, the last one first. -/
  saved : List (State α)
  clips : ClipHistory α
  /-- The resources, the innermost first. -/
  resources : List Dict
  history : OpHistory
  /-- The space of patterns: that of the page or of the form. -/
  baseMatrix : Affine α
  /-- The first transform that was set on a group. -/
  firstTransform : Option (Affine α)
  /-- The clip that the end of the path puts into effect. -/
  pendingClip : Option FillRule
  /-- Whether the builder has not been told the current font. -/
  fontChanged : Bool
  /-- How many sections are open in which unknown operators are ignored. -/
  compatibility : Nat
  markedContent : Nat
  /-- How many saved states are not the content's own. -/
  baseDepth : Nat
  /-- How many saved states the content at work may not restore. -/
  restoreFloor : Nat
  /-- How many forms, soft masks and tilings are being drawn. -/
  nesting : Nat
  /-- How many glyphs that are content are being drawn. -/
  glyphDepth : Nat
  precision : ShadingPrecision

structure Executed (α : Type) where
  operator : Operator
  before : Moment α
  after : Moment α

structure Machine (α : Type) extends Moment α where
  /-- Which operators were executed so far.  A proposition, so nothing is kept for it while content is drawn. -/
  executed : Executed α → Prop

abbrev Inner (α : Type) := List Content.Item → Machine α → Machine α

namespace Machine

variable {α : Type} [Scalar α]

def start (env : Environment α) (log : Log α) (resources : Dict) (ctm : Affine α) : Machine α :=
  { log, state := .initial ctm, saved := [], clips := .empty, resources := [resources], history := .empty,
    baseMatrix := ctm, firstTransform := none, pendingClip := none, fontChanged := false, compatibility := 0,
    markedContent := 0, baseDepth := 0, restoreFloor := 0, nesting := 0, glyphDepth := 0,
    precision := env.precision, executed := fun _ => False }

def tell (c : Call α) (m : Machine α) : Machine α := { m with log := .call c :: m.log }

def report (d : Diagnostic) (m : Machine α) : Machine α := { m with log := .report d :: m.log }

def reportAll (ds : List Diagnostic) (m : Machine α) : Machine α := ds.foldl (fun m d => m.report d) m

def record (e : Executed α) (m : Machine α) : Machine α := { m with executed := fun x => x = e ∨ m.executed x }

def tellState (c : State α → Call α) (m : Machine α) : Machine α := m.tell (c m.state)

def modifyState (f : State α → State α) (m : Machine α) : Machine α := { m with state := f m.state }

def modifyText (f : TextState α → TextState α) (m : Machine α) : Machine α :=
  m.modifyState fun s => { s with text := f s.text }

def setOutline (o : Outline α) (m : Machine α) : Machine α := m.modifyState fun s => { s with outline := o }

def clearPath (m : Machine α) : Machine α := m.setOutline .empty

def addRect (r : Rect α) (m : Machine α) : Machine α := m.setOutline (m.state.outline.rect r)

/-- Saves the graphics state, that of the builder and the clip. -/
def save (m : Machine α) : Machine α :=
  { m.tell .save with saved := m.state :: m.saved, clips := m.clips.save }

/-- Goes back to the state saved last, if there is one.  The path under construction is kept. -/
def restoreState (m : Machine α) : Machine α :=
  match m.saved with
  | [] => m
  | s :: saved =>
    { m.tell .restore with
      state := { s with outline := .ofPath m.state.path }
      saved
      clips := m.clips.restore }

def restoreTo (depth : Nat) (m : Machine α) : Machine α :=
  (List.range (m.saved.length - depth)).foldl (fun m _ => m.restoreState) m

/-- The operator that restores a state.  It does not reach below the states of the content it stands in. -/
def restore (m : Machine α) : Machine α :=
  if m.saved.length ≤ m.restoreFloor then m.report .unbalancedRestore else m.restoreState

def setTransform (t : Affine α) (m : Machine α) : Machine α :=
  { m.tell (.setTransform t) with firstTransform := some (m.firstTransform.getD t) }

def multiply (t : Affine α) (m : Machine α) : Machine α := m.modifyState fun s => { s with ctm := s.ctm.mul t }

/-- The operator that changes the coordinate system.  A group that was just saved takes the transform, one that has a
transform takes the product, and otherwise a group is started for it. -/
def concat (env : Environment α) (t : Affine α) (m : Machine α) : Machine α :=
  let previous := m.history.previous 1
  let m := m.multiply t
  let m :=
    if previous == "q" then m.setTransform t
    else if previous == "cm" || previous == "startPage" then
      m.setTransform (((env.builder.transform m.log).getD .identity).mul t)
    else (m.tell .pushGroup).setTransform t
  { m with fontChanged := true }

def concatNested (t : Affine α) (m : Machine α) : Machine α :=
  { ((m.multiply t).tell .pushGroup).setTransform t with fontChanged := true }

def patternTransform (m : Machine α) (matrix : Affine α) : Affine α :=
  match m.firstTransform with
  | none => matrix
  | some t => if t.isInvertible then t.inverse.mul matrix else .identity

/-- The entry of a category of the resources as it stands, the innermost resources first. -/
def resource? (st : Store) (m : Machine α) (category name : Name) : Option Object :=
  m.resources.findSome? fun d => (st.lookup? d category : Option Dict).bind fun d => d.get? name

/-- The value of an entry of the resources.  That it is missing is reported under the name of the category in
messages. -/
def requireResource (st : Store) (category : Name) (label : String) (name : Name) (m : Machine α) :
    Option Object × Machine α :=
  match m.resource? st category name with
  | some o => (some (st.resolve o), m)
  | none => (none, m.report (.missingResource label name.text))

def pushResources (d : Dict) (m : Machine α) : Machine α := { m with resources := d :: m.resources }

/-- Drops the innermost resources.  Those of the page stay. -/
def popResources (m : Machine α) : Machine α :=
  match m.resources with
  | _ :: d :: r => { m with resources := d :: r }
  | _ => m

def withChecked (v : Checked β) (f : β → Machine α → Machine α) (m : Machine α) : Machine α :=
  match v with
  | .ok v => f v m
  | .error p => m.report (.panic p)

def takeAll (f : Machine α → β → Machine α) (values : Emission β) (m : Machine α) : Machine α :=
  let m := values.items.foldl f m
  match values.panic? with
  | none => m
  | some p => m.report (.panic p)

/-- What comes of a drawing.  The first panic ends it, so nothing else comes of it than what has happened until then. -/
def outcome (m : Machine α) : Except (Panic × Log α) (Machine α) :=
  match panicked? m.log with
  | none => .ok m
  | some e => .error e

omit [Scalar α] in
/-- What each value preserves, and every report, taking them all does. -/
theorem takeAll_keeps {p : Machine α → Prop} {f : Machine α → β → Machine α} (values : Emission β) {m : Machine α}
    (hm : p m) (hf : ∀ m, p m → ∀ x ∈ values.items, p (f m x)) (hr : ∀ m d, p m → p (m.report d)) :
    p (m.takeAll f values) := by
  have taken : p (values.items.foldl f m) := List.foldlRecOn values.items f hm hf
  unfold takeAll
  dsimp only
  split
  · exact taken
  · exact hr _ _ taken

/-- The bytes of a stream of content; if it cannot be decoded there are none. -/
def bytesOf (st : Store) (s : Stream) : Checked Bytes := (s.decoded? st).map (·.getD [])

def contentOf (st : Store) (s : Stream) : List Content.Item := Content.itemsOf st (bytesOf st s)

/-- Draws a stream inside of other content.  States that it leaves saved are restored. -/
def runNested (env : Environment α) (inner : Inner α) (s : Stream) (m : Machine α) : Machine α :=
  let depth := m.saved.length
  let floor := m.restoreFloor
  let m := inner (contentOf env.store s) { m with restoreFloor := depth }
  { m.restoreTo depth with restoreFloor := floor }

end Machine

end PdfContent
