import PdfContent.Drawing.Execute
import PdfContent.Store.Document
/-!
# Page — drawing the content of a page or of the cell of a tiling

Drawing starts with the coordinate system, draws any number of contents one after the other and ends by restoring every
state that is still saved, so what was opened at the builder is closed again.
-/
namespace PdfContent

open Scalar

structure PageParams (α : Type) where
  /-- The box that the coordinate system comes from. -/
  bounds : Rect α
  /-- In degrees, clockwise; other angles than 90, 180 and 270 count as none. -/
  rotation : Nat
  resources : Dict
  /-- The page is clipped to this box, unless it is the whole page. -/
  crop : Option (Rect α)

namespace PageParams

variable {α : Type} [Scalar α]

def ofPage (p : Page α) (crop : Option PageBox) : PageParams α := ⟨p.mediaBox, p.rotation, p.resources, crop.map p.box⟩

/-- The coordinate system of the page, whose vertical axis points down, and its width and height. -/
def frame (p : PageParams α) : Affine α × α × α :=
  let r := p.bounds
  let width := r.x1 - r.x0
  let height := r.y1 - r.y0
  if p.rotation == 90 then (⟨zero, one, one, zero, -r.y0, -r.x0⟩, height, width)
  else if p.rotation == 180 then (⟨-one, zero, zero, one, r.x1, -r.y0⟩, width, height)
  else if p.rotation == 270 then (⟨zero, -one, -one, zero, r.y1, r.x1⟩, height, width)
  else (⟨one, zero, zero, -one, -r.x0, r.y1⟩, width, height)

end PageParams

inductive ContentError where
  /-- It is neither a stream nor an array of streams. -/
  | notContent
deriving DecidableEq

namespace ContentError

def message : ContentError → String
  | notContent => "weird page contents"

end ContentError

/-- Concatenates, with a space between two contents unless nothing comes before it. -/
def joinContents (contents : List Bytes) : Bytes :=
  ((contents.dropWhile (·.isEmpty)).intersperse [0x20]).flatten

namespace Machine

variable {α : Type} [Scalar α]

def crop (width height : α) (r : Rect α) (m : Machine α) : Machine α :=
  if eq r.x0 zero && eq r.y0 zero && eq r.x1 width && eq r.y1 height then m
  else
    let m := m.addRect r
    ({ m with clips := m.clips.set m.state.path .nonZero }.tellState (.setClipPath · false)).clearPath

def startPage (env : Environment α) (p : PageParams α) : Machine α :=
  let (ctm, width, height) := p.frame
  let scale := ofFloat Style.pixelsPerPoint
  let m := ((start env [] p.resources ctm).tell (.documentSize (width * scale) (height * scale))).save
  let m := m.tell (.setTransform ((Affine.scale scale).mul ctm))
  let m := match p.crop with
    | some r => m.crop width height r
    | none => m
  { m with baseDepth := m.saved.length, restoreFloor := m.saved.length, history := m.history.push "startPage" }

/-- Starts the cell of a tiling; the builder is told nothing. -/
def startCell (env : Environment α) (resources : Dict) (bounds : Rect α) : Machine α :=
  start env [] resources (.translate (-bounds.x0) (-bounds.y0))

def contentBytes (st : Store) (o : Object) : Except ContentError (Checked Bytes) :=
  match st.resolve o with
  | .stream s => .ok (bytesOf st s)
  | .array items =>
    match items.mapM fun o => (st.resolve o).stream? with
    | some streams => .ok ((streams.mapM (bytesOf st)).map joinContents)
    | none => .error .notContent
  | _ => .error .notContent

def draw (env : Environment α) (o : Object) (m : Machine α) : Except ContentError (Machine α) :=
  (contentBytes env.store o).map fun data => run env levels (Content.itemsOf env.store data) m

def setPrecision (type : Nat) (delta : Float32) (maxDepth : Nat) (m : Machine α) : Machine α :=
  { m with precision := m.precision.set type delta maxDepth }

def finish (m : Machine α) : Machine α := { m.restoreTo 0 with resources := [] }

end Machine

end PdfContent
