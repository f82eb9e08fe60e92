import PdfContent.Color.Image
import PdfContent.Graphics.Clip
import PdfContent.Graphics.Style
import PdfContent.Shading.Gradient
/-!
# Call — what the drawing of content tells a builder

A builder puts together a document out of calls.  It is asked four things in return, and since nothing else of it can be
seen, a builder *is* its answers, each a function of what has happened so far.
-/
namespace PdfContent

structure TransparencyGroup (α : Type) where
  /-- In the space of the form. -/
  bounds : Rect α
  space : Option ColorSpace
  isolated : Bool
  knockout : Bool
  /-- Whether the group is drawn as the content of a soft mask. -/
  forSoftMask : Bool

structure Placement (α : Type) where
  /-- The pen before the character, in user space. -/
  pen : Point α
  /-- The advance in text space, for the size of the font. -/
  dx : α
  dy : α
  /-- The displacement of the origin of the glyph, as a distance of user space. -/
  origin : Point α
  code : Nat
  /-- How many bytes the code takes. -/
  length : Nat
  text : String

/-- A call of the builder.  The state that comes with most of them is the one in effect. -/
inductive Call (α : Type) where
  | documentSize (width height : α)
  | save
  | restore
  /-- Starts a group, which ends with the next `restore`. -/
  | pushGroup
  /-- Sets the transform of the current group. -/
  | setTransform (m : Affine α)
  /-- Paints the path of the state. -/
  | addPath (state : State α) (fill stroke : Option Paint) (evenOdd : Bool)
  /-- Clips to the path of the state, besides the clip in effect. -/
  | clip (state : State α) (evenOdd : Bool)
  /-- Clips the current group to the path of the state. -/
  | setClipPath (state : State α) (evenOdd : Bool)
  | updateStyle (state : State α)
  /-- Asks for a gradient, for a shading operator or as the paint of a path. -/
  | addGradient (g : Gradient α) (forShading : Bool)
  | addShadedFill (s : Shading α) (gradient : String) (clip : ClipPath α)
  /-- Starts a tiling, whose cell is drawn by the calls up to `popTiling`. -/
  | pushTiling (t : Tiling α) (part : Part)
  | popTiling
  | beginText (state : State α)
  | endText (state : State α)
  | updateFont (state : State α)
  | updateTextMatrix (state : State α)
  | updateTextPosition (p : Point α)
  /-- The pen was moved by an adjustment between strings. -/
  | updateTextShift (state : State α) (adjustment : Float)
  | beginString (state : State α) (s : Bytes)
  | addChar (state : State α) (p : Placement α)
  | endString (state : State α)
  /-- Paints through a stencil. -/
  | addImageMask (state : State α) (image : ImageData) (invert : Bool)
  /-- Draws an image, of which the colors between the given bounds are left out. -/
  | addImage (state : State α) (image : ImageData) (map : ColorMap) (key : Option (List Nat))
  | addMaskedImage (state : State α) (image : ImageData) (map : ColorMap) (mask : ImageData) (invert : Bool)
  | addSoftMaskedImage (state : State α) (image : ImageData) (map : ColorMap) (mask : ImageData) (maskMap : ColorMap)
  | pushTransparencyGroup (state : State α) (group : TransparencyGroup α)
  | popTransparencyGroup (state : State α)
  /-- Draws the group that was finished last. -/
  | paintTransparencyGroup (state : State α) (bounds : Rect α)
  | setGroupOpacity (opacity : Float32)
  /-- Makes the group that was finished last the soft mask. -/
  | setSoftMask (state : State α) (mask : SoftMask α)
  | clearSoftMask (state : State α)

inductive Event (α : Type) where
  | call (c : Call α)
  | report (d : Diagnostic)

/-- What has happened so far, the last event first. -/
abbrev Log (α : Type) := List (Event α)

def Event.panic? {α : Type} : Event α → Option Panic
  | call _ => none
  | report d => d.panic?

/-- The first panic of a log, and what has happened before it. -/
def panicked? {α : Type} : Log α → Option (Panic × Log α)
  | [] => none
  | e :: log => (panicked? log).or (e.panic?.map fun p => (p, log))

/-- The answers of a builder.  Each may depend on all that has happened, the call that is answered included. -/
structure Builder (α : Type) where
  /-- The transform of the current group, if it is known. -/
  transform : Log α → Option (Affine α)
  /-- Whether the builder can paint with a pattern; if it cannot, the pattern is approximated. -/
  supports : Log α → Pattern α → Bool
  /-- The identifier of the gradient asked for last, if the builder has made it. -/
  gradient : Log α → Option String
  /-- The identifier of the tiling started last. -/
  tiling : Log α → String

namespace Builder

variable {α : Type}

/-- Whether a pattern can be painted by a builder that has only tilings and gradients. -/
def supportsGradients (_ : Log α) : Pattern α → Bool
  | .tiling _ => true
  | .shading s _ => s.isGradient

/-- The builder that knows nothing of transforms and makes no gradients. -/
def silent : Builder α := ⟨fun _ => none, supportsGradients, fun _ => none, fun _ => ""⟩

/-- The transforms of the groups that are open, the innermost first.  A group of its own has none until one is set. -/
def openTransforms : Log α → List (Option (Affine α))
  | [] => []
  | .call .save :: log => none :: openTransforms log
  | .call .restore :: log => (openTransforms log).drop 1
  | .call .pushGroup :: log =>
    match openTransforms log with
    | [] => []
    | _ :: r => none :: r
  | .call (.setTransform m) :: log =>
    match openTransforms log with
    | [] => []
    | _ :: r => some m :: r
  | _ :: log => openTransforms log

/-- How many gradients and tilings have been asked for; gradients only count if they are made. -/
def paintServers (gradients : Bool) : Log α → Nat
  | [] => 0
  | .call (.addGradient ..) :: log => paintServers gradients log + (if gradients then 1 else 0)
  | .call (.pushTiling ..) :: log => paintServers gradients log + 1
  | _ :: log => paintServers gradients log

/-- The builder that keeps every call, with the transforms of groups and numbered gradients and tilings.  It may be one
that makes no gradients. -/
def recording (gradients : Bool) : Builder α :=
  { transform := fun log => (openTransforms log).head?.join
    supports := supportsGradients
    gradient := fun log => if gradients then some ("gradient" ++ toString (paintServers true log)) else none
    tiling := fun log => "pattern" ++ toString (paintServers gradients log) }

end Builder

end PdfContent
