import PdfContent.Font.Basic
import PdfContent.Geometry.Path
import PdfContent.Shading.Basic
/-!
# State — what the painting operators depend on

The state holds the colors, line style and text parameters in effect, and the path under construction.  Numbers that are
only handed on are kept as they are; those that geometry is computed with are of any number system.
-/
namespace PdfContent

open Scalar

inductive FillRule where
  | nonZero
  | evenOdd
deriving DecidableEq

inductive LineCap where
  | butt
  | round
  | square
deriving DecidableEq

inductive LineJoin where
  | miter
  | round
  | bevel
deriving DecidableEq

namespace LineCap

def ofInt? (i : Int) : Option LineCap :=
  if i == 0 then some butt else if i == 1 then some round else if i == 2 then some square else none

end LineCap

namespace LineJoin

def ofInt? (i : Int) : Option LineJoin :=
  if i == 0 then some miter else if i == 1 then some round else if i == 2 then some bevel else none

end LineJoin

inductive BlendMode where
  | normal
  | multiply
  | screen
  | overlay
  | darken
  | lighten
  | colorDodge
  | colorBurn
  | hardLight
  | softLight
  | difference
  | exclusion
  | hue
  | saturation
  | color
  | luminosity
deriving DecidableEq

namespace BlendMode

def names : List (Name × BlendMode) :=
  [("Normal", normal), ("Compatible", normal), ("Multiply", multiply), ("Screen", screen), ("Overlay", overlay),
    ("Darken", darken), ("Lighten", lighten), ("ColorDodge", colorDodge), ("ColorBurn", colorBurn),
    ("HardLight", hardLight), ("SoftLight", softLight), ("Difference", difference), ("Exclusion", exclusion),
    ("Hue", hue), ("Saturation", saturation), ("Color", color), ("Luminosity", luminosity)]

def ofName? (n : Name) : Option BlendMode := names.lookup n

def keyword : BlendMode → String
  | normal => "normal"
  | multiply => "multiply"
  | screen => "screen"
  | overlay => "overlay"
  | darken => "darken"
  | lighten => "lighten"
  | colorDodge => "color-dodge"
  | colorBurn => "color-burn"
  | hardLight => "hard-light"
  | softLight => "soft-light"
  | difference => "difference"
  | exclusion => "exclusion"
  | hue => "hue"
  | saturation => "saturation"
  | color => "color"
  | luminosity => "luminosity"

end BlendMode

inductive TextMode where
  | fill
  | stroke
  | fillStroke
  | invisible
  | fillClip
  | strokeClip
  | fillStrokeClip
  | clip
deriving DecidableEq

namespace TextMode

def ofInt? (i : Int) : Option TextMode :=
  if i < 0 then none
  else [fill, stroke, fillStroke, invisible, fillClip, strokeClip, fillStrokeClip, clip][i.toNat]?

def fills (m : TextMode) : Bool := m = fill || m = fillStroke || m = fillClip || m = fillStrokeClip

def strokes (m : TextMode) : Bool := m = stroke || m = fillStroke || m = strokeClip || m = fillStrokeClip

def clips (m : TextMode) : Bool := m = fillClip || m = strokeClip || m = fillStrokeClip || m = clip

end TextMode

structure TextState (α : Type) where
  font : Option Font
  size : α
  matrix : Affine α
  charSpace : α
  wordSpace : α
  /-- As a factor: 1 is the natural width. -/
  scaling : α
  leading : α
  rise : α
  mode : TextMode
  /-- The start of the current line, in text space. -/
  line : Point α
  /-- The pen, in user space. -/
  pen : Point α

namespace TextState

variable {α : Type} [Scalar α]

def initial : TextState α :=
  { font := none, size := zero, matrix := .identity, charSpace := zero, wordSpace := zero, scaling := one,
    leading := zero, rise := zero, mode := .fill, line := .origin, pen := .origin }

def moveTo (t : TextState α) (p : Point α) : TextState α := { t with line := p, pen := t.matrix.apply p }

/-- A distance of text space in user space. -/
def delta (t : TextState α) (dx dy : α) : Point α := t.matrix.applyVector dx dy

/-- Moves the pen by a distance of user space. -/
def shift (t : TextState α) (d : Point α) : TextState α := { t with pen := t.pen.add d }

/-- Moves the pen by a distance of text space. -/
def advance (t : TextState α) (dx dy : α) : TextState α := t.shift (t.delta dx dy)

def isVertical (t : TextState α) : Bool := t.font.any (·.isVertical)

end TextState

inductive Part where
  | fill
  | stroke
deriving DecidableEq

structure Ink (α : Type) where
  space : ColorSpace
  color : Color
  /-- Counts instead of the color, if the space is one of patterns. -/
  pattern : Option (Pattern α)
  opacity : Float32
  overprint : Bool

structure SoftMask (α : Type) where
  bounds : Rect α
  /-- Whether the mask is the alpha channel of the group and not its luminosity. -/
  alpha : Bool
  transfer : Option Transfer
  backdrop : Color

structure State (α : Type) where
  ctm : Affine α
  fill : Ink α
  stroke : Ink α
  blendMode : BlendMode
  overprintMode : Nat
  softMask : Option (SoftMask α)
  transfer : Option Transfer
  lineWidth : Float
  lineCap : LineCap
  lineJoin : LineJoin
  miterLimit : Float
  dashes : List Float
  dashPhase : Float
  strokeAdjust : Bool
  intent : String
  flatness : Float
  text : TextState α
  /-- In user space. -/
  outline : Outline α

namespace Ink

def black {α : Type} : Ink α := ⟨.deviceGray, [0], none, 1, false⟩

end Ink

namespace State

variable {α : Type} [Scalar α]

def initial (ctm : Affine α) : State α :=
  { ctm, fill := .black, stroke := .black, blendMode := .normal, overprintMode := 0, softMask := none,
    transfer := none, lineWidth := 1, lineCap := .butt, lineJoin := .miter, miterLimit := 10, dashes := [],
    dashPhase := 0, strokeAdjust := false, intent := "RelativeColorimetric", flatness := 1, text := .initial,
    outline := .empty }

def ink (s : State α) : Part → Ink α
  | .fill => s.fill
  | .stroke => s.stroke

def setInk (s : State α) (ink : Ink α) : Part → State α
  | .fill => { s with fill := ink }
  | .stroke => { s with stroke := ink }

def path (s : State α) : Path α := s.outline.path

def devicePath (s : State α) : Path α := s.path.transform s.ctm

end State

end PdfContent
