import PdfContent.Graphics.State
/-!
# Style — how a path is painted, as properties of a style sheet
-/
namespace PdfContent

inductive Paint where
  | color (rgb : Rgb) (opacity : Float32)
  /-- A gradient, by the identifier that was given to it. -/
  | gradient (id : String)
  /-- A tiling, by the identifier that was given to it. -/
  | pattern (id : String)

/-- Properties with their values, in the order in which they were first set. -/
structure Style where
  entries : List (String × String)

namespace Style

def empty : Style := ⟨[]⟩

/-- Sets a property; one that has a value already keeps its place. -/
def setEntry (key value : String) : List (String × String) → List (String × String)
  | [] => [(key, value)]
  | (k, v) :: r => if k = key then (k, value) :: r else (k, v) :: setEntry key value r

def set (s : Style) (key value : String) : Style := ⟨setEntry key value s.entries⟩

def get? (s : Style) (key : String) : Option String := s.entries.lookup key

def text (s : Style) : String := String.intercalate ";" (s.entries.map fun (k, v) => k ++ ":" ++ v)

def paintText : Paint → String
  | .color rgb _ => rgb.text
  | .gradient id | .pattern id => "url(#" ++ id ++ ")"

def opacity (ink : Float32) : Paint → String
  | .color _ opacity => Shortest.ofFloat32 opacity
  | _ => Shortest.ofFloat32 ink

def capText : LineCap → String
  | .butt => "butt"
  | .round => "round"
  | .square => "square"

def joinText : LineJoin → String
  | .miter => "miter"
  | .round => "round"
  | .bevel => "bevel"

/-- How many pixels of a document a point of a page has. -/
def pixelsPerPoint : Float := 1.25

/-- The width of lines; a width of 0 stands for one pixel. -/
def strokeWidth (s : State Float) : Float :=
  if s.lineWidth > 0 then s.lineWidth
  else
    let m := s.ctm
    let scale := (0.5 * (m.a * m.a + m.b * m.b + m.c * m.c + m.d * m.d)).sqrt * pixelsPerPoint
    if scale > 0 then 1 / scale else 1

def setFill (st : State Float) (paint : Option Paint) (evenOdd : Bool) (s : Style) : Style :=
  match paint with
  | none => s.set "fill" "none"
  | some paint =>
    ((s.set "fill" (paintText paint)).set "fill-opacity" (opacity st.fill.opacity paint)).set "fill-rule"
      (if evenOdd then "evenodd" else "nonzero")

def setDashes (st : State Float) (s : Style) : Style :=
  if st.dashes.isEmpty then s.set "stroke-dasharray" "none"
  else
    (s.set "stroke-dasharray" (String.intercalate "," (st.dashes.map Shortest.ofFloat))).set "stroke-dashoffset"
      (Shortest.ofFloat st.dashPhase)

def setStroke (st : State Float) (paint : Option Paint) (s : Style) : Style :=
  match paint with
  | none => s.set "stroke" "none"
  | some paint =>
    let s := (s.set "stroke" (paintText paint)).set "stroke-opacity" (opacity st.stroke.opacity paint)
    let s := (s.set "stroke-width" (Shortest.ofFloat (strokeWidth st))).set "stroke-linecap" (capText st.lineCap)
    let s := (s.set "stroke-linejoin" (joinText st.lineJoin)).set "stroke-miterlimit" (Shortest.ofFloat st.miterLimit)
    setDashes st s

/-- The style of a path with the given paints.  Properties of a paint that is missing are left out. -/
def forPath (st : State Float) (fill stroke : Option Paint) (evenOdd : Bool) : Style :=
  setStroke st stroke (setFill st fill evenOdd empty)

end Style

end PdfContent
