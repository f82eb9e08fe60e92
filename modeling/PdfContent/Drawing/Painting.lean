import PdfContent.Drawing.Color
/-!
# Painting — filling and stroking paths, and filling with shadings

A pattern that the builder cannot paint is approximated with cells of one color each.
-/
namespace PdfContent.Machine

open Scalar

variable {α : Type} [Scalar α]

/-- A machine for the cell of a tiling, which starts out with the color of an uncolored tiling. -/
def cellOf (env : Environment α) (t : Tiling α) (seed : Option (ColorSpace × Color)) (m : Machine α) : Machine α :=
  let cell := start env m.log t.resources (.translate (-t.bounds.x0) (-t.bounds.y0))
  let cell := { cell with precision := m.precision, nesting := m.nesting + 1, executed := m.executed }
  match seed with
  | none => cell
  | some (space, color) => cell.modifyState fun s =>
    { s with fill := { s.fill with space, color }, stroke := { s.stroke with space, color } }

def runTiling (env : Environment α) (inner : Inner α) (t : Tiling α) (seed : Option (ColorSpace × Color))
    (m : Machine α) : Machine α :=
  let cell := (inner (contentOf env.store t.content) (m.cellOf env t seed)).restoreTo 0
  { m with log := cell.log, executed := cell.executed }

def tilingPaint (env : Environment α) (inner : Inner α) (t : Tiling α) (part : Part) (m : Machine α) :
    Option Paint × Machine α :=
  if m.nesting > maxContentNesting then (none, m)
  else
    let ink := m.state.ink part
    let seed := if t.uncolored then ink.space.under?.map fun under => (under, ink.color) else none
    let m := m.tell (.pushTiling { t with matrix := m.patternTransform t.matrix } part)
    let id := env.builder.tiling m.log
    (some (.pattern id), (m.runTiling env inner t seed).tell .popTiling)

def gradientPaint (env : Environment α) (s : Shading α) (matrix : Affine α) (m : Machine α) :
    Option Paint × Machine α :=
  match Gradient.ofShading s (some (m.patternTransform matrix)) with
  | .error e => (none, m.report e)
  | .ok g =>
    let m := m.tell (.addGradient g false)
    ((env.builder.gradient m.log).map .gradient, m)

def paintOf (env : Environment α) (inner : Inner α) (part : Part) (m : Machine α) : Option Paint × Machine α :=
  let ink := m.state.ink part
  if !ink.space.isPattern then (some (.color (ink.space.toRgb ink.color) ink.opacity), m)
  else
    match ink.pattern with
    | none => (none, m)
    | some (.shading s matrix) => m.gradientPaint env s matrix
    | some (.tiling t) => m.tilingPaint env inner t part

def flatPaint (s : State α) : Paint := .color (s.fill.space.toRgb s.fill.color) s.fill.opacity

def fillCell (m : Machine α) : Path α × Color → Machine α
  | (path, color) =>
    let m := m.modifyState fun st =>
      { st with outline := .ofPath path, fill := { st.fill with color } }
    (m.tellState fun st => .addPath st (some (flatPaint st)) none false).clearPath

def fillCells (s : Shading α) (m : Machine α) : Machine α :=
  m.takeAll fillCell ((Tessellation.cells? s m.precision).getD .nil)

def useSpaceOf (s : Shading α) (m : Machine α) : Machine α :=
  m.modifyState fun st => { st with fill := { st.fill with space := s.space } }

def fillBackground (s : Shading α) (m : Machine α) : Machine α :=
  match s.background with
  | none => m
  | some color =>
    (m.modifyState fun st => { st with fill := { st.fill with color } }).tellState fun st =>
      .addPath st (some (flatPaint st)) none false

def approximate (s : Shading α) (matrix : Affine α) (part : Part) (evenOdd : Bool) (m : Machine α) : Machine α :=
  let path := m.state.path
  let m := m.save
  let m := if part = .fill then m.tellState (.setClipPath · evenOdd) else m
  let m := ((m.useSpaceOf s).fillBackground s).clearPath
  let m :=
    if m.state.ctm.isInvertible then
      let t := (m.state.ctm.inverse.mul m.baseMatrix).mul matrix
      (m.multiply t).setTransform t
    else m
  (m.fillCells s).restoreState.setOutline (.ofPath path)

/-- The shading and matrix of a pattern that the builder cannot paint. -/
def unsupported? (env : Environment α) (part : Part) (m : Machine α) : Option (Pattern α) :=
  let ink := m.state.ink part
  if ink.space.isPattern then ink.pattern.filter fun p => !env.builder.supports m.log p else none

/-- Approximates a pattern.  Tilings are painted by every builder. -/
def approximatePattern (p : Pattern α) (part : Part) (evenOdd : Bool) (m : Machine α) : Machine α :=
  match p with
  | .shading s matrix => m.approximate s matrix part evenOdd
  | .tiling _ => m

def paintPart (env : Environment α) (inner : Inner α) (part : Part) (approximated : Option (Pattern α))
    (evenOdd : Bool) (m : Machine α) : Machine α :=
  match approximated with
  | some p => m.approximatePattern p part evenOdd
  | none =>
    let (paint, m) := m.paintOf env inner part
    if paint.isNone then m
    else
      m.tellState fun st =>
        match part with
        | .fill => .addPath st paint none evenOdd
        | .stroke => .addPath st none paint evenOdd

def paintBoth (env : Environment α) (inner : Inner α) (how : PathPainting) (m : Machine α) : Machine α :=
  let (fill, m) := if how.fill then m.paintOf env inner .fill else (none, m)
  let (stroke, m) := if how.stroke then m.paintOf env inner .stroke else (none, m)
  if fill.isSome || stroke.isSome then m.tellState fun st => .addPath st fill stroke how.evenOdd else m

/-- Paints the current path.  If a pattern has to be approximated, filling and stroking are done one after the
other. -/
def paintCurrent (env : Environment α) (inner : Inner α) (how : PathPainting) (m : Machine α) : Machine α :=
  let fill := if how.fill then m.unsupported? env .fill else none
  let stroke := if how.stroke then m.unsupported? env .stroke else none
  if fill.isNone && stroke.isNone then m.paintBoth env inner how
  else
    let m := if how.fill then m.paintPart env inner .fill fill how.evenOdd else m
    if how.stroke then m.paintPart env inner .stroke stroke how.evenOdd else m

/-- Ends the path.  A clip that is waiting for it takes effect. -/
def endPath (m : Machine α) : Machine α :=
  let m := match m.pendingClip with
    | some rule =>
      if m.state.outline.current.isSome then
        { m.tellState (.clip · (rule == FillRule.evenOdd)) with clips := m.clips.set m.state.path rule }
      else m
    | none => m
  { m.clearPath with pendingClip := none }

/-- Paints the path and ends it.  Without a current point it is not even ended, so a clip keeps waiting. -/
def paintPath (env : Environment α) (inner : Inner α) (how : PathPainting) (m : Machine α) : Machine α :=
  if m.state.outline.current.isNone then m.report (.noCurrentPoint how.label)
  else
    let m := if how.close then m.setOutline (m.state.outline.close?.getD m.state.outline) else m
    (if m.state.outline.hasSegment then m.paintCurrent env inner how else m).endPath

def clipToBounds (s : Shading α) (call : State α → Bool → Call α) (m : Machine α) : Machine α :=
  match s.bounds with
  | none => m
  | some r => ((m.addRect r).tellState (call · false)).clearPath

def sawConcat (h : OpHistory) : Bool := (List.range OpHistory.depth).any fun i => h.previous (i + 1) == "cm"

def fillGradient (env : Environment α) (s : Shading α) (matrix : Option (Affine α)) (m : Machine α) : Machine α :=
  match m.clips.current with
  | none => m
  | some clip =>
    match Gradient.ofShading s matrix with
    | .error e => m.report e
    | .ok g =>
      let m := m.tell (.addGradient g true)
      match env.builder.gradient m.log with
      | some id => m.tell (.addShadedFill s id clip)
      | none => m

/-- Fills with a gradient.  It is placed in the coordinate system of the clip, if that was set up under a transform. -/
def shadeGradient (env : Environment α) (s : Shading α) (m : Machine α) : Machine α :=
  let matrix := if sawConcat m.history && m.clips.current.isSome then env.builder.transform m.log else none
  let m := if matrix.isSome then m.tell (.setTransform .identity) else m
  (m.clipToBounds s .clip).fillGradient env s matrix

def shadeCells (s : Shading α) (m : Machine α) : Machine α :=
  let path := m.state.path
  (((m.save.clipToBounds s .setClipPath).useSpaceOf s).fillCells s).restoreState.setOutline (.ofPath path)

/-- The operator that fills what is inside of the clip path with a shading of the resources. -/
def shade (env : Environment α) (name : Name) (m : Machine α) : Machine α :=
  match m.requireResource env.store "Shading" "shading" name with
  | (none, m) => m
  | (some o, m) =>
    match Shading.ofObject env.store o with
    | .error e => m.report e
    | .ok s => if s.isGradient then m.shadeGradient env s else m.shadeCells s

end PdfContent.Machine
