import PdfContent.Emission
import PdfContent.Geometry.Path
import PdfContent.Shading.Basic
/-!
# Tessellation — shadings as paths of one color each

A region is split into four until the colors at its corners are close to each other, or until the greatest depth is
reached.  The recursions return the depth of each cell with it, since only cells of the greatest depth may be coarser
than the precision asks for.
-/
namespace PdfContent

open Scalar

structure Precision where
  /-- How much a component of neighboring corners may differ. -/
  delta : Float32
  /-- How often a region is split at most. -/
  maxDepth : Nat

namespace Precision

def default : Precision := ⟨0.5, 6⟩

end Precision

structure ShadingPrecision where
  byType : List Precision

namespace ShadingPrecision

def default : ShadingPrecision := ⟨List.replicate 7 .default⟩

/-- The precision for a type; unknown types have the default one. -/
def get (p : ShadingPrecision) (type : Nat) : Precision :=
  if type == 0 then .default else p.byType[type - 1]?.getD .default

/-- Sets the precision for a type; unknown types are ignored. -/
def set (p : ShadingPrecision) (type : Nat) (delta : Float32) (maxDepth : Nat) : ShadingPrecision :=
  if type == 0 then p else ⟨p.byType.set (type - 1) ⟨delta, maxDepth⟩⟩

end ShadingPrecision

namespace Tessellation

variable {α γ : Type} [Scalar α] [Scalar γ]

/-- Whether no component differs by more than `delta`. -/
def close (delta : γ) (a b : List γ) : Bool := (a.zip b).all fun (x, y) => le (abs (x - y)) delta

def mean (a b : List γ) : List γ := List.zipWith (fun x y => (x + y) / ofInt 2) a b

/-- The colors at the corners of a rectangle: at `(x0, y0)`, `(x0, y1)`, `(x1, y0)` and `(x1, y1)`. -/
structure Corners (γ : Type) where
  c00 : List γ
  c01 : List γ
  c10 : List γ
  c11 : List γ

/-- Whether each corner color is close to the next one in the order of the fields, the last one to the first. -/
def Corners.areClose (delta : γ) (c : Corners γ) : Bool :=
  close delta c.c00 c.c01 && close delta c.c01 c.c10 && close delta c.c10 c.c11 && close delta c.c11 c.c00

/-- A cell of a function shading: its rectangle in the domain, and the color at the center. -/
structure DomainCell (α γ : Type) where
  rect : Rect α
  color : List γ
  depth : Nat

def evalCenter (eval : α → α → Checked (List γ)) (r : Rect α) : Checked (List γ) :=
  eval (ofFloat 0.5 * (r.x0 + r.x1)) (ofFloat 0.5 * (r.y0 + r.y1))

def evalCorners (eval : α → α → Checked (List γ)) (r : Rect α) : Checked (Corners γ) := do
  return ⟨← eval r.x0 r.y0, ← eval r.x0 r.y1, ← eval r.x1 r.y0, ← eval r.x1 r.y1⟩

/-- Whether a rectangle need not be split.  The whole domain is split unless the function has one color at all corners
and the center. -/
def isUniform (delta : γ) (c : Corners γ) (center : List γ) (depth : Nat) : Bool :=
  c.areClose delta && (depth != 0 || (close zero c.c00 center && close zero c.c01 center && close zero c.c10 center
    && close zero c.c11 center))

def evalParts (eval : α → α → Checked (List γ)) (r : Rect α) (c : Corners γ) (center : List γ) :
    Checked (List (Rect α × Corners γ)) := do
  let xm := ofFloat 0.5 * (r.x0 + r.x1)
  let ym := ofFloat 0.5 * (r.y0 + r.y1)
  let left ← eval r.x0 ym
  let right ← eval r.x1 ym
  let bottom ← eval xm r.y0
  let top ← eval xm r.y1
  return [(⟨r.x0, r.y0, xm, ym⟩, ⟨c.c00, left, bottom, center⟩), (⟨r.x0, ym, xm, r.y1⟩, ⟨left, c.c01, center, top⟩),
    (⟨xm, r.y0, r.x1, ym⟩, ⟨bottom, center, c.c10, right⟩), (⟨xm, ym, r.x1, r.y1⟩, ⟨center, top, right, c.c11⟩)]

def domainCells (eval : α → α → Checked (List γ)) (delta : γ) (r : Rect α) (c : Corners γ) (depth : Nat) :
    Nat → Emission (DomainCell α γ)
  | 0 => .after (evalCenter eval r) fun center => .one ⟨r, center, depth⟩
  | fuel + 1 => .after (evalCenter eval r) fun center =>
    if isUniform delta c center depth then .one ⟨r, center, depth⟩
    else .after (evalParts eval r c center) fun parts =>
      .flatMap parts fun part => domainCells eval delta part.1 part.2 (depth + 1) fuel

def functionCells (eval : α → α → Checked (List γ)) (delta : γ) (domain : Rect α) (maxDepth : Nat) :
    Emission (DomainCell α γ) :=
  .after (evalCorners eval domain) fun corners => domainCells eval delta domain corners 0 maxDepth

def between (v w : Vertex α γ) : Vertex α γ := ⟨v.point.midpoint w.point, mean v.color w.color⟩

def splitTriangle (t : Triangle α γ) : List (Triangle α γ) :=
  let ab := between t.a t.b
  let bc := between t.b t.c
  let ca := between t.c t.a
  [⟨t.a, ab, ca⟩, ⟨ab, t.b, bc⟩, ⟨ab, bc, ca⟩, ⟨ca, bc, t.c⟩]

def triangleIsClose (delta : γ) (t : Triangle α γ) : Bool :=
  close delta t.a.color t.b.color && close delta t.b.color t.c.color

def triangleCells (delta : γ) (t : Triangle α γ) (depth : Nat) : Nat → List (Triangle α γ × Nat)
  | 0 => [(t, depth)]
  | fuel + 1 =>
    if triangleIsClose delta t then [(t, depth)]
    else (splitTriangle t).flatMap fun t => triangleCells delta t (depth + 1) fuel

def splitRow (r : Row α) : Row α × Row α :=
  let m := r.p1.midpoint r.p2
  let p01 := r.p0.midpoint r.p1
  let p23 := r.p2.midpoint r.p3
  let left := p01.midpoint m
  let right := m.midpoint p23
  let middle := left.midpoint right
  (⟨r.p0, p01, left, middle⟩, ⟨middle, right, p23, r.p3⟩)

/-- Four rows of control points. -/
structure Net (α : Type) where
  r0 : Row α
  r1 : Row α
  r2 : Row α
  r3 : Row α

def Net.transpose (n : Net α) : Net α :=
  ⟨⟨n.r0.p0, n.r1.p0, n.r2.p0, n.r3.p0⟩, ⟨n.r0.p1, n.r1.p1, n.r2.p1, n.r3.p1⟩, ⟨n.r0.p2, n.r1.p2, n.r2.p2, n.r3.p2⟩,
    ⟨n.r0.p3, n.r1.p3, n.r2.p3, n.r3.p3⟩⟩

def Net.splitRows (n : Net α) : Net α × Net α :=
  (⟨(splitRow n.r0).1, (splitRow n.r1).1, (splitRow n.r2).1, (splitRow n.r3).1⟩,
    ⟨(splitRow n.r0).2, (splitRow n.r1).2, (splitRow n.r2).2, (splitRow n.r3).2⟩)

def Net.splitColumns (n : Net α) : Net α × Net α :=
  let (top, bottom) := n.transpose.splitRows
  (top.transpose, bottom.transpose)

def Net.patch (n : Net α) (c00 c01 c10 c11 : List γ) : Patch α γ := ⟨n.r0, n.r1, n.r2, n.r3, c00, c01, c10, c11⟩

/-- The four parts of a patch that is split in the middle of its rows and columns: upper left, lower left, upper right
and lower right. -/
def splitPatch (p : Patch α γ) : List (Patch α γ) :=
  let (left, right) := (Net.mk p.r0 p.r1 p.r2 p.r3).splitRows
  let (n00, n10) := left.splitColumns
  let (n01, n11) := right.splitColumns
  let top := mean p.c00 p.c01
  let right := mean p.c01 p.c11
  let bottom := mean p.c11 p.c10
  let left := mean p.c10 p.c00
  let center := mean left right
  [n00.patch p.c00 top left center, n10.patch left center p.c10 bottom, n01.patch top p.c01 center right,
    n11.patch center right bottom p.c11]

def patchIsClose (delta : γ) (p : Patch α γ) : Bool :=
  close delta p.c00 p.c01 && close delta p.c01 p.c11 && close delta p.c11 p.c10 && close delta p.c10 p.c00

def patchCells (delta : γ) (p : Patch α γ) (depth : Nat) : Nat → List (Patch α γ × Nat)
  | 0 => [(p, depth)]
  | fuel + 1 =>
    if patchIsClose delta p then [(p, depth)]
    else (splitPatch p).flatMap fun p => patchCells delta p (depth + 1) fuel

/-- The depth at which the patches of a mesh start: the more there are, the fewer times each is split. -/
def startDepth (patches : Nat) : Nat := if patches > 128 then 3 else if patches > 64 then 2 else if patches > 16 then 1 else 0

def domainOutline (m : Affine α) (r : Rect α) : Path α :=
  Path.polygon [m.apply ⟨r.x0, r.y0⟩, m.apply ⟨r.x1, r.y0⟩, m.apply ⟨r.x1, r.y1⟩, m.apply ⟨r.x0, r.y1⟩]

def triangleOutline (t : Triangle α γ) : Path α := Path.polygon [t.a.point, t.b.point, t.c.point]

def patchOutline (p : Patch α γ) : Path α :=
  [.move p.r0.p0, .curve p.r0.p1 p.r0.p2 p.r0.p3, .curve p.r1.p3 p.r2.p3 p.r3.p3, .curve p.r3.p2 p.r3.p1 p.r3.p0,
    .curve p.r2.p0 p.r1.p0 p.r0.p0, .close]

def triangleParts (s : Shading α) (p : Precision) (t : Triangle α Float32) : Emission (Path α × Color) :=
  .flatMap (triangleCells p.delta t 0 p.maxDepth) fun (t, _) =>
    .after (s.vertexColor t.a.color) fun color => .one (triangleOutline t, color)

def patchParts (s : Shading α) (p : Precision) (start : Nat) (patch : Patch α Float32) : Emission (Path α × Color) :=
  .flatMap (patchCells p.delta patch start (p.maxDepth - start)) fun (patch, _) =>
    .after (s.vertexColor patch.c00) fun color => .one (patchOutline patch, color)

/-- The cells of a shading as paths in its own space, each with a color of its color space; none for axial and radial
shadings, which are no meshes. -/
def cells? (s : Shading α) (precision : ShadingPrecision) : Option (Emission (Path α × Color)) :=
  let p := precision.get s.type
  match s.kind with
  | .function x0 x1 y0 y1 matrix f =>
    let eval (x y : α) : Checked Color := f.eval [toFloat32 x, toFloat32 y]
    some ((functionCells eval p.delta ⟨x0, y0, x1, y1⟩ p.maxDepth).map fun cell =>
      (domainOutline matrix cell.rect, cell.color))
  | .triangles ts _ => some (.flatMap ts (triangleParts s p))
  | .patches ps _ => some (.flatMap ps (patchParts s p (startDepth ps.length)))
  | _ => none

end Tessellation

end PdfContent
