import PdfContent.Color.Space
import PdfContent.Filter.BitReader
/-!
# Mesh — triangles and patches, and how they are read from bits

The twelve boundary points of a patch are numbered in the order of the stream, around the patch.  A patch that shares
an edge with the one before it takes the first four of them, and two corner colors, from there.
-/
namespace PdfContent

open Scalar

/-- A corner of a triangle with its color, or with the input of the color function. -/
structure Vertex (α γ : Type) where
  point : Point α
  color : List γ

structure Triangle (α γ : Type) where
  a : Vertex α γ
  b : Vertex α γ
  c : Vertex α γ

structure Row (α : Type) where
  p0 : Point α
  p1 : Point α
  p2 : Point α
  p3 : Point α

/-- A bicubic patch: four rows of control points, and the colors of its corners by row and column. -/
structure Patch (α γ : Type) where
  r0 : Row α
  r1 : Row α
  r2 : Row α
  r3 : Row α
  c00 : List γ
  c01 : List γ
  c10 : List γ
  c11 : List γ

def Row.point (r : Row α) : Fin 4 → Point α
  | 0 => r.p0
  | 1 => r.p1
  | 2 => r.p2
  | 3 => r.p3

structure MeshFormat where
  coordinateBits : Nat
  componentBits : Nat
  flagBits : Nat
  x : Float32 × Float32
  y : Float32 × Float32
  colors : Ranges Float32

namespace MeshFormat

def read (st : Store) (d : Dict) (components : Nat) : Except ShadingFault MeshFormat := do
  let bits (key : Name) (allowed : List Nat) : Option Nat :=
    ((st.lookup? d key : Option UInt8).map (·.toNat)).filter allowed.contains
  let some coordinateBits := bits "BitsPerCoordinate" [1, 2, 4, 8, 12, 16, 24, 32] | throw .badCoordinateBits
  let some componentBits := bits "BitsPerComponent" [1, 2, 4, 8, 12, 16] | throw .badComponentBits
  let flagBits := (bits "BitsPerFlag" [2, 4, 8]).getD 8
  let decode := (st.list? d "Decode" : Option (List Float32)).getD []
  match decode with
  | x0 :: x1 :: y0 :: y1 :: colors =>
    if colors.length < 2 * components then throw .badDecode
    return ⟨coordinateBits, componentBits, flagBits, (x0, x1), (y0, y1), (Bytes.pairs colors).take components⟩
  | _ => throw .badDecode

variable {α : Type} [Scalar α]

def point? (f : MeshFormat) (r : BitReader) : Option (Point α × BitReader) := do
  let (x, r) ← r.readScaled? f.coordinateBits f.x.1 f.x.2
  let (y, r) ← r.readScaled? f.coordinateBits f.y.1 f.y.2
  return (⟨ofFloat32 x, ofFloat32 y⟩, r)

def components? (f : MeshFormat) (r : BitReader) : Ranges Float32 → Option (Color × BitReader)
  | [] => some ([], r)
  | (low, high) :: ranges => do
    let (v, r) ← r.readScaled? f.componentBits low high
    let (vs, r) ← components? f r ranges
    return (v :: vs, r)

def color? (f : MeshFormat) (r : BitReader) : Option (Color × BitReader) := f.components? r f.colors

def vertex? (f : MeshFormat) (r : BitReader) : Option (Vertex α Float32 × BitReader) := do
  let (point, r) ← f.point? r
  let (color, r) ← f.color? r
  return (⟨point, color⟩, r)

def flagged? (f : MeshFormat) (r : BitReader) : Option ((Nat × Vertex α Float32) × BitReader) := do
  let (flag, r) ← r.read? f.flagBits
  let (vertex, r) ← f.vertex? r
  return ((flag, vertex), r.align)

def padded? (f : MeshFormat) (r : BitReader) : Option (Vertex α Float32 × BitReader) :=
  (f.vertex? r).map fun (v, r) => (v, r.align)

/-- Reads records as long as there are complete ones; each takes at least one bit. -/
def records {β : Type} (next? : BitReader → Option (β × BitReader)) : Nat → BitReader → List β
  | 0, _ => []
  | fuel + 1, r =>
    match next? r with
    | none => []
    | some (v, r) => v :: records next? fuel r

/-- The number of records that data can hold at most. -/
def bound (data : Bytes) : Nat := data.length * 8 + 1

end MeshFormat

namespace Triangle

variable {α : Type} [Scalar α]

/-- The triangles of the records of a free-form mesh; `prev` is the last triangle.  Flag 0 starts a triangle of this
and the next two vertices, flags 1 and 2 put the vertex to an edge of the last triangle, and a vertex with another
flag, or without a triangle to put it to, is dropped. -/
def ofFlagged (prev : Option (Triangle α γ)) : List (Nat × Vertex α γ) → List (Triangle α γ)
  | [] => []
  | [(flag, v)] =>
    match flag, prev with
    | 1, some t => [⟨t.b, t.c, v⟩]
    | 2, some t => [⟨t.a, t.c, v⟩]
    | _, _ => []
  | [(flag, v), w] =>
    match flag, prev with
    | 0, _ => []
    | 1, some t => let t : Triangle α γ := ⟨t.b, t.c, v⟩; t :: ofFlagged (some t) [w]
    | 2, some t => let t : Triangle α γ := ⟨t.a, t.c, v⟩; t :: ofFlagged (some t) [w]
    | _, prev => ofFlagged prev [w]
  | (flag, v) :: w :: u :: r =>
    match flag, prev with
    | 0, _ => let t : Triangle α γ := ⟨v, w.2, u.2⟩; t :: ofFlagged (some t) r
    | 1, some t => let t : Triangle α γ := ⟨t.b, t.c, v⟩; t :: ofFlagged (some t) (w :: u :: r)
    | 2, some t => let t : Triangle α γ := ⟨t.a, t.c, v⟩; t :: ofFlagged (some t) (w :: u :: r)
    | _, prev => ofFlagged prev (w :: u :: r)

def readFreeForm (f : MeshFormat) (data : Bytes) : List (Triangle α Float32) :=
  ofFlagged none (MeshFormat.records f.flagged? (MeshFormat.bound data) (.ofBytes data))

/-- The two triangles of each cell between two rows of a lattice. -/
def ofRows : List (Vertex α γ) → List (Vertex α γ) → List (Triangle α γ)
  | a :: b :: top, c :: d :: bottom => ⟨a, b, c⟩ :: ⟨b, d, c⟩ :: ofRows (b :: top) (d :: bottom)
  | _, _ => []

def ofLattice : List (List (Vertex α γ)) → List (Triangle α γ)
  | top :: bottom :: rows => ofRows top bottom ++ ofLattice (bottom :: rows)
  | _ => []

/-- The triangles of a lattice with `perRow` vertices in a row; a last row that is incomplete is dropped. -/
def readLattice (f : MeshFormat) (perRow : Nat) (data : Bytes) : List (Triangle α Float32) :=
  ofLattice (Bytes.wholeGroups perRow (MeshFormat.records f.padded? (MeshFormat.bound data) (.ofBytes data)))

end Triangle

namespace Patch

variable {α : Type} [Scalar α]

def boundary (p : Patch α γ) : List (Point α) :=
  [p.r0.p0, p.r0.p1, p.r0.p2, p.r0.p3, p.r1.p3, p.r2.p3, p.r3.p3, p.r3.p2, p.r3.p1, p.r3.p0, p.r2.p0, p.r1.p0]

def corners (p : Patch α γ) : List (List γ) := [p.c00, p.c01, p.c11, p.c10]

/-- The patch with given boundary points, interior points and corner colors, all in the order of the stream. -/
def ofStreamOrder? : List (Point α) → List (Point α) → List (List γ) → Option (Patch α γ)
  | [b0, b1, b2, b3, b4, b5, b6, b7, b8, b9, b10, b11], [i0, i1, i2, i3], [c0, c1, c2, c3] =>
    some ⟨⟨b0, b1, b2, b3⟩, ⟨b11, i0, i1, b4⟩, ⟨b10, i3, i2, b5⟩, ⟨b9, b8, b7, b6⟩, c0, c1, c3, c2⟩
  | _, _, _ => none

/-- An interior point of the bicubic patch whose surface is spanned by its boundary curves alone: `a` is the corner next
to it, `b` and `c` are beside that corner, `d` and `e` the two corners next to it, `g` and `h` the boundary points
opposite to `b` and `c`, and `k` is the opposite corner. -/
def spanned (a b c d e g h k : Point α) : Point α :=
  let sum := ((((a.scale (ofInt (-4))).add ((b.add c).scale (ofInt 6))).sub ((d.add e).scale (ofInt 2))).add
    ((g.add h).scale (ofInt 3))).sub k
  sum.scale (one / ofInt 9)

def spannedInterior : List (Point α) → List (Point α)
  | [b0, b1, b2, b3, b4, b5, b6, b7, b8, b9, b10, b11] =>
    [spanned b0 b1 b11 b3 b9 b8 b4 b6, spanned b3 b2 b4 b0 b6 b7 b11 b9, spanned b6 b7 b5 b9 b3 b2 b10 b0,
      spanned b9 b8 b10 b6 b0 b1 b5 b3]
  | _ => []

def readMany {β : Type} (next? : BitReader → Option (β × BitReader)) : Nat → BitReader → Option (List β × BitReader)
  | 0, r => some ([], r)
  | n + 1, r => do
    let (v, r) ← next? r
    let (vs, r) ← readMany next? n r
    return (v :: vs, r)

def point (p : Patch α γ) : Fin 4 × Fin 4 → Point α
  | (0, j) => p.r0.point j
  | (1, j) => p.r1.point j
  | (2, j) => p.r2.point j
  | (3, j) => p.r3.point j

def corner (p : Patch α γ) : Fin 2 × Fin 2 → List γ
  | (0, 0) => p.c00
  | (0, 1) => p.c01
  | (1, 0) => p.c10
  | (1, 1) => p.c11

/-- Where the points of the edge of a flag lie in the patch before. -/
def edge : Nat → List (Fin 4 × Fin 4)
  | 1 => [(0, 3), (1, 3), (2, 3), (3, 3)]
  | 2 => [(3, 3), (3, 2), (3, 1), (3, 0)]
  | _ => [(3, 0), (2, 0), (1, 0), (0, 0)]

def edgeCorners : Nat → List (Fin 2 × Fin 2)
  | 1 => [(0, 1), (1, 1)]
  | 2 => [(1, 1), (1, 0)]
  | _ => [(1, 0), (0, 0)]

/-- The boundary points and corner colors that a patch takes over from the one before it. -/
def shared? (prev : Option (Patch α γ)) (flag : Nat) : Option (List (Point α) × List (List γ)) :=
  if flag == 0 then some ([], [])
  else if flag > 3 then none
  else prev.map fun p => ((edge flag).map p.point, (edgeCorners flag).map p.corner)

/-- A patch record: a flag, the points and the colors that are not shared, and padding. -/
def record? (f : MeshFormat) (tensor : Bool) (prev : Option (Patch α Float32)) (r : BitReader) :
    Option (Patch α Float32 × BitReader) := do
  let (flag, r) ← r.read? f.flagBits
  let (points, colors) ← shared? prev flag
  let (own, r) ← readMany f.point? (12 - points.length) r
  let boundary := points ++ own
  let (interior, r) ← if tensor then readMany f.point? 4 r else some (spannedInterior boundary, r)
  let (ownColors, r) ← readMany f.color? (4 - colors.length) r
  let patch ← ofStreamOrder? boundary interior (colors ++ ownColors)
  return (patch, r.align)

/-- Reads patches up to the first record that is incomplete or has a flag that does not fit. -/
def readFrom (f : MeshFormat) (tensor : Bool) (prev : Option (Patch α Float32)) :
    Nat → BitReader → List (Patch α Float32)
  | 0, _ => []
  | fuel + 1, r =>
    match record? f tensor prev r with
    | none => []
    | some (patch, r) => patch :: readFrom f tensor (some patch) fuel r

def readAll (f : MeshFormat) (tensor : Bool) (data : Bytes) : List (Patch α Float32) :=
  readFrom f tensor none (MeshFormat.bound data) (.ofBytes data)

end Patch

end PdfContent
