import PdfContent.Geometry.Scalar
/-!
# Affine — points, affine maps and rectangles
-/
namespace PdfContent

open Scalar

structure Point (α : Type) where
  x : α
  y : α
deriving DecidableEq, Repr

namespace Point

variable {α : Type} [Scalar α]

def origin : Point α := ⟨zero, zero⟩

def add (p q : Point α) : Point α := ⟨p.x + q.x, p.y + q.y⟩

def sub (p q : Point α) : Point α := ⟨p.x - q.x, p.y - q.y⟩

def scale (k : α) (p : Point α) : Point α := ⟨k * p.x, k * p.y⟩

def midpoint (p q : Point α) : Point α :=
  ⟨ofFloat 0.5 * (p.x + q.x), ofFloat 0.5 * (p.y + q.y)⟩

def map (f : α → β) (p : Point α) : Point β := ⟨f p.x, f p.y⟩

end Point

/-- The map that takes `(x, y)` to `(a * x + c * y + e, b * x + d * y + f)`. -/
structure Affine (α : Type) where
  a : α
  b : α
  c : α
  d : α
  e : α
  f : α
deriving DecidableEq, Repr

namespace Affine

variable {α : Type} [Scalar α]

def identity : Affine α := ⟨one, zero, zero, one, zero, zero⟩

def scale (k : α) : Affine α := ⟨k, zero, zero, k, zero, zero⟩

def scaleNonUniform (kx ky : α) : Affine α := ⟨kx, zero, zero, ky, zero, zero⟩

def translate (x y : α) : Affine α := ⟨one, zero, zero, one, x, y⟩

/-- The composition: `m.mul n` first applies `n`. -/
def mul (m n : Affine α) : Affine α :=
  ⟨m.a * n.a + m.c * n.b, m.b * n.a + m.d * n.b, m.a * n.c + m.c * n.d, m.b * n.c + m.d * n.d,
    m.a * n.e + m.c * n.f + m.e, m.b * n.e + m.d * n.f + m.f⟩

def apply (m : Affine α) (p : Point α) : Point α := ⟨m.a * p.x + m.c * p.y + m.e, m.b * p.x + m.d * p.y + m.f⟩

def applyVector (m : Affine α) (dx dy : α) : Point α := ⟨m.a * dx + m.c * dy, m.b * dx + m.d * dy⟩

def determinant (m : Affine α) : α := m.a * m.d - m.b * m.c

def isInvertible (m : Affine α) : Bool := isFinite m.determinant && !eq m.determinant zero

def inverse (m : Affine α) : Affine α :=
  let i := one / m.determinant
  ⟨i * m.d, -i * m.b, -i * m.c, i * m.a, i * (m.c * m.f - m.d * m.e), i * (m.b * m.e - m.a * m.f)⟩

def withOrigin (m : Affine α) (p : Point α) : Affine α := { m with e := p.x, f := p.y }

def map (g : α → β) (m : Affine α) : Affine β := ⟨g m.a, g m.b, g m.c, g m.d, g m.e, g m.f⟩

end Affine

/-- A rectangle with two opposite corners `(x0, y0)` and `(x1, y1)`, in no particular order. -/
structure Rect (α : Type) where
  x0 : α
  y0 : α
  x1 : α
  y1 : α
deriving DecidableEq, Repr

namespace Rect

variable {α : Type} [Scalar α]

def normalize (r : Rect α) : Rect α := ⟨min r.x0 r.x1, min r.y0 r.y1, max r.x0 r.x1, max r.y0 r.y1⟩

/-- What two rectangles have in common; without a common point, an empty rectangle. -/
def intersect (r s : Rect α) : Rect α :=
  let x0 := max r.x0 s.x0
  let y0 := max r.y0 s.y0
  ⟨x0, y0, max (min r.x1 s.x1) x0, max (min r.y1 s.y1) y0⟩

def union (r s : Rect α) : Rect α := ⟨min r.x0 s.x0, min r.y0 s.y0, max r.x1 s.x1, max r.y1 s.y1⟩

def area (r : Rect α) : α := (r.x1 - r.x0) * (r.y1 - r.y0)

def ofCorners (p q : Point α) : Rect α := normalize ⟨p.x, p.y, q.x, q.y⟩

end Rect

end PdfContent
