import PdfContent.Geometry.Affine
/-!
# Path — paths of lines and curves, and the path under construction

`Outline` is the path under construction: its elements, its current point and where its last subpath began.  The
operations keep the elements in a normal form, in which no two moves follow each other and every subpath starts with
one.
-/
namespace PdfContent

open Scalar

inductive PathStep (α : Type) where
  | move (p : Point α)
  | line (p : Point α)
  | quad (p₁ p : Point α)
  | curve (p₁ p₂ p : Point α)
  | close
deriving DecidableEq, Repr

abbrev Path (α : Type) := List (PathStep α)

namespace PathStep

variable {α : Type} [Scalar α]

def transform (m : Affine α) : PathStep α → PathStep α
  | .move p => .move (m.apply p)
  | .line p => .line (m.apply p)
  | .quad p₁ p => .quad (m.apply p₁) (m.apply p)
  | .curve p₁ p₂ p => .curve (m.apply p₁) (m.apply p₂) (m.apply p)
  | .close => .close

def isMove : PathStep α → Bool
  | .move _ => true
  | _ => false

def isClose : PathStep α → Bool
  | .close => true
  | _ => false

end PathStep

namespace Path

variable {α : Type} [Scalar α]

def polygon : List (Point α) → Path α
  | [] => []
  | p :: r => .move p :: r.map .line ++ [.close]

def rect (r : Rect α) : Path α :=
  polygon [⟨r.x0, r.y0⟩, ⟨r.x1, r.y0⟩, ⟨r.x1, r.y1⟩, ⟨r.x0, r.y1⟩]

def transform (m : Affine α) (path : Path α) : Path α := path.map (·.transform m)

/-- The lines of a path, as pairs of their ends: a curve counts as the line to its end, and closing draws a line unless
the subpath already ends where it began. -/
def chords (path : Path α) : List (Point α × Point α) :=
  go .origin .origin path
where
  go (start last : Point α) : Path α → List (Point α × Point α)
    | [] => []
    | .move p :: r => go p p r
    | .line p :: r => (last, p) :: go start p r
    | .quad _ p :: r => (last, p) :: go start p r
    | .curve _ _ p :: r => (last, p) :: go start p r
    | .close :: r =>
      if eq last.x start.x && eq last.y start.y then go start start r else (last, start) :: go start start r

def bounds (path : Path α) : Rect α :=
  match (chords path).map fun (p, q) => Rect.ofCorners p q with
  | [] => ⟨zero, zero, zero, zero⟩
  | r :: rs => rs.foldl Rect.union r

end Path

structure Outline (α : Type) where
  /-- The steps so far, the last one first. -/
  reversed : List (PathStep α)
  /-- Where the next segment starts, if one may be added. -/
  current : Option (Point α)
  /-- Where the last subpath began. -/
  start : Point α

namespace Outline

variable {α : Type} [Scalar α]

def empty : Outline α := ⟨[], none, .origin⟩

def path (o : Outline α) : Path α := o.reversed.reverse

/-- Whether there is at least one step besides moves. -/
def hasSegment (o : Outline α) : Bool := o.reversed.any fun s => !s.isMove

/-- Begins a subpath.  Of moves that follow each other only the last one stays. -/
def move (o : Outline α) (p : Point α) : Outline α :=
  match o.reversed with
  | .move _ :: r => ⟨.move p :: r, some p, p⟩
  | r => ⟨.move p :: r, some p, p⟩

/-- After a closed subpath, begins another one at the same point. -/
def reopen (o : Outline α) : List (PathStep α) :=
  match o.reversed with
  | .close :: r => .move o.start :: .close :: r
  | r => r

def line? (o : Outline α) (p : Point α) : Option (Outline α) :=
  o.current.map fun _ => { o with reversed := .line p :: o.reopen, current := some p }

def curve? (o : Outline α) (p₁ p₂ p : Point α) : Option (Outline α) :=
  o.current.map fun _ => { o with reversed := .curve p₁ p₂ p :: o.reopen, current := some p }

/-- Closes the subpath, if there is a current point, which moves back to where the subpath began.  A subpath that is
closed already or has only its move is left as it is. -/
def close? (o : Outline α) : Option (Outline α) :=
  o.current.map fun _ =>
    match o.reversed with
    | .close :: _ | .move _ :: _ => { o with current := some o.start }
    | r => { o with reversed := .close :: r, current := some o.start }

/-- Appends a closed rectangle, which leaves the current point at its first corner. -/
def rect (o : Outline α) (r : Rect α) : Outline α :=
  let o := o.move ⟨r.x0, r.y0⟩
  { o with reversed := .close :: .line ⟨r.x0, r.y1⟩ :: .line ⟨r.x1, r.y1⟩ :: .line ⟨r.x1, r.y0⟩ :: o.reversed }

/-- The outline of a given path; its current point is the end of the last segment. -/
def ofPath (path : Path α) : Outline α :=
  path.foldl (fun o s =>
    let o := { o with reversed := s :: o.reversed }
    match s with
    | .move p => { o with current := some p, start := p }
    | .line p | .quad _ p | .curve _ _ p => { o with current := some p }
    | .close => { o with current := some o.start }) empty

end Outline

end PdfContent
