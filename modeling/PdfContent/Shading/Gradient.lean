import PdfContent.Shading.Basic
/-!
# Gradient — axial and radial shadings as gradients with stops
-/
namespace PdfContent

open Scalar

/-- The geometry of a gradient.  The radius of the inner circle of a radial one is not part of it. -/
inductive GradientKind (α : Type) where
  | linear (start stop : Point α)
  | radial (focal center : Point α) (radius : α)

structure GradientStop where
  offset : Float32
  color : Rgb
  opacity : Float32

structure Gradient (α : Type) where
  kind : GradientKind α
  stops : List GradientStop
  /-- Whether the colors of both ends are extended. -/
  pad : Bool
  /-- From the space of the shading to that of the builder, if it is known. -/
  transform : Option (Affine α)

namespace Gradient

def share (domain : Float32 × Float32) (t : Float32) : Float32 := interpolate t domain.1 domain.2 0 1

def stopAt (space : ColorSpace) (f : Function) (domain : Float32 × Float32) (t : Float32) : GradientStop :=
  ⟨clamp 0 1 (share domain t), space.toRgb (f.eval [t]), 1⟩

/-- The exponent of an exponential function that stays close to its first color for most of the way. -/
def steepExponent? : Function → Option Float32
  | .exponential _ _ _ _ n => if n > 1 then some n else none
  | _ => none

/-- The stops after `prev` for the pieces of a stitching function between the bounds `low :: bounds`.  A steep piece is
approximated with a hard edge. -/
def pieceStops (at_ : Float32 → GradientStop) (domain : Float32 × Float32) (prev : GradientStop) (low : Float32) :
    List Float32 → List Function → Ranges Float32 → List GradientStop
  | high :: bounds, f :: fs, e :: encode =>
    let next := at_ high
    let edge := (steepExponent? f).map fun n =>
      let width := (high - low) / n
      if e.1 == 0 then { prev with offset := share domain (high - width) }
      else { next with offset := share domain (low + width) }
    edge.toList ++ next :: pieceStops at_ domain next high bounds fs encode
  | _, _, _ => []

def colorStops (space : ColorSpace) (f : ColorFunction) (domain : Float32 × Float32) :
    Except Diagnostic (List GradientStop) :=
  match f.functions with
  | [g] =>
    let at_ := stopAt space g domain
    match g with
    | .stitching _ _ fs bounds encode =>
      pure (at_ domain.1 :: pieceStops at_ domain (at_ domain.1) domain.1 (bounds ++ [domain.2]) fs encode)
    | _ => pure [at_ domain.1, at_ domain.2]
  | _ => throw (.unsupportedFunction .severalInGradient)

variable {α : Type} [Scalar α]

def ofShading (s : Shading α) (transform : Option (Affine α)) : Except Diagnostic (Gradient α) :=
  match s.kind with
  | .axial start stop domain f extend =>
    (colorStops s.space f domain).map fun stops => ⟨.linear start stop, stops, extend.1 && extend.2, transform⟩
  | .radial c0 _ c1 r1 domain f extend =>
    (colorStops s.space f domain).map fun stops => ⟨.radial c0 c1 r1, stops, extend.1 && extend.2, transform⟩
  | _ => throw (.unsupportedShading (.noGradient s.type))

end Gradient

end PdfContent
