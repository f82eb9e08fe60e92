import PdfContent.Shading.Mesh
/-!
# Shading — the seven kinds of smooth color transitions, and patterns
-/
namespace PdfContent

open Scalar

/-- The color function of a shading: one function for all components, or one for each. -/
structure ColorFunction where
  functions : List Function

namespace ColorFunction

/-- The color at a point of the domain.  Of one of several functions only the first output counts, which it has to
have. -/
def eval (f : ColorFunction) (inputs : List Float32) : Checked Color :=
  match f.functions with
  | [g] => .ok (g.eval inputs)
  | gs => gs.mapM fun g =>
    match g.eval inputs with
    | first :: _ => .ok first
    | [] => .error .noElement

end ColorFunction

inductive ShadingKind (α : Type) where
  /-- A function of the plane over the domain `x0 x1 y0 y1`. -/
  | function (x0 x1 y0 y1 : α) (matrix : Affine α) (f : ColorFunction)
  | axial (start stop : Point α) (domain : Float32 × Float32) (f : ColorFunction) (extend : Bool × Bool)
  | radial (c0 : Point α) (r0 : α) (c1 : Point α) (r1 : α) (domain : Float32 × Float32) (f : ColorFunction)
      (extend : Bool × Bool)
  | triangles (ts : List (Triangle α Float32)) (f : Option ColorFunction)
  | patches (ps : List (Patch α Float32)) (f : Option ColorFunction)

structure Shading (α : Type) where
  /-- From 1 to 7. -/
  type : Nat
  kind : ShadingKind α
  space : ColorSpace
  background : Option Color
  bounds : Option (Rect α)
  antiAlias : Bool

namespace Shading

variable {α : Type} [Scalar α]

def isGradient (s : Shading α) : Bool := s.type == 2 || s.type == 3

def vertexColor (s : Shading α) (color : Color) : Checked Color :=
  match s.kind with
  | .triangles _ (some f) | .patches _ (some f) => f.eval color
  | _ => .ok color

def readFunction (st : Store) (o : Object) : Except Diagnostic ColorFunction := do
  let fs ← match st.resolve o with
    | .array items => (items.mapM (Function.ofObject st)).mapError .unsupportedFunction
    | o => ((Function.ofObject st o).map fun f => [f]).mapError .unsupportedFunction
  if fs.isEmpty then throw (.unsupportedShading .noFunctions)
  return ⟨fs⟩

def requireFunction (st : Store) (d : Dict) : Except Diagnostic ColorFunction :=
  match d.get? "Function" with
  | some o => readFunction st o
  | none => throw (.unsupportedShading .noFunction)

def readFunctionKind (st : Store) (d : Dict) : Except Diagnostic (ShadingKind α) := do
  let matrix := (st.lookup? d "Matrix").getD .identity
  let f ← requireFunction st d
  match (st.list? d "Domain" : Option (List Float)) with
  | some [x0, x1, y0, y1] => return .function (ofFloat x0) (ofFloat x1) (ofFloat y0) (ofFloat y1) matrix f
  | _ => return .function zero one zero one matrix f

/-- An axial shading has four coordinates, a radial one six. -/
def readGradientKind (st : Store) (d : Dict) (radial : Bool) : Except Diagnostic (ShadingKind α) := do
  let coords := (st.list? d "Coords" : Option (List Float)).getD []
  let domain := match (st.list? d "Domain" : Option (List Float32)) with
    | some [t0, t1] => (t0, t1)
    | _ => (0, 1)
  let extend := match (st.list? d "Extend" : Option (List Bool)) with
    | some [a, b] => (a, b)
    | _ => (false, false)
  match radial, coords with
  | false, [x0, y0, x1, y1] =>
    return .axial ⟨ofFloat x0, ofFloat y0⟩ ⟨ofFloat x1, ofFloat y1⟩ domain (← requireFunction st d) extend
  | true, [x0, y0, r0, x1, y1, r1] =>
    return .radial ⟨ofFloat x0, ofFloat y0⟩ (ofFloat r0) ⟨ofFloat x1, ofFloat y1⟩ (ofFloat r1) domain
      (← requireFunction st d) extend
  | _, _ => throw (.unsupportedShading .badCoordinates)

def readMeshKind (st : Store) (s : Stream) (type : Nat) (space : ColorSpace) : Except Diagnostic (ShadingKind α) := do
  let f ← match s.dict.get? "Function" with
    | some o => (readFunction st o).map some
    | none => pure none
  let format ← (MeshFormat.read st s.dict (if f.isSome then 1 else space.components)).mapError .unsupportedShading
  let some data ← (s.decoded? st).mapError .panic | throw (.unsupportedShading .badData)
  if type == 4 then return .triangles (Triangle.readFreeForm format data) f
  else if type == 5 then
    let some perRow := (st.lookup? s.dict "VerticesPerRow" : Option Nat).filter (2 ≤ ·)
      | throw (.unsupportedShading .fewColumns)
    return .triangles (Triangle.readLattice format perRow data) f
  else return .patches (Patch.readAll format (type == 7) data) f

def ofObject (st : Store) (o : Object) : Except Diagnostic (Shading α) := do
  let o := st.resolve o
  let some d := o.dictLike? | throw (.unsupportedShading .notDictionary)
  let some type := (st.lookup? d "ShadingType" : Option UInt8).map (·.toNat) | throw (.unsupportedShading .noType)
  let some cs := d.get? "ColorSpace" | throw (.unsupportedShading .noColorSpace)
  let space ← (ColorSpace.ofObject st cs).mapError .badColorSpace
  if space.isPattern then throw (.unsupportedShading .patternColorSpace)
  let kind ←
    if type == 1 then readFunctionKind st d
    else if type == 2 || type == 3 then readGradientKind st d (type == 3)
    else if 4 ≤ type && type ≤ 7 then
      match o with
      | .stream s => readMeshKind st s type space
      | _ => throw (.unsupportedShading .notStream)
    else throw (.unsupportedShading (.unknownType type))
  return ⟨type, kind, space, (st.list? d "Background" : Option (List Float32)).filter (·.length == space.components),
    st.lookup? d "BBox", (st.lookup? d "AntiAlias").getD false⟩

end Shading

structure Tiling (α : Type) where
  /-- Whether the cell takes its color from the operator that selects the pattern. -/
  uncolored : Bool
  /-- From 1 to 3. -/
  tilingType : Nat
  bounds : Rect α
  xStep : Float
  yStep : Float
  matrix : Affine α
  resources : Dict
  content : Stream

inductive Pattern (α : Type) where
  | tiling (t : Tiling α)
  | shading (s : Shading α) (matrix : Affine α)

namespace Pattern

variable {α : Type} [Scalar α]

def typeNumber : Pattern α → Nat
  | tiling _ => 1
  | shading .. => 2

def matrix : Pattern α → Affine α
  | tiling t => t.matrix
  | shading _ m => m

def readTiling (st : Store) (s : Stream) (matrix : Affine α) : Except PatternFault (Tiling α) := do
  let d := s.dict
  let number (key : Name) : Option UInt8 := st.lookup? d key
  let step (key : Name) : Option Float := (st.lookup? d key).filter fun x => x != 0
  let some paint := (number "PaintType").filter fun t => t == 1 || t == 2 | throw .badPaintType
  let type := ((number "TilingType").filter fun t => 1 ≤ t && t ≤ 3).getD 1
  let some bounds := (st.lookup? d "BBox" : Option (Rect α)) | throw .noBounds
  let some xStep := step "XStep" | throw .badXStep
  let some yStep := step "YStep" | throw .badYStep
  return ⟨paint == 2, type.toNat, bounds, xStep, yStep, matrix, (st.lookup? d "Resources").getD .empty, s⟩

def ofObject (st : Store) (o : Object) : Except Diagnostic (Pattern α) := do
  let o := st.resolve o
  let some d := o.dictLike? | throw (.unsupportedPattern .notDictionary)
  let matrix := (st.lookup? d "Matrix").getD .identity
  match (st.lookup? d "PatternType" : Option UInt8).map (·.toNat) with
  | some 1 =>
    match o with
    | .stream s => (readTiling st s matrix).map tiling |>.mapError .unsupportedPattern
    | _ => throw (.unsupportedPattern .notStream)
  | some 2 =>
    let some s := d.get? "Shading" | throw (.unsupportedShading .missingInPattern)
    return shading (← Shading.ofObject st s) matrix
  | some t => throw (.unsupportedPattern (.unknownType t))
  | none => throw (.unsupportedPattern .noType)

end Pattern

end PdfContent
