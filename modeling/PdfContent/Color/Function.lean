import PdfContent.Diagnostic
import PdfContent.Filter.BitReader
import PdfContent.Filter.Basic
/-!
# Function — sampled, exponential and stitching functions

The interpolation between samples is written for any number system: its weights and sums are the same formulas over
floats and over exact numbers.
-/
namespace PdfContent

open Scalar

abbrev Ranges (γ : Type) := List (γ × γ)

/-- The nearest number of an interval; bounds in the wrong order are ignored. -/
def clampTo {γ : Type} [Scalar γ] (x : γ) (range : γ × γ) : γ :=
  if le range.1 range.2 then clamp range.1 range.2 x else x

/-- A table of samples over a grid, the first input varying fastest, with `outputs` numbers at each point. -/
structure Grid (γ : Type) where
  domain : Ranges γ
  size : List Nat
  encode : Ranges γ
  outputs : Nat
  samples : Array Nat

namespace Grid

variable {γ : Type} [Scalar γ]

/-- The place of an input on its axis: the sample below it, and how far it lies towards the next one.  The last sample
of an axis counts as the end of the step before it. -/
def place (x : γ) (domain encode : γ × γ) (size : Nat) : Nat × γ :=
  let e := clampTo (interpolate x domain.1 domain.2 encode.1 encode.2) (zero, ofInt (size - 1 : Nat))
  let i := Nat.min (toNat e) (size - 2)
  (i, if size > 1 then e - ofInt i else zero)

def places (g : Grid γ) (inputs : List γ) : List (Nat × γ) :=
  ((inputs.zip g.domain).zip (g.encode.zip g.size)).map fun ((x, domain), (encode, size)) =>
    place x domain encode size

/-- The weight of a corner of a cell and the index of its sample; bit `i` of the corner tells on which side of the cell
it lies along input `i`. -/
def corner (places : List (Nat × γ)) (size : List Nat) (bits : Nat) : γ × Nat :=
  go places size bits one 0 1
where
  go : List (Nat × γ) → List Nat → Nat → γ → Nat → Nat → γ × Nat
    | (base, frac) :: places, n :: size, bits, weight, index, stride =>
      let bit := bits % 2
      let weight := weight * (if bit == 1 then frac else one - frac)
      go places size (bits / 2) weight (index + Nat.min (base + bit) (n - 1) * stride) (stride * n)
    | _, _, _, weight, index, _ => (weight, index)

/-- The value of output `j` between the samples of a cell, before decoding: the sum over its corners, those without
weight left out. -/
def value (g : Grid γ) (places : List (Nat × γ)) (j : Nat) : γ :=
  (List.range (1 <<< g.size.length)).foldl (fun sum bits =>
    let (weight, index) := corner places g.size bits
    if eq weight zero then sum
    else sum + weight * ofInt (g.samples.getD (index * g.outputs + j) 0)) zero

end Grid

inductive Function where
  | sampled (grid : Grid Float32) (bits : Nat) (decode range : Ranges Float32)
  | exponential (domain : Ranges Float32) (range : Option (Ranges Float32)) (c0 c1 : List Float32) (n : Float32)
  | stitching (domain : Ranges Float32) (range : Option (Ranges Float32)) (functions : List Function)
      (bounds : List Float32) (encode : Ranges Float32)

/-- Adjusts the color components that are output: one function for all of them, or one for each of four. -/
inductive Transfer where
  | single (f : Function)
  | perComponent (fs : List Function)

namespace Function

def typeNumber : Function → Nat
  | sampled .. => 0
  | exponential .. => 2
  | stitching .. => 3

def domain : Function → Ranges Float32
  | sampled g .. => g.domain
  | exponential d .. => d
  | stitching d .. => d

mutual

def outputs? : Function → Option Nat
  | sampled _ _ _ range => some range.length
  | exponential _ _ c0 _ _ => some c0.length
  | stitching _ (some range) _ _ _ => some range.length
  | stitching _ none fs _ _ => firstOutputs? fs

def firstOutputs? : List Function → Option Nat
  | [] => none
  | f :: _ => f.outputs?

end

/-- The inputs, cut to the domain; one that is missing counts as 0. -/
def clampInputs {γ : Type} [Scalar γ] (domain : Ranges γ) (inputs : List γ) : List γ :=
  domain.zipIdx.map fun (range, i) => clampTo (inputs[i]?.getD zero) range

def firstInput (domain : Ranges Float32) (inputs : List Float32) : Float32 := (clampInputs domain inputs).headD 0

/-- Cuts as many of the outputs as there are ranges. -/
def clampOutputs (range : Option (Ranges Float32)) (outputs : List Float32) : List Float32 :=
  match range with
  | none => outputs
  | some range => outputs.zipIdx.map fun (v, i) =>
    match range[i]? with
    | some r => clampTo v r
    | none => v

def evalGrid (g : Grid Float32) (bits : Nat) (decode range : Ranges Float32) (inputs : List Float32) : List Float32 :=
  let places := g.places inputs
  let top := Single.ofNat ((1 <<< bits) - 1)
  (decode.zip range).zipIdx.map fun ((d, r), j) => clampTo (interpolate (g.value places j) 0 top d.1 d.2) r

/-- Which of the functions is in charge of an input: the place of the first bound above it. -/
def piece (bounds : List Float32) (x : Float32) : Nat := bounds.findIdx fun b => x < b

/-- The input of the function in charge: the part between two bounds is mapped to the interval it encodes. -/
def pieceInput (domain : Ranges Float32) (bounds : List Float32) (encode : Ranges Float32) (x : Float32) : Float32 :=
  let k := piece bounds x
  let ends := domain.headD (0, 0)
  let low := if k == 0 then ends.1 else bounds[k - 1]?.getD 0
  let high := bounds[k]?.getD ends.2
  let e := encode[k]?.getD (0, 0)
  interpolate x low high e.1 e.2

mutual

def eval (f : Function) (inputs : List Float32) : List Float32 :=
  match f with
  | sampled g bits decode range => evalGrid g bits decode range (clampInputs g.domain inputs)
  | exponential domain range c0 c1 n =>
    let t := (firstInput domain inputs).pow n
    clampOutputs range ((c0.zip c1).map fun (a, b) => a + t * (b - a))
  | stitching domain range fs bounds encode =>
    let x := firstInput domain inputs
    clampOutputs range (evalNth fs (piece bounds x) [pieceInput domain bounds encode x])

def evalNth (fs : List Function) (k : Nat) (inputs : List Float32) : List Float32 :=
  match fs, k with
  | [], _ => []
  | f :: _, 0 => f.eval inputs
  | _ :: fs, k + 1 => evalNth fs k inputs

end

/-! Reading functions from a file. -/

def maxNesting : Nat := 8

def maxInputs : Nat := 8

def maxSamples : Nat := 1 <<< 24

def ranges? (st : Store) (d : Dict) (key : Name) : Option (Ranges Float32) :=
  (st.list? d key : Option (List Float32)).bind fun xs => if xs.length % 2 == 0 then some (Bytes.pairs xs) else none

/-- The first `n` numbers of a given width; those that the data do not hold are 0. -/
def readSamples (data : Bytes) (bits n : Nat) : Array Nat :=
  let r := BitReader.ofBytes data
  let stored := data.length * 8 / bits
  Array.ofFn fun i : Fin n => if i.val < stored then r.value (i.val * bits) bits else 0

def readSampled (st : Store) (s : Stream) (domain : Ranges Float32) (range : Option (Ranges Float32)) :
    Except FunctionFault Function := do
  let d := s.dict
  let range := range.getD []
  if range.isEmpty then throw .noRange
  if domain.length > maxInputs then throw .tooManyInputs
  let bits := ((st.lookup? d "BitsPerSample" : Option UInt8).getD 0).toNat
  if !([1, 2, 4, 8, 12, 16, 24, 32] : List Nat).contains bits then throw (.badBits bits)
  let size := (st.list? d "Size" : Option (List Nat)).getD []
  if size.length != domain.length || size.any (· == 0) then throw .badSize
  let encode := ((ranges? st d "Encode").filter fun e => e.length == size.length).getD
    (size.map fun n => (0, Single.ofNat (n - 1)))
  let decode := ((ranges? st d "Decode").filter fun e => e.length == range.length).getD range
  let count := size.foldl (· * ·) range.length
  if count > maxSamples then throw .tooLarge
  match ← (s.decoded? st).mapError .panic with
  | none => throw .badData
  | some data => return .sampled ⟨domain, size, encode, range.length, readSamples data bits count⟩ bits decode range

def readExponential (st : Store) (d : Dict) (domain : Ranges Float32) (range : Option (Ranges Float32)) :
    Except FunctionFault Function := do
  let c0 := (st.list? d "C0").getD [0]
  let c1 := (st.list? d "C1").getD [1]
  if c0.length != c1.length then throw .outputsDiffer
  match (st.lookup? d "N" : Option Float32) with
  | none => throw .noExponent
  | some n => return .exponential domain range c0 c1 n

/-- Reads a function; `depth` is one more than the number of stitching functions that may still nest. -/
def read (st : Store) : Nat → Object → Except FunctionFault Function
  | 0, _ => throw .tooDeep
  | depth + 1, o => do
    let o := st.resolve o
    let some d := o.dictLike? | throw .notDictionary
    let some domain := (ranges? st d "Domain").filter (!·.isEmpty) | throw .noDomain
    let range := ranges? st d "Range"
    let type : Option Int := (st.lookup? d "FunctionType" : Option Int32).map Int32.toInt
    match type with
    | some 0 =>
      match o with
      | .stream s => readSampled st s domain range
      | _ => throw .notStream
    | some 2 => readExponential st d domain range
    | some 3 => do
      let some items := (st.lookup? d "Functions" : Option (List Object)) | throw .noParts
      let fs ← items.mapM (read st depth)
      if fs.isEmpty then throw .noParts
      let some bounds := (st.list? d "Bounds" : Option (List Float32)).filter (·.length == fs.length - 1)
        | throw .badBounds
      let some encode := (ranges? st d "Encode").filter (·.length == fs.length) | throw .badEncode
      return .stitching domain range fs bounds encode
    | some 4 => throw .postScript
    | some t => throw (.unknownType t)
    | none => throw .noType

def ofObject (st : Store) (o : Object) : Except FunctionFault Function := read st (maxNesting + 1) o

end Function

end PdfContent
