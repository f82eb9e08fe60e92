import PdfContent.Color.Function
/-!
# Space — colors and color spaces

Colors are converted to sRGB with the simple formulas of the device spaces; a color profile counts as its alternate
space.
-/
namespace PdfContent

open Scalar

abbrev Color := List Float32

structure Rgb where
  r : Float32
  g : Float32
  b : Float32

namespace Rgb

/-- The color with its components cut to the interval from 0 to 1. -/
def of (r g b : Float32) : Rgb := ⟨clamp 0 1 r, clamp 0 1 g, clamp 0 1 b⟩

def black : Rgb := of 0 0 0

/-- A component as a byte; half a step is rounded up. -/
def toByte (x : Float32) : Nat := Nat.min (toNat (x * 255 + 0.5)) 255

def toBytes (c : Rgb) : List Nat := [toByte c.r, toByte c.g, toByte c.b]

def hexByte (n : Nat) : String := String.ofList [Nat.digitChar (n / 16), Nat.digitChar (n % 16)]

/-- The color as a number sign and six hexadecimal digits. -/
def text (c : Rgb) : String := "#" ++ String.join (c.toBytes.map hexByte)

end Rgb

inductive ColorSpace where
  | deviceGray
  | deviceRgb
  | deviceCmyk
  | calGray
  | calRgb
  /-- The white point, and the ranges of the two components besides the lightness. -/
  | lab (white : Float32 × Float32 × Float32) (a b : Float32 × Float32)
  | iccBased (components : Nat) (alternate : ColorSpace)
  | indexed (base : ColorSpace) (top : Nat) (table : Bytes)
  | separation (name : Name) (alternate : ColorSpace) (tint : Function)
  | deviceN (names : List Name) (alternate : ColorSpace) (tint : Function)
  /-- The space of patterns, with that of uncolored ones. -/
  | pattern (under : Option ColorSpace)

namespace ColorSpace

instance : Inhabited ColorSpace := ⟨deviceGray⟩

def isPattern : ColorSpace → Bool
  | pattern _ => true
  | _ => false

/-- The space of uncolored patterns. -/
def under? : ColorSpace → Option ColorSpace
  | pattern under => under
  | _ => none

def components : ColorSpace → Nat
  | deviceGray | calGray | indexed .. | separation .. | pattern _ => 1
  | deviceRgb | calRgb | lab .. => 3
  | deviceCmyk => 4
  | iccBased n _ => n
  | deviceN names _ _ => names.length

/-- The nearest number to 0 in a range. -/
def nearestToZero (range : Float32 × Float32) : Checked Float32 :=
  if range.1 ≤ range.2 then .ok (clamp range.1 range.2 0) else .error .unorderedBounds

def defaultColor : ColorSpace → Checked Color
  | deviceCmyk => .ok [0, 0, 0, 1]
  | lab _ a b => do return [0, ← nearestToZero a, ← nearestToZero b]
  | separation .. => .ok [1]
  | deviceN names _ _ => .ok (List.replicate names.length 1)
  | cs => .ok (List.replicate cs.components 0)

/-- The intervals that the samples of an image of some bits stand for. -/
def defaultDecode (bits : Nat) : ColorSpace → Ranges Float32
  | indexed .. => [(0, Single.ofNat ((1 <<< Nat.min bits 16) - 1))]
  | lab _ a b => [(0, 100), a, b]
  | cs => List.replicate cs.components (0, 1)

def rgbOfCmyk (c m y k : Float32) : Rgb := .of ((1 - c) * (1 - k)) ((1 - m) * (1 - k)) ((1 - y) * (1 - k))

def labCurve (x : Float32) : Float32 := if x ≥ 6.0 / 29.0 then x * x * x else 108.0 / 841.0 * (x - 4.0 / 29.0)

def gamma (x : Float32) : Float32 := if x ≤ 0.0031308 then 12.92 * x else 1.055 * x.pow (1.0 / 2.4) - 0.055

def rgbOfLab (l a b : Float32) (white : Float32 × Float32 × Float32) : Rgb :=
  let m := (l + 16.0) / 116.0
  let x := white.1 * labCurve (m + a / 500.0)
  let y := white.2.1 * labCurve m
  let z := white.2.2 * labCurve (m - b / 200.0)
  .of (gamma (3.2406 * x - 1.5372 * y - 0.4986 * z)) (gamma (-0.9689 * x + 1.8758 * y + 0.0415 * z))
    (gamma (0.0557 * x - 0.2040 * y + 1.0570 * z))

/-- The nearest integer between 0 and `top`; halfway between two it is the greater one. -/
def nearestIndex (x : Float32) (top : Nat) : Nat :=
  let n := toNat x
  Nat.min (if x - Single.ofNat n ≥ 0.5 then n + 1 else n) top

/-- Converts a color to sRGB.  Components that are missing count as 0. -/
def toRgb : ColorSpace → Color → Rgb
  | deviceGray, c | calGray, c => .of (c.getD 0 0) (c.getD 0 0) (c.getD 0 0)
  | deviceRgb, c | calRgb, c => .of (c.getD 0 0) (c.getD 1 0) (c.getD 2 0)
  | deviceCmyk, c => rgbOfCmyk (c.getD 0 0) (c.getD 1 0) (c.getD 2 0) (c.getD 3 0)
  | lab white _ _, c => rgbOfLab (c.getD 0 0) (c.getD 1 0) (c.getD 2 0) white
  | iccBased _ alternate, c => alternate.toRgb c
  | indexed base top table, c =>
    let entry := (table.drop (nearestIndex (c.getD 0 0) top * base.components)).take base.components
    let decode := base.defaultDecode 8
    base.toRgb ((List.range base.components).map fun i =>
      let (low, high) := decode[i]?.getD (0, 1)
      low + Single.ofNat (entry[i]?.getD 0).toNat / 255.0 * (high - low))
  | separation _ alternate tint, c | deviceN _ alternate tint, c => alternate.toRgb (tint.eval c)
  | pattern _, _ => .black

/-! Reading color spaces from a file. -/

def maxNesting : Nat := 8

def maxColorants : Nat := 32

def deviceNames : List (Name × ColorSpace) :=
  [("DeviceGray", deviceGray), ("G", deviceGray), ("DeviceRGB", deviceRgb), ("RGB", deviceRgb),
    ("DeviceCMYK", deviceCmyk), ("CMYK", deviceCmyk)]

def ofName? (n : Name) : Option ColorSpace :=
  (deviceNames ++ [(Name.ofText "CalGray", calGray), (Name.ofText "CalRGB", calRgb),
    (Name.ofText "Pattern", pattern none)]).lookup n

def readLab (st : Store) (items : List Object) : ColorSpace :=
  let d : Dict := (st.item? items 1).getD .empty
  let white := match (st.list? d "WhitePoint" : Option (List Float32)) with
    | some [x, y, z] => (x, y, z)
    | _ => (0.9505, 1.0, 1.089)
  match (st.list? d "Range" : Option (List Float32)) with
  | some [a0, a1, b0, b1] => lab white (a0, a1) (b0, b1)
  | _ => lab white (-100, 100) (-100, 100)

def readTint (st : Store) (items : List Object) (i : Nat) : Except ColorSpaceFault Function :=
  match items[i]? with
  | none => throw .noTint
  | some o => (Function.ofObject st o).mapError .tint

def readTable (st : Store) (items : List Object) (i : Nat) : Except ColorSpaceFault Bytes := do
  match items[i]?.map st.resolve with
  | some (.str s) => pure s
  | some (.stream s) =>
    match ← (s.decoded? st).mapError .panic with
    | some data => pure data
    | none => throw .badLookup
  | _ => throw .noLookup

def ofComponents (n : Nat) : ColorSpace := if n == 1 then deviceGray else if n == 3 then deviceRgb else deviceCmyk

/-- Reads a color space given by a family and its parameters; `nested` reads one of the spaces it is built on. -/
def readFamily (st : Store) (nested : Object → Except ColorSpaceFault ColorSpace) (items : List Object) :
    Except ColorSpaceFault ColorSpace := do
  let some family := (st.item? items 0 : Option Name) | throw .noFamily
  let at_ (i : Nat) : Except ColorSpaceFault ColorSpace :=
    match items[i]? with
    | some o => nested o
    | none => throw .tooShort
  match if items.length == 1 then deviceNames.lookup family else none with
  | some cs => return cs
  | none =>
    if family == Name.ofText "CalGray" then return calGray
    else if family == Name.ofText "CalRGB" then return calRgb
    else if family == Name.ofText "Lab" then return readLab st items
    else if family == Name.ofText "ICCBased" then
      let some profile := (st.item? items 1 : Option Stream) | throw .noProfile
      let some n := (st.lookup? profile.dict "N" : Option Nat).filter fun n => n == 1 || n == 3 || n == 4
        | throw .badComponents
      let alternate ← match profile.dict.get? "Alternate" with
        | some o => (tolerate ColorSpaceFault.panic? (nested o)).mapError .panic
        | none => pure none
      return iccBased n ((alternate.filter fun cs => cs.components == n).getD (ofComponents n))
    else if family == Name.ofText "Indexed" || family == Name.ofText "I" then
      let base ← at_ 1
      match base with
      | indexed .. | pattern _ => throw .badBase
      | _ => pure ()
      let some top := (st.item? items 2 : Option Int32) | throw .noMaximum
      let top := Nat.min top.toInt.toNat 255
      let table ← readTable st items 3
      if table.length < (top + 1) * base.components then throw .shortLookup
      return indexed base top table
    else if family == Name.ofText "Separation" then
      let some name := (st.item? items 1 : Option Name) | throw .noColorant
      let alternate ← at_ 2
      return separation name alternate (← readTint st items 3)
    else if family == Name.ofText "DeviceN" then
      let names := ((st.item? items 1 : Option (List Object)).bind fun names => (st.all? names : Option (List Name)))
      let some names := names.filter fun names => !names.isEmpty && names.length ≤ maxColorants | throw .badColorants
      let alternate ← at_ 2
      return deviceN names alternate (← readTint st items 3)
    else if family == Name.ofText "Pattern" then
      match items[1]? with
      | some o => return pattern (some (← nested o))
      | none => return pattern none
    else throw (.unknownFamily family.text)

/-- Reads a color space; `depth` is one more than the number of spaces that may still be built on each other. -/
def read (st : Store) : Nat → Object → Except ColorSpaceFault ColorSpace
  | 0, _ => throw .tooDeep
  | depth + 1, o =>
    match st.resolve o with
    | .name n =>
      match ofName? n with
      | some cs => pure cs
      | none => throw (.unknownName n.text)
    | .array items => readFamily st (read st depth) items
    | other => throw (.unexpected other.typeName)

def ofObject (st : Store) (o : Object) : Except ColorSpaceFault ColorSpace := read st (maxNesting + 1) o

end ColorSpace

end PdfContent
