import PdfContent.Color.Space
/-!
# Image — the samples of images and what colors they stand for
-/
namespace PdfContent

open Scalar

structure ImageData where
  /-- Decoded, unless there is a codec. -/
  data : Bytes
  codec : Option ImageCodec
  params : Option Dict
  width : Nat
  height : Nat
  bits : Nat
  interpolate : Bool

namespace ImageData

/-- A width or height, which may be written as a real. -/
def dimension? (st : Store) (d : Dict) (key : Name) : Option Nat :=
  ((st.lookup? d key : Option Float).filter fun x => 1.0 ≤ x && x ≤ 4294967295.0).map fun x => x.toUInt32.toNat

/-- Whether the data say themselves how many bits a component has: the last filter is JPEG 2000. -/
def isSelfDescribing (st : Store) (d : Dict) : Bool :=
  let last : Option Name := match (st.lookup? d "Filter" : Option Object) with
    | some (.name n) => some n
    | some (.array items) => items.getLast?.bind fun o => o.name?
    | _ => none
  last == some (Name.ofText "JPXDecode")

def bits? (st : Store) (d : Dict) : Option Nat :=
  match (st.lookup? d "BitsPerComponent" : Option UInt8) with
  | some b => if ([1, 2, 4, 8, 16] : List UInt8).contains b then some b.toNat else none
  | none =>
    if (st.lookup? d "ImageMask").getD false then some 1
    else if isSelfDescribing st d then some 8
    else none

def ofStream (st : Store) (s : Stream) : Except ImageFault ImageData := do
  let d := s.dict
  let some width := dimension? st d "Width" | throw .badWidth
  let some height := dimension? st d "Height" | throw .badHeight
  let some bits := bits? st d | throw .badBits
  let some decoded ← (s.decodedImage? st).mapError .panic | throw .badData
  return ⟨decoded.data, decoded.codec, decoded.params, width, height, bits, (st.lookup? d "Interpolate").getD false⟩

end ImageData

structure ColorMap where
  space : ColorSpace
  bits : Nat
  decode : Ranges Float32

namespace ColorMap

/-- The map with the given ranges; without them, or if there are too few or too many, with the default ones. -/
def make (st : Store) (space : ColorSpace) (bits : Nat) (decode : Option (List Object)) : Except ImageFault ColorMap :=
  if space.isPattern then throw .patternColorSpace
  else
    let given := (decode.bind fun items => (st.all? items : Option (List Float32))).filter fun xs =>
      xs.length == 2 * space.components
    pure ⟨space, bits, (given.map Bytes.pairs).getD (space.defaultDecode bits)⟩

def toRgb (m : ColorMap) (raw : List Nat) : Rgb :=
  let top := Single.ofNat ((1 <<< Nat.min m.bits 32) - 1)
  m.space.toRgb ((raw.zip m.decode).map fun (v, (low, high)) => low + Single.ofNat v * (high - low) / top)

end ColorMap

namespace InlineImage

def keys : List (Name × Name) :=
  [("BPC", "BitsPerComponent"), ("CS", "ColorSpace"), ("D", "Decode"), ("DP", "DecodeParms"), ("F", "Filter"),
    ("H", "Height"), ("IM", "ImageMask"), ("I", "Interpolate"), ("W", "Width"), ("L", "Length")]

def values : List (Name × Name) :=
  [("G", "DeviceGray"), ("RGB", "DeviceRGB"), ("CMYK", "DeviceCMYK"), ("I", "Indexed"), ("AHx", "ASCIIHexDecode"),
    ("A85", "ASCII85Decode"), ("LZW", "LZWDecode"), ("Fl", "FlateDecode"), ("RL", "RunLengthDecode"),
    ("CCF", "CCITTFaxDecode"), ("DCT", "DCTDecode")]

mutual

def expandValue : Object → Object
  | .name n => .name ((values.lookup n).getD n)
  | .array items => .array (expandItems items)
  | o => o

def expandItems : List Object → List Object
  | [] => []
  | o :: r => expandValue o :: expandItems r

end

def expand (d : Dict) : Dict :=
  .ofList (d.entries.map fun (k, v) =>
    let key := (keys.lookup k).getD k
    (key, if key == Name.ofText "ColorSpace" || key == Name.ofText "Filter" then expandValue v else v))

end InlineImage

end PdfContent
