import PdfContent.Filter.Ascii
import PdfContent.Filter.Lzw
import PdfContent.Filter.Predictor
import PdfContent.Filter.RunLength
import PdfContent.Store.Basic
/-!
# Filters — the encodings of stream data

Image codecs are not applied: their data is handed on together with the name of the codec.
-/
namespace PdfContent

inductive Filter where
  | asciiHex
  | ascii85
  | lzw
  | flate
  | runLength
  | ccittFax
  | jbig2
  | dct
  | jpx
  | crypt
deriving DecidableEq

inductive ImageCodec where
  | dct
  | jpx
  | ccittFax
  | jbig2
deriving DecidableEq

namespace Filter

def names : List (Name × Filter) :=
  [("ASCIIHexDecode", asciiHex), ("AHx", asciiHex), ("ASCII85Decode", ascii85), ("A85", ascii85), ("LZWDecode", lzw),
    ("LZW", lzw), ("FlateDecode", flate), ("Fl", flate), ("RunLengthDecode", runLength), ("RL", runLength),
    ("CCITTFaxDecode", ccittFax), ("CCF", ccittFax), ("JBIG2Decode", jbig2), ("DCTDecode", dct), ("DCT", dct),
    ("JPXDecode", jpx), ("Crypt", crypt)]

def ofName? (n : Name) : Option Filter := names.lookup n

def codec? : Filter → Option ImageCodec
  | dct => some .dct
  | jpx => some .jpx
  | ccittFax => some .ccittFax
  | jbig2 => some .jbig2
  | _ => none

def predictor (st : Store) : Option Dict → Predictor
  | none => ⟨1, 1, 8, 1⟩
  | some d =>
    ⟨((st.lookup? d "Predictor" : Option UInt8).getD 1).toNat, max ((st.lookup? d "Colors").getD 1) 1,
      (st.lookup? d "BitsPerComponent").getD 8, max ((st.lookup? d "Columns").getD 1) 1⟩

def earlyChange (st : Store) (params : Option Dict) : Bool :=
  ((params.bind fun d => (st.lookup? d "EarlyChange" : Option Int32)).getD 1) != 0

/-- What a decompressor gave.  If it ended with an error, what could be decoded counts, if there is anything. -/
def inflated? (x : Inflated) : Option Bytes := if x.finished || !x.bytes.isEmpty then some x.bytes else none

/-- Decompresses zlib data, or raw data without the header that some files leave out. -/
def inflate (d : Decompressor) (data : Bytes) : Option Bytes :=
  match inflated? (d.zlib data) with
  | some out => some out
  | none => inflated? (d.raw data)

def unpredicted (st : Store) (params : Option Dict) : Option Bytes → Checked (Option Bytes)
  | some data => (predictor st params).apply data
  | none => .ok none

/-- Decodes data.  Documents are never decrypted, so only the identity crypt filter can occur. -/
def apply (st : Store) (params : Option Dict) (data : Bytes) : Filter → Checked (Option Bytes)
  | asciiHex => .ok (AsciiHex.decode data)
  | ascii85 => .ok (Ascii85.decode data)
  | runLength => .ok (some (RunLength.decode data))
  | flate => unpredicted st params (inflate st.decompressor data)
  | lzw => unpredicted st params (Lzw.decode (earlyChange st params) data)
  | crypt => .ok (some data)
  | _ => .ok none

end Filter

structure DecodedImage where
  data : Bytes
  /-- The codec that the data is still encoded with. -/
  codec : Option ImageCodec
  /-- The parameters of the last filter. -/
  params : Option Dict

namespace Stream

def firstOf? (d : Dict) (keys : List Name) : Option Object := keys.findSome? d.get?

/-- The filters of a stream with their parameters, read from the given keys.  A dictionary of parameters that is not
in an array belongs to the first filter. -/
def filtersAt (st : Store) (s : Stream) (filterKeys paramKeys : List Name) : Option (List (Filter × Option Dict)) :=
  let names : Option (List Name) :=
    match (firstOf? s.dict filterKeys).map st.resolve with
    | none | some .null => some []
    | some (.name n) => some [n]
    | some (.array items) => st.all? items
    | some _ => none
  let params : List (Option Dict) :=
    match (firstOf? s.dict paramKeys).map st.resolve with
    | some (.dict d) => [some d]
    | some (.array items) => items.map fun o => (st.resolve o).dict?
    | _ => []
  names.bind fun names =>
    names.zipIdx.mapM fun (n, i) => (Filter.ofName? n).map fun f => (f, params[i]?.join)

def filters (st : Store) (s : Stream) : Option (List (Filter × Option Dict)) :=
  s.filtersAt st ["Filter"] ["DecodeParms"]

/-- Applies filters one after another.  An image codec must be the last one. -/
def applyFilters (st : Store) (last : Option Dict) (data : Bytes) :
    List (Filter × Option Dict) → Checked (Option DecodedImage)
  | [] => .ok (some ⟨data, none, last⟩)
  | (f, params) :: r =>
    match f.codec? with
    | some codec => .ok (if r.isEmpty then some ⟨data, some codec, params⟩ else none)
    | none =>
      match f.apply st params data with
      | .ok (some data) => applyFilters st params data r
      | .ok none => .ok none
      | .error p => .error p

def decoded? (st : Store) (s : Stream) : Checked (Option Bytes) :=
  match s.filters st with
  | none => .ok none
  | some fs => (applyFilters st none s.data fs).map fun image =>
    image.bind fun image => if image.codec.isNone then some image.data else none

/-- The data of an image, decoded up to its codec.  The abbreviated keys of inline images count as well. -/
def decodedImage? (st : Store) (s : Stream) : Checked (Option DecodedImage) :=
  match s.filtersAt st ["Filter", "F"] ["DecodeParms", "DP"] with
  | none => .ok none
  | some fs => applyFilters st none s.data fs

end Stream

end PdfContent
