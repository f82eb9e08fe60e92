import PdfContent.Word
import PdfContent.Geometry.Affine
import PdfContent.Object.Basic
import Std.Data.HashMap
/-!
# Store — the indirect objects of a file, and what their values mean

References are resolved through the store before a value is converted to a type, so a reference may stand wherever a
value may.
-/
namespace PdfContent

/-- What a decompressor makes of data: the bytes that it gives, and whether it comes to the end without an error. -/
structure Inflated where
  bytes : Bytes
  finished : Bool

/-- The decompressor that streams are read with, for data in the format of zlib and for raw data. -/
structure Decompressor where
  zlib : Bytes → Inflated
  raw : Bytes → Inflated

def Decompressor.idle : Decompressor := ⟨fun _ => ⟨[], false⟩, fun _ => ⟨[], false⟩⟩

/-- The indirect objects of a file, its trailer dictionary, and what its streams are decompressed with. -/
structure Store where
  objects : Std.HashMap ObjRef Object
  trailer : Dict
  decompressor : Decompressor

namespace Store

def emptyWith (decompressor : Decompressor) : Store := ⟨{}, .empty, decompressor⟩

def empty : Store := emptyWith .idle

instance : Inhabited Store := ⟨empty⟩

def get? (st : Store) (r : ObjRef) : Option Object := st.objects[r]?

def insert (st : Store) (r : ObjRef) (o : Object) : Store := { st with objects := st.objects.insert r o }

def size (st : Store) : Nat := st.objects.size

/-- The identifiers in use, in ascending order. -/
def refs (st : Store) : List ObjRef :=
  st.objects.keys.mergeSort fun r s => r.num < s.num || (r.num == s.num && r.gen ≤ s.gen)

/-- The value that at most `steps - 1` references in a row lead to. -/
def follow (st : Store) : Nat → Object → Object
  | 0, _ => .null
  | steps + 1, .ref r =>
    match st.get? r with
    | some o => follow st steps o
    | none => .null
  | _ + 1, o => o

/-- The value an object stands for: a reference for what it leads to.  A reference to nothing, or more than fifteen in
a row, stand for null. -/
def resolve (st : Store) (o : Object) : Object := st.follow 16 o

end Store

class OfObject (β : Type) where
  /-- The conversion of a value that is no reference. -/
  ofDirect? : Store → Object → Option β

namespace Store

variable {β : Type} [OfObject β]

def as? (st : Store) (o : Object) : Option β := OfObject.ofDirect? st (st.resolve o)

def lookup? (st : Store) (d : Dict) (key : Name) : Option β := (d.get? key).bind st.as?

def item? (st : Store) (items : List Object) (i : Nat) : Option β := items[i]?.bind st.as?

def all? (st : Store) (items : List Object) : Option (List β) := items.mapM st.as?

/-- The elements of an array up to the first that is not of the type. -/
def leading (st : Store) : List Object → List β
  | [] => []
  | o :: r =>
    match st.as? o with
    | some v => v :: leading st r
    | none => []

end Store

namespace OfObject

/-- An integer, or the integer part of a real, if it lies between two bounds. -/
def int? (low high : Int) (o : Object) : Option Int :=
  o.number?.bind fun n => if low ≤ n.toInt && n.toInt ≤ high then some n.toInt else none

instance : OfObject Object := ⟨fun _ o => some o⟩

instance : OfObject Bool := ⟨fun _ o =>
  match o with
  | .bool b => some b
  | _ => none⟩

instance : OfObject Number := ⟨fun _ o => o.number?⟩

instance : OfObject Float := ⟨fun _ o => o.number?.map (·.toFloat)⟩

instance : OfObject Float32 := ⟨fun _ o => o.number?.map fun n => Single.ofFloat n.toFloat⟩

instance : OfObject Int := ⟨fun _ o => o.number?.map (·.toInt)⟩

instance : OfObject Int32 := ⟨fun _ o => (int? (-2147483648) 2147483647 o).map Int32.ofInt⟩

instance : OfObject UInt8 := ⟨fun _ o => (int? 0 255 o).map fun i => i.toNat.toUInt8⟩

instance : OfObject UInt16 := ⟨fun _ o => (int? 0 65535 o).map fun i => i.toNat.toUInt16⟩

instance : OfObject UInt32 := ⟨fun _ o => (int? 0 4294967295 o).map fun i => i.toNat.toUInt32⟩

instance : OfObject Nat := ⟨fun _ o => (int? 0 maxInt64 o).map (·.toNat)⟩

instance : OfObject Name := ⟨fun _ o => o.name?⟩

instance : OfObject (List Object) := ⟨fun _ o => o.array?⟩

instance : OfObject Dict := ⟨fun _ o => o.dict?⟩

instance : OfObject Stream := ⟨fun _ o => o.stream?⟩

def numbers? {α : Type} [Scalar α] (st : Store) (o : Object) : Option (List α) :=
  o.array?.bind fun items => (st.all? items).map fun (xs : List Float) => xs.map Scalar.ofFloat

instance {α : Type} [Scalar α] : OfObject (Rect α) := ⟨fun st o =>
  match numbers? st o with
  | some [x0, y0, x1, y1] => some (Rect.normalize ⟨x0, y0, x1, y1⟩)
  | _ => none⟩

instance {α : Type} [Scalar α] : OfObject (Affine α) := ⟨fun st o =>
  match numbers? st o with
  | some [a, b, c, d, e, f] => some ⟨a, b, c, d, e, f⟩
  | _ => none⟩

end OfObject

namespace Store

def list? {β : Type} [OfObject β] (st : Store) (d : Dict) (key : Name) : Option (List β) :=
  (st.lookup? d key : Option (List Object)).bind st.all?

def root? (st : Store) : Option Dict := st.lookup? st.trailer "Root"

end Store

end PdfContent
