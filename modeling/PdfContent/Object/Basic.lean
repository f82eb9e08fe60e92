import PdfContent.Bytes
import PdfContent.Decimal.Shortest
import PdfContent.Text.Unicode
/-!
# Object — the values that a file is made of

Dictionaries list their entries in the order of the bytes of their keys, each key once, so that two dictionaries with
the same entries are equal.
-/
namespace PdfContent

structure Name where
  bytes : Bytes
deriving DecidableEq

namespace Name

def ofText (s : String) : Name := ⟨Bytes.ofText s⟩

instance : Coe String Name := ⟨ofText⟩

def text (n : Name) : String := Unicode.ofUtf8 n.bytes

end Name

structure ObjRef where
  num : Nat
  gen : Nat
deriving DecidableEq, Hashable

/-- A number.  Integers are kept apart from reals, since some operators accept only integers. -/
inductive Number where
  | int (i : Int)
  | real (x : Float)

namespace Number

def toFloat : Number → Float
  | .int i => Double.ofInt i
  | .real x => x

def toInt : Number → Int
  | .int i => i
  | .real x => Double.truncate x

def isInt : Number → Bool
  | .int _ => true
  | .real _ => false

def text : Number → String
  | .int i => toString i
  | .real x => Shortest.ofFloat x

end Number

mutual

inductive Object where
  | null
  | bool (b : Bool)
  | num (n : Number)
  | str (bytes : Bytes)
  | name (n : Name)
  | array (items : List Object)
  | dict (d : Dict)
  | stream (s : Stream)
  | ref (r : ObjRef)

structure Dict where
  entries : List (Name × Object)

structure Stream where
  dict : Dict
  data : Bytes

end

namespace Object

instance : Inhabited Object := ⟨.null⟩

def typeName : Object → String
  | .null => "null"
  | .bool _ => "boolean"
  | .num (.int _) => "integer"
  | .num (.real _) => "real"
  | .str _ => "string"
  | .name _ => "name"
  | .array _ => "array"
  | .dict _ => "dictionary"
  | .stream _ => "stream"
  | .ref _ => "reference"

def isNull : Object → Bool
  | .null => true
  | _ => false

def number? : Object → Option Number
  | .num n => some n
  | _ => none

def name? : Object → Option Name
  | .name n => some n
  | _ => none

def string? : Object → Option Bytes
  | .str s => some s
  | _ => none

def array? : Object → Option (List Object)
  | .array items => some items
  | _ => none

/-- The dictionary, if the value is one; that of a stream does not count. -/
def dict? : Object → Option Dict
  | .dict d => some d
  | _ => none

def stream? : Object → Option Stream
  | .stream s => some s
  | _ => none

def dictLike? : Object → Option Dict
  | .dict d => some d
  | .stream s => some s.dict
  | _ => none

end Object

namespace Dict

def empty : Dict := ⟨[]⟩

instance : Inhabited Dict := ⟨empty⟩

def keyLt (k l : Name) : Bool := k.bytes < l.bytes

def insertEntry (key : Name) (value : Object) : List (Name × Object) → List (Name × Object)
  | [] => [(key, value)]
  | (k, v) :: r =>
    if k = key then (key, value) :: r
    else if keyLt key k then (key, value) :: (k, v) :: r
    else (k, v) :: insertEntry key value r

def insert (d : Dict) (key : Name) (value : Object) : Dict := ⟨insertEntry key value d.entries⟩

/-- The dictionary with the given entries; of several with one key the last one counts. -/
def ofList (entries : List (Name × Object)) : Dict := entries.foldl (fun d (k, v) => d.insert k v) empty

/-- The value of a key as it stands, possibly a reference. -/
def get? (d : Dict) (key : Name) : Option Object := d.entries.lookup key

def contains (d : Dict) (key : Name) : Bool := (d.get? key).isSome

def keys (d : Dict) : List Name := d.entries.map (·.1)

end Dict

/-- The text of a string: UTF-16 after a byte order mark, else one character per byte. -/
def textOfString : Bytes → String
  | 0xfe :: 0xff :: r => Unicode.ofUtf16 r
  | s => Unicode.ofLatin1 s

end PdfContent
