import PdfContent.Filter.Basic
import PdfContent.Syntax.Reading
/-!
# Loading — recovering the objects of a file

The table of a file is not trusted.  Instead the whole file is scanned for the markers `N G obj`, so files with broken
tables can be read, and a later definition of an object replaces an earlier one.
-/
namespace PdfContent

inductive LoadError where
  | noObjects
  | missingCatalog
  | missingPageTree
  | encrypted
  | panic (p : Panic)
deriving DecidableEq

namespace LoadError

def message : LoadError → String
  | noObjects => "the file doesn't contain any objects"
  | missingCatalog => "the document catalog is missing"
  | missingPageTree => "the page tree is missing"
  | encrypted => "encrypted documents are not supported"
  | panic p => p.message

end LoadError

namespace Store

def markerWord : Bytes := Bytes.ofText "obj"

/-- The identifier in front of a marker, read backwards: white space, digits, white space, digits, and no regular byte
before them. -/
def markerRef? (before : Bytes) : Option ObjRef :=
  let s := before.dropWhile Byte.isBlank
  let gen := s.takeWhile Byte.isDigit
  let s := s.dropWhile Byte.isDigit
  let gap := s.takeWhile Byte.isBlank
  let s := s.dropWhile Byte.isBlank
  let num := s.takeWhile Byte.isDigit
  let s := s.dropWhile Byte.isDigit
  let ref : ObjRef := ⟨Bytes.decimal num.reverse, Bytes.decimal gen.reverse⟩
  if gen.isEmpty || gap.isEmpty || num.isEmpty || s.head?.any Byte.isRegular then none
  else if ref.num < UInt32.size && ref.gen < UInt16.size then some ref
  else none

/-- The markers of a file, each with what follows it.  `before` are the bytes already passed, the last one first. -/
def markersFrom (before : Bytes) : Bytes → List (ObjRef × Bytes)
  | [] => []
  | b :: r =>
    let rest := r.drop 2
    if markerWord.isPrefixOf (b :: r) && !rest.head?.any Byte.isRegular then
      match markerRef? before with
      | some ref => (ref, rest) :: markersFrom (b :: before) r
      | none => markersFrom (b :: before) r
    else markersFrom (b :: before) r

def markers (file : Bytes) : List (ObjRef × Bytes) := markersFrom [] file

def streamWord : Bytes := Bytes.ofText "stream"

def endStreamWord : Bytes := Bytes.ofText "endstream"

def dropEol (s : Bytes) : Bytes :=
  let s := if s.head? == some 0x0d then s.drop 1 else s
  if s.head? == some 0x0a then s.drop 1 else s

/-- Drops a line feed at the end, then a carriage return. -/
def dropLastEol (s : Bytes) : Bytes :=
  let s := if s.getLast? == some 0x0a then s.dropLast else s
  if s.getLast? == some 0x0d then s.dropLast else s

/-- The data of a stream at the start of `s`.  A length that stands directly in the dictionary is trusted if
`endstream` follows there; else the data ends before the first `endstream`. -/
def streamData? (d : Dict) (s : Bytes) : Option Bytes :=
  let length : Option Nat := match d.get? "Length" with
    | some (.num n) => if 0 ≤ n.toInt then some n.toInt.toNat else none
    | _ => none
  let search := (Bytes.breakOn? endStreamWord s).map fun (data, _) => dropLastEol data
  match length with
  | some n => if endStreamWord.isPrefixOf ((s.drop n).dropWhile Byte.isBlank) then some (s.take n) else search
  | none => search

def definition? (s : Bytes) : Option Object :=
  match Reading.object? s with
  | some (.dict d, rest) =>
    match Token.next? rest with
    | some (.keyword word, rest) =>
      if word == streamWord then (streamData? d (dropEol rest)).map fun data => .stream ⟨d, data⟩ else some (.dict d)
    | _ => some (.dict d)
  | some (o, _) => some o
  | none => none

/-- Adds the objects of a file, and collects the dictionaries of cross-reference streams, the last one first. -/
def addDefinitions (st : Store) (trailers : List Dict) : List (ObjRef × Bytes) → Store × List Dict
  | [] => (st, trailers)
  | (ref, s) :: r =>
    match definition? s with
    | none => addDefinitions st trailers r
    | some o =>
      let trailers := match o with
        | .stream s => if st.lookup? s.dict "Type" == some (Name.ofText "XRef") then s.dict :: trailers else trailers
        | _ => trailers
      addDefinitions (st.insert ref o) trailers r

def integerPairs : Nat → Bytes → List (Int × Int)
  | 0, _ => []
  | n + 1, s =>
    match Token.next? s with
    | some (.number (.int a), s) =>
      match Token.next? s with
      | some (.number (.int b), s) => (a, b) :: integerPairs n s
      | _ => []
    | _ => []

/-- Adds the objects of an object stream, except those that are defined already. -/
def addObjectStream (st : Store) (s : Stream) : Checked Store := do
  match ← s.decoded? st with
  | none => return st
  | some data =>
    let n : Nat := (st.lookup? s.dict "N").getD 0
    let first : Nat := (st.lookup? s.dict "First").getD 0
    -- Each pair takes more than one byte.
    return (integerPairs (min n data.length) data).foldl (fun st (num, offset) =>
      let ref : ObjRef := ⟨num.toNat, 0⟩
      if num < 0 || num ≥ UInt32.size || offset < 0 || (st.get? ref).isSome then st
      else
        match Reading.object? (data.drop (first + offset.toNat)) with
        | some (o, _) => st.insert ref o
        | none => st) st

def addObjectStreams (st : Store) : Checked Store :=
  let streams := st.refs.filterMap fun r => (st.get? r).bind fun o => o.stream?
  let streams := streams.filter fun s => st.lookup? s.dict "Type" == some (Name.ofText "ObjStm")
  streams.foldlM addObjectStream st

def trailerWord : Bytes := Bytes.ofText "trailer"

def trailerDicts (found : List Dict) : Bytes → List Dict
  | [] => found
  | b :: r =>
    if trailerWord.isPrefixOf (b :: r) then
      match Reading.object? (r.drop 6) with
      | some (.dict d, _) => trailerDicts (d :: found) r
      | _ => trailerDicts found r
    else trailerDicts found r

/-- A trailer for a file without one: its root is the first catalog. -/
def catalogTrailer? (st : Store) : Option Dict :=
  let isCatalog (r : ObjRef) : Bool :=
    match st.get? r with
    | some (.dict d) => st.lookup? d "Type" == some (Name.ofText "Catalog")
    | _ => false
  (st.refs.find? isCatalog).map fun r => .ofList [("Root", .ref r)]

/-- Loads the objects of a file.  Its trailer is the last dictionary with a root among those of cross-reference streams
and, after them, those of `trailer` sections. -/
def load (decompressor : Decompressor) (file : Bytes) : Except LoadError Store :=
  let (st, trailers) := addDefinitions (.emptyWith decompressor) [] (markers file)
  if st.objects.isEmpty then .error .noObjects
  else
    match st.addObjectStreams with
    | .error p => .error (.panic p)
    | .ok st =>
      let candidates := trailerDicts trailers file
      match (candidates.find? (·.contains "Root")).or st.catalogTrailer? with
      | none => .error .missingCatalog
      | some trailer =>
        if trailer.contains "Encrypt" then .error .encrypted else .ok { st with trailer }

end Store

end PdfContent
