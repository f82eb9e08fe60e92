import PdfContent.Store.Load
/-!
# Document — the pages of a file

A page takes its resources, boxes and rotation from the nearest node above it that has them.
-/
namespace PdfContent

open Scalar

structure Inherited (α : Type) where
  resources : Option Dict
  mediaBox : Option (Rect α)
  cropBox : Option (Rect α)
  rotate : Option Int32

structure Page (α : Type) where
  dict : Dict
  resources : Dict
  mediaBox : Rect α
  cropBox : Rect α
  bleedBox : Rect α
  trimBox : Rect α
  artBox : Rect α
  /-- Degrees, one of 0, 90, 180 and 270. -/
  rotation : Nat
  /-- A stream, an array of streams, or null. -/
  contents : Object

inductive PageBox where
  | media
  | crop
  | bleed
  | trim
  | art

variable {α : Type} [Scalar α]

namespace Inherited

def none : Inherited α := ⟨.none, .none, .none, .none⟩

/-- The attributes below a node: its own ones come first. -/
def update (st : Store) (d : Dict) (above : Inherited α) : Inherited α :=
  ⟨(st.lookup? d "Resources").or above.resources, (st.lookup? d "MediaBox").or above.mediaBox,
    (st.lookup? d "CropBox").or above.cropBox, (st.lookup? d "Rotate").or above.rotate⟩

end Inherited

namespace Page

/-- US Letter. -/
def defaultMediaBox : Rect α := ⟨zero, zero, ofInt 612, ofInt 792⟩

def hasArea (r : Rect α) : Bool := lt zero r.area

/-- The multiple of 90 nearest to an angle, modulo 360; halfway between two it is the greater one. -/
def quarterTurns (angle : Int) : Nat := ((angle % 360 + 45) / 90 * 90 % 360).toNat

def ofDict (st : Store) (d : Dict) (above : Inherited α) : Page α :=
  let own := above.update st d
  let media := (own.mediaBox.filter hasArea).getD defaultMediaBox
  let crop := ((own.cropBox.map fun r => r.intersect media).filter hasArea).getD media
  let other (key : Name) : Rect α :=
    (((st.lookup? d key : Option (Rect α)).map fun r => r.intersect crop).filter hasArea).getD crop
  { dict := d
    resources := own.resources.getD .empty
    mediaBox := media
    cropBox := crop
    bleedBox := other "BleedBox"
    trimBox := other "TrimBox"
    artBox := other "ArtBox"
    rotation := quarterTurns (own.rotate.getD 0).toInt
    contents := ((d.get? "Contents").map st.resolve).getD .null }

def box (p : Page α) : PageBox → Rect α
  | .media => p.mediaBox
  | .crop => p.cropBox
  | .bleed => p.bleedBox
  | .trim => p.trimBox
  | .art => p.artBox

end Page

namespace PageTree

/-- How many inner nodes may lie above each other. -/
def maxDepth : Nat := 64

/-- Whether a node is a page.  Without a type, a node without kids is one. -/
def isLeaf (st : Store) (d : Dict) : Bool :=
  match (st.lookup? d "Type" : Option Name) with
  | some t => t == Name.ofText "Page"
  | none => !d.contains "Kids"

/-- The pages below a node, and the references that were followed so far.  A reference is followed once. -/
def collect (st : Store) : Nat → Dict → Inherited α → List ObjRef → List (Page α) × List ObjRef
  | 0, _, _, visited => ([], visited)
  | depth + 1, node, above, visited =>
    let own := above.update st node
    ((st.lookup? node "Kids" : Option (List Object)).getD []).foldl (fun (pages, visited) kid =>
      let again := match kid with
        | .ref r => visited.contains r
        | _ => false
      if again then (pages, visited)
      else
        let visited := match kid with
          | .ref r => r :: visited
          | _ => visited
        match st.resolve kid with
        | .dict d =>
          if isLeaf st d then (pages ++ [Page.ofDict st d own], visited)
          else
            let (below, visited) := collect st depth d own visited
            (pages ++ below, visited)
        | _ => (pages, visited)) ([], visited)

end PageTree

structure Document (α : Type) where
  store : Store
  pages : List (Page α)

namespace Document

def ofStore (st : Store) : Except LoadError (Document α) :=
  match st.root? with
  | none => .error .missingCatalog
  | some root =>
    match root.get? "Pages" with
    | none => .error .missingPageTree
    | some pages =>
      match st.resolve pages with
      | .dict d =>
        let visited := match pages with
          | .ref r => [r]
          | _ => []
        .ok ⟨st, (PageTree.collect st (PageTree.maxDepth + 1) d .none visited).1⟩
      | _ => .error .missingPageTree

def load (decompressor : Decompressor) (file : Bytes) : Except LoadError (Document α) :=
  (Store.load decompressor file).bind ofStore

end Document

end PdfContent
