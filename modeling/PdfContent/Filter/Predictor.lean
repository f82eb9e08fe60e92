import PdfContent.Bytes
import PdfContent.Word
/-!
# Predictor — undoing the prediction of bytes from their neighbors

Image rows are stored as differences to a prediction.  Decoding walks a row from left to right and looks back at what it
has decoded so far and at the row above; zeros stand beyond the edges.
-/
namespace PdfContent

structure Predictor where
  kind : Nat
  colors : Nat
  bitsPerComponent : Nat
  columns : Nat

namespace Predictor

/-- The distance between corresponding bytes of neighboring pixels. -/
def bytesPerPixel (p : Predictor) : Checked Nat := (Word.mul64 p.colors p.bitsPerComponent).map fun n => (n + 7) / 8

def rowLength (p : Predictor) : Checked Nat :=
  ((Word.mul64 p.columns p.colors).bind fun n => Word.mul64 n p.bitsPerComponent).map fun n => (n + 7) / 8

/-- The neighbor closest to `left + up - upLeft`; the first of several in the order left, up, up left. -/
def paeth (left up upLeft : UInt8) : UInt8 :=
  let p : Int := left.toNat + up.toNat - upLeft.toNat
  let a := (p - left.toNat).natAbs
  let b := (p - up.toNat).natAbs
  let c := (p - upLeft.toNat).natAbs
  if a ≤ b && a ≤ c then left else if b ≤ c then up else upLeft

def predict (type : UInt8) (left up upLeft : UInt8) : UInt8 :=
  match type.toNat with
  | 1 => left
  | 2 => up
  | 3 => ((left.toNat + up.toNat) / 2).toUInt8
  | 4 => paeth left up upLeft
  | _ => 0

def maxType : UInt8 := 4

/-- The byte `distance` places before place `i` of a row; beyond the edge there are zeros. -/
def before (row : Array UInt8) (i distance : Nat) : UInt8 :=
  if distance ≤ i then row.getD (i - distance) 0 else 0

def pngRow (type : UInt8) (distance : Nat) (above : Array UInt8) (row : Bytes) : Array UInt8 :=
  row.foldl (fun out b =>
    let i := out.size
    out.push (b + predict type (before out i distance) (above.getD i 0) (before above i distance))) #[]

def pngRows (distance : Nat) (above : Array UInt8) : List Bytes → Option Bytes
  | [] => some []
  | [] :: rows => pngRows distance above rows
  | (type :: row) :: rows =>
    if type > maxType then none
    else
      let row := pngRow type distance above row
      (pngRows distance row rows).map (row.toList ++ ·)

/-- Undoes the prediction of one row by the byte one pixel to the left. -/
def tiffRow (distance : Nat) (row : Bytes) : Bytes :=
  (row.foldl (fun out b => out.push (b + before out out.size distance)) #[]).toList

def apply (p : Predictor) (data : Bytes) : Checked (Option Bytes) :=
  if p.kind ≤ 1 then .ok (some data)
  else if p.kind == 2 then
    if p.bitsPerComponent != 8 then .ok (some data)
    else p.rowLength.map fun row => some ((Bytes.groups row data).map (tiffRow p.colors)).flatten
  else if 10 ≤ p.kind && p.kind ≤ 15 then
    p.rowLength.bind fun row => p.bytesPerPixel.map fun pixel =>
      if row == 0 then some [] else pngRows pixel #[] (Bytes.groups (row + 1) data)
  else .ok none

end Predictor

end PdfContent
