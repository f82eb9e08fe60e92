import PdfContent.Diagnostic
import PdfContent.Filter.Basic
import PdfContent.Font.CMap
import PdfContent.Font.Simple
/-!
# Composite font — fonts with codes of several bytes
-/
namespace PdfContent

structure GlyphSpan (β : Type) where
  low : Nat
  high : Nat
  value : β

namespace GlyphSpan

def find? (spans : List (GlyphSpan β)) (glyph : Nat) : Option β :=
  (spans.reverse.find? fun s => s.low ≤ glyph && glyph ≤ s.high).map (·.value)

/-- How many glyphs a span may have after its first. -/
def maxSpan : Nat := 65536

/-- The span that a first and a last glyph number give; a last number that is no glyph's counts as 0. -/
def ofBounds (first : Nat) (last : Int) (value : β) : GlyphSpan β :=
  let last := if 0 ≤ last && last < UInt32.size then last.toNat else 0
  ⟨first, min last (first + maxSpan), value⟩

def listed (first : Nat) (values : List (β × Nat)) : Checked (List (GlyphSpan β)) :=
  values.mapM fun (value, i) => (Word.add32 first i).map fun glyph => ⟨glyph, glyph, value⟩

end GlyphSpan

structure VerticalMetrics where
  advance : Float
  originX : Float
  originY : Float

structure CompositeFont where
  cmap : CMap
  flags : FontFlags
  widths : List (GlyphSpan Float)
  defaultWidth : Float
  verticals : List (GlyphSpan VerticalMetrics)
  /-- The height of the origin and the advance of glyphs without metrics of their own. -/
  defaultOrigin : Float
  defaultAdvance : Float

namespace CompositeFont

def number? (st : Store) (o : Object) : Option Float := st.as? o

/-- Widths, of consecutive glyphs or of all glyphs between two bounds.  The first thing that does not fit ends them. -/
def readWidths (st : Store) : List Object → Checked (List (GlyphSpan Float))
  | first :: second :: r =>
    match CMap.glyph? first with
    | none => .ok []
    | some c =>
      match second, r with
      | .array ws, r => do
        let spans ← GlyphSpan.listed c (ws.zipIdx.filterMap fun (w, i) => (number? st w).map fun w => (w, i))
        return spans ++ (← readWidths st r)
      | .num last, w :: r =>
        match w.number? with
        | some w => do return .ofBounds c last.toInt w.toFloat :: (← readWidths st r)
        | none => .ok []
      | _, _ => .ok []
  | _ => .ok []

/-- Vertical metrics, like widths but in threes. -/
def readVerticals (st : Store) : List Object → Checked (List (GlyphSpan VerticalMetrics))
  | first :: second :: r =>
    match CMap.glyph? first with
    | none => .ok []
    | some c =>
      match second, r with
      | .array ws, r => do
        let spans ← GlyphSpan.listed c
          ((Bytes.triples (ws.filterMap (number? st))).zipIdx.map fun ((w, x, y), i) => (⟨w, x, y⟩, i))
        return spans ++ (← readVerticals st r)
      | .num last, w :: x :: y :: r =>
        match w.number?, x.number?, y.number? with
        | some w, some x, some y => do
          return .ofBounds c last.toInt ⟨w.toFloat, x.toFloat, y.toFloat⟩ :: (← readVerticals st r)
        | _, _, _ => .ok []
      | _, _ => .ok []
  | _ => .ok []

/-- An embedded map.  Its dictionary may override the direction of writing, and naming a vertical map there makes it
vertical. -/
def readMap (st : Store) (s : Stream) : Option Bytes → CMap
  | none => .ofIdentity false
  | some data =>
    let m := CMap.parse data
    match (st.lookup? s.dict "WMode" : Option UInt8) with
    | some mode => { m with vertical := mode == 1 }
    | none => { m with
        vertical := m.vertical || (st.lookup? s.dict "UseCMap" : Option Name) == some (Name.ofText "Identity-V") }

/-- The map of the font; one that is not known or missing counts as the identity. -/
def mapOf (st : Store) (d : Dict) : Checked CMap :=
  match (d.get? "Encoding").map st.resolve with
  | some (.name n) => .ok ((CMap.predefined? n).getD (.ofIdentity false))
  | some (.stream s) => (s.decoded? st).map (readMap st s)
  | _ => .ok (.ofIdentity false)

def resolved (st : Store) (d : Dict) (key : Name) : List Object :=
  ((st.lookup? d key : Option (List Object)).getD []).map st.resolve

def ofDict (st : Store) (d : Dict) : Except Diagnostic CompositeFont :=
  match (st.lookup? d "DescendantFonts" : Option (List Object)).bind fun fonts => (st.item? fonts 0 : Option Dict) with
  | none => .error (.missingResource "font" "descendant font")
  | some descendant =>
    let (origin, advance) := match (st.list? descendant "DW2" : Option (List Float)) with
      | some [y, w] => (y, w)
      | _ => (880, -1000)
    do
      let cmap ← (mapOf st d).mapError .panic
      let widths ← (readWidths st (resolved st descendant "W")).mapError .panic
      let verticals ← (readVerticals st (resolved st descendant "W2")).mapError .panic
      return ⟨cmap, .ofFont st descendant, widths, (st.lookup? descendant "DW").getD 1000, verticals, origin, advance⟩

/-- The character of a code of some bytes, without its text; `glyph` is the glyph of the code. -/
def charOf (f : CompositeFont) (code length glyph : Nat) : FontChar :=
  let width := (GlyphSpan.find? f.widths glyph).getD f.defaultWidth
  if f.cmap.vertical then
    let v := (GlyphSpan.find? f.verticals glyph).getD ⟨f.defaultAdvance, width / 2, f.defaultOrigin⟩
    ⟨code, length, "", 0, v.advance / 1000, v.originX / 1000, v.originY / 1000⟩
  else ⟨code, length, "", width / 1000, 0, 0, 0⟩

/-- The first character of a string, without its text. -/
def nextChar? (f : CompositeFont) (s : Bytes) : Checked (Option FontChar) :=
  match f.cmap.nextCode? s with
  | none => .ok none
  | some (code, length) => (f.cmap.glyph code).map fun glyph => some (f.charOf code length glyph)

end CompositeFont

end PdfContent
