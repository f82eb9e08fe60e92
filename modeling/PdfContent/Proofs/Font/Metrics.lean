import PdfContent.Font.Composite
import PdfContent.Proofs.Font.LastEntry
import PdfContent.Proofs.Store.Load
/-!
# Metrics — which entry gives the width of a glyph

The arrays of a composite font mix two kinds of entries: the values of consecutive glyphs, in an array of their own, and
one value for all glyphs between two bounds.  Only the second object of an entry tells its kind, and any object may be a
reference (`Writes`).  Reading takes such an array entry by entry (`readWidths_writes`, `readVerticals_writes`), and the
metrics of a glyph are those of the last entry that covers it (`metrics_of_entries`).  A span stands for as many insertions
into a map as it has glyphs (`GlyphSpan.find?_eq_getElem?`).
-/
namespace PdfContent

/-- An entry: values of consecutive glyphs from a first one on, or one value for all glyphs between two bounds.  The numbers
of glyphs have 32 bits, and the bounds are no more than 65536 apart. -/
inductive MetricEntry (β : Type) where
  | listed (first : Nat) (values : List β) (begins : first < UInt32.size) (fits : first + values.length ≤ UInt32.size)
  | range (first last : Nat) (value : β) (ordered : first ≤ last) (narrow : last ≤ first + GlyphSpan.maxSpan)
      (fits : last < UInt32.size)

variable {β : Type}

def GlyphSpan.consecutive (first : Nat) (values : List β) : List (GlyphSpan β) :=
  values.zipIdx.map fun row => ⟨first + row.2, first + row.2, row.1⟩

namespace MetricEntry

def value? (glyph : Nat) : MetricEntry β → Option β
  | listed first values _ _ => if first ≤ glyph then values[glyph - first]? else none
  | range first last value _ _ _ => if first ≤ glyph ∧ glyph ≤ last then some value else none

def spans : MetricEntry β → List (GlyphSpan β)
  | listed first values _ _ => GlyphSpan.consecutive first values
  | range first last value _ _ _ => [⟨first, last, value⟩]

end MetricEntry

namespace GlyphSpan

def value? (glyph : Nat) (s : GlyphSpan β) : Option β := if s.low ≤ glyph ∧ glyph ≤ s.high then some s.value else none

theorem find?_eq_findSome? (glyph : Nat) (spans : List (GlyphSpan β)) :
    find? spans glyph = spans.reverse.findSome? (value? glyph) := by
  unfold find?
  induction spans.reverse with
  | nil => rfl
  | cons s spans ih =>
    have test : (decide (s.low ≤ glyph) && decide (glyph ≤ s.high)) = decide (s.low ≤ glyph ∧ glyph ≤ s.high) :=
      (Bool.decide_and ..).symm
    rw [List.find?_cons, List.findSome?_cons, value?, test]
    by_cases h : s.low ≤ glyph ∧ glyph ≤ s.high
    · rw [if_pos h, decide_eq_true h]
      rfl
    · rw [if_neg h, decide_eq_false h]
      exact ih

theorem find?_lastGiven (glyph : Nat) (spans : List (GlyphSpan β)) :
    LastGiven (value? glyph) spans (find? spans glyph) := by
  rw [lastGiven_iff, find?_eq_findSome?]

def rows (s : GlyphSpan β) : List (Nat × β) := rowsBetween s.low s.high fun _ => some s.value

/-- Looking for the last span of a glyph finds what a map holds for it after the values of all spans were inserted, glyph
by glyph. -/
theorem find?_eq_getElem? (spans : List (GlyphSpan β)) (glyph : Nat) :
    find? spans glyph = (insertedAll (spans.flatMap rows))[glyph]? := by
  have rows_value (s : GlyphSpan β) : LastGiven (rowValue? glyph) s.rows (value? glyph s) :=
    lastGiven_rowsBetween glyph s.low s.high _
  exact (getElem?_insertedAll rows_value (find?_lastGiven glyph spans)).symm

/-- Bounds that are in order and not too far apart are those of the span. -/
theorem ofBounds_fits {first last : Nat} (value : β) (narrow : last ≤ first + maxSpan) (fits : last < UInt32.size) :
    ofBounds first last value = ⟨first, last, value⟩ := by
  have inside : (decide ((0 : Int) ≤ last) && decide ((last : Int) < UInt32.size)) = true := by
    simp only [Bool.and_eq_true, decide_eq_true_eq]
    omega
  simp only [ofBounds, inside, ↓reduceIte, Int.toNat_natCast, Nat.min_eq_left narrow]

/-- Glyphs whose numbers fit into a word are listed without a panic. -/
theorem listed_zipIdx {first : Nat} {values : List β} (fits : first + values.length ≤ UInt32.size) :
    listed first values.zipIdx = .ok (consecutive first values) := by
  have each : ∀ rows : List (β × Nat), (∀ row ∈ rows, first + row.2 < UInt32.size) →
      listed first rows = .ok (rows.map fun row => ⟨first + row.2, first + row.2, row.1⟩) := by
    intro rows
    induction rows with
    | nil => exact fun _ => rfl
    | cons row rows ih =>
      intro small
      obtain ⟨hrow, hrows⟩ := List.forall_mem_cons.1 small
      have sum : Word.add32 first row.2 = .ok (first + row.2) := Word.fit_eq_ok_iff.2 ⟨hrow, rfl⟩
      unfold listed at ih ⊢
      rw [List.mapM_cons, ih hrows]
      dsimp only
      rw [sum]
      rfl
  refine each _ fun row hrow => ?_
  have := (List.mem_zipIdx hrow).2.1
  omega

end GlyphSpan

/-- The spans of an entry give the values that the entry gives. -/
theorem MetricEntry.spans_value (glyph : Nat) (e : MetricEntry β) :
    LastGiven (GlyphSpan.value? glyph) e.spans (e.value? glyph) := by
  cases e with
  | range first last value =>
    rw [spans, lastGiven_singleton]
    rfl
  | listed first values =>
    have rows := lastGiven_zipIdx id glyph first values
    rw [List.zipIdx_eq_map_add, lastGiven_map] at rows
    rw [spans, GlyphSpan.consecutive, lastGiven_map]
    simp only [GlyphSpan.value?, Nat.le_antisymm_iff, Option.map_id, id] at rows ⊢
    exact rows

/-- A glyph has the value of the last entry that covers it. -/
theorem GlyphSpan.find?_entries (glyph : Nat) (entries : List (MetricEntry β)) :
    LastGiven (MetricEntry.value? glyph) entries (find? (entries.flatMap MetricEntry.spans) glyph) :=
  (lastGiven_flatMap (MetricEntry.spans_value glyph)).1 (find?_lastGiven glyph _)

namespace CompositeFont

/-! ## Entries of an array -/

/-- How an array writes entries.  All numbers and arrays may be references; `row` are the numbers of a value. -/
inductive Writes (st : Store) (row : β → List Float) : List Object → List (MetricEntry β) → Prop
  | nil : Writes st row [] []
  | listed {c list : Object} {n : Number} {ws os : List Object} {first : Nat} {values : List β}
      {entries : List (MetricEntry β)} {begins : first < UInt32.size} {fits : first + values.length ≤ UInt32.size}
      (number : st.resolve c = .num n) (integer : n.toInt = first) (array : st.resolve list = .array ws)
      (numbers : ws.map (number? st) = (values.flatMap row).map some) (others : Writes st row os entries) :
      Writes st row (c :: list :: os) (.listed first values begins fits :: entries)
  | range {c d : Object} {m n : Number} {ws os : List Object} {first last : Nat} {value : β}
      {entries : List (MetricEntry β)} {ordered : first ≤ last} {narrow : last ≤ first + GlyphSpan.maxSpan}
      {fits : last < UInt32.size} (low : st.resolve c = .num m) (start : m.toInt = first)
      (high : st.resolve d = .num n) (stop : n.toInt = last) (numbers : ws.map (number? st) = (row value).map some)
      (others : Writes st row os entries) :
      Writes st row (c :: d :: (ws ++ os)) (.range first last value ordered narrow fits :: entries)

def widthRow (w : Float) : List Float := [w]

def verticalRow (v : VerticalMetrics) : List Float := [v.advance, v.originX, v.originY]

theorem glyph?_first {n : Number} {first : Nat} (integer : n.toInt = first) (begins : first < UInt32.size) :
    CMap.glyph? (.num n) = some first := by
  have inside : (decide ((0 : Int) ≤ first) && decide ((first : Int) < (UInt32.size : Int))) = true := by
    simp only [Bool.and_eq_true, decide_eq_true_eq]
    omega
  simp only [CMap.glyph?, Object.number?, Option.filter_some, integer, inside, ↓reduceIte, Option.map_some,
    Int.toNat_natCast]

theorem number?_eq_some {st : Store} {o : Object} {x : Float} (h : number? st o = some x) :
    ∃ n, (st.resolve o).number? = some n ∧ n.toFloat = x :=
  Option.map_eq_some_iff.1 h

theorem filterMap_numbers {γ : Type} {f : Object → Option γ} {ws : List Object} {values : List γ}
    (h : ws.map f = values.map some) : ws.filterMap f = values := by
  have outside : ws.filterMap f = (ws.map f).filterMap id := by
    rw [List.filterMap_map]
    rfl
  rw [outside, h, List.filterMap_map]
  exact List.filterMap_some

theorem zipIdx_numbers {γ δ : Type} {f : Object → Option γ} {g : γ → Nat → δ} {ws : List Object} {values : List γ}
    (h : ws.map f = values.map some) :
    ws.zipIdx.filterMap (fun row => (f row.1).map fun w => g w row.2) = values.zipIdx.map fun row => g row.1 row.2 := by
  have left : ws.zipIdx.filterMap (fun row => (f row.1).map fun w => g w row.2) =
      (ws.map f).zipIdx.filterMap fun row => row.1.map fun w => g w row.2 := by
    rw [List.zipIdx_map, List.filterMap_map]
    rfl
  rw [left, h, List.zipIdx_map, List.filterMap_map, ← List.filterMap_eq_map]
  rfl

section

variable {st : Store} {o : Object} {c : Nat} {r : List Object}

theorem readWidths_array {ws : List Object} {values : List Float} {spans : List (GlyphSpan Float)}
    (first : CMap.glyph? o = some c) (numbers : ws.map (number? st) = values.map some)
    (fits : c + values.length ≤ UInt32.size) (rest : readWidths st r = .ok spans) :
    readWidths st (o :: .array ws :: r) = .ok (GlyphSpan.consecutive c values ++ spans) := by
  have listed : ws.zipIdx.filterMap (fun row => (number? st row.1).map fun w => (w, row.2)) = values.zipIdx :=
    (zipIdx_numbers (g := Prod.mk) numbers).trans (List.map_id' _)
  rw [readWidths, first]
  simp only [listed, GlyphSpan.listed_zipIdx fits, rest]
  rfl

theorem readWidths_bounds {w : Object} {x : Number} {spans : List (GlyphSpan Float)} (first : CMap.glyph? o = some c)
    (hw : w.number? = some x) (last : Number) (rest : readWidths st r = .ok spans) :
    readWidths st (o :: .num last :: w :: r) = .ok (.ofBounds c last.toInt x.toFloat :: spans) := by
  rw [readWidths, first]
  simp only [hw, rest]
  rfl

theorem readVerticals_array {ws : List Object} {values : List VerticalMetrics} {spans : List (GlyphSpan VerticalMetrics)}
    (first : CMap.glyph? o = some c) (numbers : ws.map (number? st) = (values.flatMap verticalRow).map some)
    (fits : c + values.length ≤ UInt32.size) (rest : readVerticals st r = .ok spans) :
    readVerticals st (o :: .array ws :: r) = .ok (GlyphSpan.consecutive c values ++ spans) := by
  have triples := Bytes.triples_flatMap VerticalMetrics.advance VerticalMetrics.originX VerticalMetrics.originY values
  have listed : ((Bytes.triples (ws.filterMap (number? st))).zipIdx.map
      fun row => ((⟨row.1.1, row.1.2.1, row.1.2.2⟩ : VerticalMetrics), row.2)) = values.zipIdx := by
    rw [filterMap_numbers numbers]
    unfold verticalRow
    rw [triples, List.zipIdx_map, List.map_map]
    exact List.map_id' _
  rw [readVerticals, first]
  simp only [listed, GlyphSpan.listed_zipIdx fits, rest]
  rfl

theorem readVerticals_bounds {w v u : Object} {x y z : Number} {spans : List (GlyphSpan VerticalMetrics)}
    (first : CMap.glyph? o = some c) (hw : w.number? = some x) (hv : v.number? = some y) (hu : u.number? = some z)
    (last : Number) (rest : readVerticals st r = .ok spans) :
    readVerticals st (o :: .num last :: w :: v :: u :: r) =
      .ok (.ofBounds c last.toInt ⟨x.toFloat, y.toFloat, z.toFloat⟩ :: spans) := by
  rw [readVerticals, first]
  simp only [hw, hv, hu, rest]
  rfl

end

theorem readWidths_writes {st : Store} {os : List Object} {entries : List (MetricEntry Float)}
    (h : Writes st widthRow os entries) :
    readWidths st (os.map st.resolve) = .ok (entries.flatMap MetricEntry.spans) := by
  induction h with
  | nil => rfl
  | @listed c list n ws os first values entries begins fits number integer array numbers _ ih =>
    -- after the array only the objects of the other entries are left
    have single : values.flatMap widthRow = values := List.flatMap_singleton' values
    rw [single] at numbers
    rw [List.map_cons, List.map_cons, number, array, readWidths_array (glyph?_first integer begins) numbers fits ih]
    rfl
  | @range c d m n ws os first last value entries ordered narrow fits low start high stop numbers _ ih =>
    obtain ⟨w, rfl, hw⟩ := List.map_eq_singleton_iff.1 numbers
    obtain ⟨x, hx, rfl⟩ := number?_eq_some hw
    rw [List.map_cons, List.map_cons, low, high, List.singleton_append, List.map_cons,
      readWidths_bounds (glyph?_first start (Nat.lt_of_le_of_lt ordered fits)) hx n ih, stop,
      GlyphSpan.ofBounds_fits _ narrow fits]
    rfl

theorem readVerticals_writes {st : Store} {os : List Object} {entries : List (MetricEntry VerticalMetrics)}
    (h : Writes st verticalRow os entries) :
    readVerticals st (os.map st.resolve) = .ok (entries.flatMap MetricEntry.spans) := by
  induction h with
  | nil => rfl
  | @listed c list n ws os first values entries begins fits number integer array numbers _ ih =>
    rw [List.map_cons, List.map_cons, number, array, readVerticals_array (glyph?_first integer begins) numbers fits ih]
    rfl
  | @range c d m n ws os first last value entries ordered narrow fits low start high stop numbers _ ih =>
    obtain ⟨w, ws, rfl, hw, numbers⟩ := List.map_eq_cons_iff.1 numbers
    obtain ⟨v, ws, rfl, hv, numbers⟩ := List.map_eq_cons_iff.1 numbers
    obtain ⟨u, rfl, hu⟩ := List.map_eq_singleton_iff.1 numbers
    obtain ⟨x, hx, advance⟩ := number?_eq_some hw
    obtain ⟨y, hy, originX⟩ := number?_eq_some hv
    obtain ⟨z, hz, originY⟩ := number?_eq_some hu
    simp only [List.map_cons, List.cons_append, List.nil_append, low, high]
    rw [readVerticals_bounds (glyph?_first start (Nat.lt_of_le_of_lt ordered fits)) hx hy hz n ih, stop,
      GlyphSpan.ofBounds_fits _ narrow fits, advance, originX, originY]
    rfl

/-! ## The metrics of a font -/

def width (f : CompositeFont) (glyph : Nat) : Float := (GlyphSpan.find? f.widths glyph).getD f.defaultWidth

def metrics (f : CompositeFont) (glyph : Nat) : VerticalMetrics :=
  (GlyphSpan.find? f.verticals glyph).getD ⟨f.defaultAdvance, f.width glyph / 2, f.defaultOrigin⟩

def descendant? (st : Store) (d : Dict) : Option Dict :=
  (st.lookup? d "DescendantFonts" : Option (List Object)).bind fun fonts => (st.item? fonts 0 : Option Dict)

/-- The metrics of glyphs without entries, which have their origin above their middle. -/
def defaultMetrics (st : Store) (descendant : Dict) (width : Float) : VerticalMetrics :=
  match (st.list? descendant "DW2" : Option (List Float)) with
  | some [y, w] => ⟨w, width / 2, y⟩
  | _ => ⟨-1000, width / 2, 880⟩

/-- What is read from the dictionary of a font whose map and arrays are read without a panic. -/
theorem ofDict_descendant {st : Store} {d descendant : Dict} {widths : List (GlyphSpan Float)}
    {verticals : List (GlyphSpan VerticalMetrics)} (h : descendant? st d = some descendant)
    (hw : readWidths st (resolved st descendant "W") = .ok widths)
    (hv : readVerticals st (resolved st descendant "W2") = .ok verticals) :
    (∃ p, mapOf st d = .error p ∧ ofDict st d = .error (.panic p)) ∨
    ∃ f, ofDict st d = .ok f ∧ f.widths = widths ∧ f.defaultWidth = (st.lookup? descendant "DW").getD 1000 ∧
      f.verticals = verticals ∧ ∀ w, ⟨f.defaultAdvance, w / 2, f.defaultOrigin⟩ = defaultMetrics st descendant w := by
  unfold descendant? at h
  rw [ofDict, h]
  simp only [hw, hv]
  cases mapOf st d with
  | error p => exact .inl ⟨p, rfl, rfl⟩
  | ok cmap =>
    refine .inr ⟨_, rfl, rfl, rfl, rfl, fun w => ?_⟩
    unfold defaultMetrics
    rcases (st.list? descendant "DW2" : Option (List Float)) with _ | (_ | ⟨y, _ | ⟨a, _ | ⟨b, r⟩⟩⟩) <;> rfl

/-- **The metrics of a glyph are those of the last entry that covers it.**  The arrays of a font write any number of
entries, in either form and with references wherever a number or an array may stand.  The width of a glyph is what the
last entry that covers it gives, and the default width if there is none; the same holds of its vertical metrics.  The
width or the vertical metrics are those of the characters of a string.  Only decoding an embedded map may end in a panic. -/
theorem metrics_of_entries {st : Store} {d descendant : Dict} {widths : List (MetricEntry Float)}
    {verticals : List (MetricEntry VerticalMetrics)} (hd : descendant? st d = some descendant)
    (hw : Writes st widthRow ((st.lookup? descendant "W").getD []) widths)
    (hv : Writes st verticalRow ((st.lookup? descendant "W2").getD []) verticals) :
    (∃ p, mapOf st d = .error p ∧ ofDict st d = .error (.panic p)) ∨
    ∃ f, ofDict st d = .ok f ∧
      (∀ glyph, ∃ given, LastGiven (MetricEntry.value? glyph) widths given ∧
        f.width glyph = given.getD ((st.lookup? descendant "DW").getD 1000)) ∧
      (∀ glyph, ∃ given, LastGiven (MetricEntry.value? glyph) verticals given ∧
        f.metrics glyph = given.getD (defaultMetrics st descendant (f.width glyph))) ∧
      ∀ s code length glyph, f.cmap.nextCode? s = some (code, length) → f.cmap.glyph code = .ok glyph →
        (f.cmap.vertical = false →
          nextChar? f s = .ok (some ⟨code, length, "", f.width glyph / 1000, 0, 0, 0⟩)) ∧
        (f.cmap.vertical = true → ∀ m, f.metrics glyph = m →
          nextChar? f s = .ok (some ⟨code, length, "", 0, m.advance / 1000, m.originX / 1000, m.originY / 1000⟩)) := by
  refine (ofDict_descendant hd (readWidths_writes hw) (readVerticals_writes hv)).imp_right ?_
  rintro ⟨f, font, hwidths, hwidth, hverticals, hmetrics⟩
  refine ⟨f, font, fun glyph => ⟨_, GlyphSpan.find?_entries glyph widths, ?_⟩,
    fun glyph => ⟨_, GlyphSpan.find?_entries glyph verticals, ?_⟩, fun s code length glyph next mapped => ?_⟩
  · rw [width, hwidths, hwidth]
  · rw [metrics, hverticals, hmetrics]
  have char : nextChar? f s = .ok (some (f.charOf code length glyph)) := by
    simp only [nextChar?, next, mapped]
    rfl
  rw [char]
  refine ⟨fun hf => ?_, ?_⟩
  · simp only [charOf, hf, Bool.false_eq_true, ↓reduceIte, width]
  · rintro ht m rfl
    simp only [charOf, ht, ↓reduceIte, metrics, width]

theorem resolve_ref {st : Store} {r : ObjRef} {o : Object} (h : st.get? r = some o) :
    st.resolve (.ref r) = st.follow 15 o := by
  rw [Store.resolve, Store.follow, h]

def storedWidths : Store :=
  ((Store.empty.insert ⟨7, 0⟩ (.num (.int 20))).insert ⟨8, 0⟩ (.num (.int 600))).insert ⟨9, 0⟩
    (.array [.num (.int 500), .ref ⟨8, 0⟩])

def mixedDescendant : Dict :=
  .ofList [("DW", .num (.int 900)),
    ("W", .array [.num (.int 1), .ref ⟨9, 0⟩, .num (.int 2), .ref ⟨7, 0⟩, .num (.int 250)]),
    ("W2", .array [.num (.int 5), .array [.num (.int (-500)), .num (.int 300), .num (.int 800)]])]

def mixedFont : Dict :=
  .ofList [("Encoding", .name "Identity-H"), ("DescendantFonts", .array [.dict mixedDescendant])]

theorem writes_mixed :
    Writes storedWidths widthRow ((storedWidths.lookup? mixedDescendant "W").getD [])
      [.listed 1 [Double.ofInt 500, Double.ofInt 600] (by decide) (by decide),
        .range 2 20 (Double.ofInt 250) (by decide) (by decide) (by decide)] := by
  have array : (storedWidths.lookup? mixedDescendant "W").getD [] =
      [.num (.int 1), .ref ⟨9, 0⟩, .num (.int 2), .ref ⟨7, 0⟩, Object.num (.int 250)] := rfl
  rw [array]
  have seven : storedWidths.get? ⟨7, 0⟩ = some (.num (.int 20)) := by simp [storedWidths, Store.get?_insert]
  have eight : storedWidths.get? ⟨8, 0⟩ = some (.num (.int 600)) := by simp [storedWidths, Store.get?_insert]
  have nine : storedWidths.get? ⟨9, 0⟩ = some (.array [.num (.int 500), .ref ⟨8, 0⟩]) := by
    simp [storedWidths, Store.get?_insert]
  have numbers : [Object.num (.int 500), .ref ⟨8, 0⟩].map (number? storedWidths) =
      [some (Double.ofInt 500), some (Double.ofInt 600)] := by
    simp only [List.map_cons, number?, Store.as?, resolve_ref eight]
    rfl
  refine .listed rfl rfl (resolve_ref nine) numbers ?_
  exact .range rfl rfl (resolve_ref seven) rfl (show [Object.num (.int 250)].map (number? storedWidths) = _ from rfl) .nil

theorem writes_vertical :
    Writes storedWidths verticalRow ((storedWidths.lookup? mixedDescendant "W2").getD [])
      [.listed 5 [⟨Double.ofInt (-500), Double.ofInt 300, Double.ofInt 800⟩] (by decide) (by decide)] :=
  .listed (c := .num (.int 5)) rfl rfl rfl rfl .nil

/-- The range replaces the second width of the list, which is behind a reference. -/
theorem range_replaces_width : descendant? storedWidths mixedFont = some mixedDescendant ∧
    Writes storedWidths widthRow ((storedWidths.lookup? mixedDescendant "W").getD [])
      [.listed 1 [Double.ofInt 500, Double.ofInt 600] (by decide) (by decide),
        .range 2 20 (Double.ofInt 250) (by decide) (by decide) (by decide)] ∧
    Writes storedWidths verticalRow ((storedWidths.lookup? mixedDescendant "W2").getD [])
      [.listed 5 [⟨Double.ofInt (-500), Double.ofInt 300, Double.ofInt 800⟩] (by decide) (by decide)] ∧
    ∃ f, ofDict storedWidths mixedFont = .ok f ∧ f.width 1 = Double.ofInt 500 ∧ f.width 2 = Double.ofInt 250 ∧
      f.width 21 = Double.ofInt 900 ∧
      f.metrics 5 = ⟨Double.ofInt (-500), Double.ofInt 300, Double.ofInt 800⟩ ∧
      f.metrics 6 = ⟨-1000, Double.ofInt 250 / 2, 880⟩ := by
  have found : descendant? storedWidths mixedFont = some mixedDescendant := rfl
  obtain ⟨p, panics, -⟩ | ⟨f, font, widths, verticals, -⟩ := metrics_of_entries found writes_mixed writes_vertical
  · cases panics
  simp only [exists_lastGiven] at widths verticals
  have second : f.width 6 = Double.ofInt 250 := (widths 6).trans rfl
  refine ⟨found, writes_mixed, writes_vertical, f, font, (widths 1).trans rfl, (widths 2).trans rfl,
    (widths 21).trans rfl, (verticals 5).trans rfl, ?_⟩
  exact (verticals 6).trans (congrArg (fun w => (⟨-1000, w / 2, 880⟩ : VerticalMetrics)) second)

end CompositeFont
end PdfContent
