import Mathlib.Data.List.Forall2
import Mathlib.Data.List.MinMax
import PdfContent.Filter.Predictor
import PdfContent.Proofs.Yields
/-!
# Prediction — decoding undoes the prediction of rows

A byte is stored as its difference to a prediction from the bytes around it in the unfiltered image: its neighbor to the
left and the two above them, one pixel apart, with zeros beyond the edges.  Each row has a filter type of its own, or
all rows go by the neighbor to the left.  Since a prediction only looks back, decoding restores one byte after the
other (`foldl_restored`), one row after the other and so the whole image (`prediction_undone`).
-/
namespace PdfContent

/-- Rows of `n` bytes, of which the last one may be shorter. -/
def InRows (n : Nat) : List Bytes → Prop
  | [] => True
  | [row] => row.length ≤ n
  | row :: rows => row.length = n ∧ InRows n rows

namespace InRows

variable {n : Nat} {row : Bytes} {rows : List Bytes}

theorem tail (h : InRows n (row :: rows)) : InRows n rows := by
  cases rows with
  | nil => trivial
  | cons => exact h.2

theorem length_le (h : InRows n rows) : ∀ row ∈ rows, row.length ≤ n := by
  induction rows with
  | nil => exact nofun
  | cons row rows ih =>
    refine List.forall_mem_cons.mpr ⟨?_, ih h.tail⟩
    cases rows with
    | nil => exact h
    | cons => exact Nat.le_of_eq h.1

theorem flatten_eq_nil (h : InRows 0 rows) : rows.flatten = [] :=
  List.flatten_eq_nil_iff.mpr fun row hr => List.eq_nil_of_length_eq_zero (Nat.le_zero.mp (h.length_le row hr))

/-- Only the lengths count. -/
theorem lengthen {k : Nat} {rows' : List Bytes}
    (longer : rows.Forall₂ (fun row row' => row'.length = row.length + k) rows') (h : InRows n rows) :
    InRows (n + k) rows' := by
  induction longer with
  | nil => trivial
  | @cons row row' _ _ length rest ih =>
    cases rest with
    | nil =>
      have short : row.length ≤ n := h
      exact show row'.length ≤ n + k by omega
    | cons => exact ⟨by rw [length, h.1], ih h.2⟩

/-- Cutting the bytes of rows into groups gives the rows back, except for a last one without bytes. -/
theorem groups (h : InRows n rows) : Bytes.groups n rows.flatten = rows.filter (!·.isEmpty) := by
  suffices ∀ fuel, rows.flatten.length ≤ fuel → Bytes.groups.go n fuel rows.flatten = rows.filter (!·.isEmpty) from
    this _ (Nat.le_refl _)
  induction rows with
  | nil => intro fuel _; cases fuel <;> rfl
  | cons row rows ih =>
    intro fuel enough
    rw [List.flatten_cons, List.length_append] at enough
    cases row with
    | nil => exact ih h.tail fuel (by omega)
    | cons b r =>
      obtain ⟨fuel, rfl⟩ : ∃ k, fuel = k + 1 := ⟨fuel - 1, by rw [List.length_cons] at enough; omega⟩
      -- the row fills its group, or it is the last one
      have cut : (b :: r ++ rows.flatten).take n = b :: r ∧ (b :: r ++ rows.flatten).drop n = rows.flatten := by
        cases rows with
        | nil =>
          have short : (b :: r).length ≤ n := h
          simp only [List.flatten_nil, List.append_nil]
          exact ⟨List.take_of_length_le short, List.drop_of_length_le short⟩
        | cons => exact ⟨List.take_left' h.1, List.drop_left' h.1⟩
      rw [List.length_cons] at enough
      rw [List.flatten_cons, Bytes.groups.go, cut.1, cut.2, ih h.tail fuel (by omega)]
      rfl

end InRows

namespace Predictor

inductive FilterType where
  | none
  | sub
  | up
  | average
  | paeth
deriving DecidableEq

namespace FilterType

def byte : FilterType → UInt8
  | none => 0
  | sub => 1
  | up => 2
  | average => 3
  | paeth => 4

/-- What a byte is expected to be: one of its neighbors, the mean of two or the one that is closest to
`left + above - corner`, of several the first in the order left, above, corner. -/
def prediction (left above corner : UInt8) : FilterType → UInt8
  | none => 0
  | sub => left
  | up => above
  | average => ((left.toNat + above.toNat) / 2).toUInt8
  | paeth =>
    ([left, above, corner].argmin fun b => ((b.toNat : Int) - (left.toNat + above.toNat - corner.toNat)).natAbs).getD 0

/-- The first of three bytes that minimizes a distance. -/
theorem argmin_three (f : UInt8 → Nat) (a b c : UInt8) :
    [a, b, c].argmin f = some (if f a ≤ f b ∧ f a ≤ f c then a else if f b ≤ f c then b else c) := by
  have two : [b, c].argmin f = some (if f b ≤ f c then b else c) := by
    rw [List.argmin_cons, List.argmin_singleton]
    grind
  rw [List.argmin_cons, two]
  grind

theorem predict_eq (t : FilterType) (left above corner : UInt8) :
    predict t.byte left above corner = t.prediction left above corner := by
  cases t with
  | none | sub | up | average => rfl
  | paeth =>
    have distance (b : UInt8) (target : Int) : (target - b.toNat).natAbs = ((b.toNat : Int) - target).natAbs := by
      rw [← Int.natAbs_neg, Int.neg_sub]
    change Predictor.paeth left above corner = _
    simp only [prediction, argmin_three, Option.getD_some, Predictor.paeth, distance, Bool.and_eq_true,
      decide_eq_true_eq]

end FilterType

/-- The byte `distance` places before place `i` of a row, and zero beyond the edge. -/
def neighbor (row : Bytes) (i distance : Nat) : UInt8 := if i < distance then 0 else row.getD (i - distance) 0

/-- A row as differences to what its bytes are expected to be, from the unfiltered bytes of this row and the one
above. -/
def filtered (t : FilterType) (distance : Nat) (above row : Bytes) : Bytes :=
  row.mapIdx fun i b =>
    b - t.prediction (neighbor row i distance) (above.getD i 0) (neighbor above i distance)

/-- Rows with the bytes of their filter types in front, below the row `above`. -/
def filteredRows (distance : Nat) (above : Bytes) : List (FilterType × Bytes) → List Bytes
  | [] => []
  | (t, row) :: rows => (t.byte :: filtered t distance above row) :: filteredRows distance row rows

/-- A row as differences to the bytes one pixel to the left; the first pixel stays. -/
def differences (distance : Nat) (row : Bytes) : Bytes :=
  row.mapIdx fun i b => b - neighbor row i distance

/-- **Bytes are restored from their differences to predictions**, whatever a prediction sees of what is restored. -/
theorem foldl_restored {row stored : Bytes} (predicted : Array UInt8 → UInt8) (length : stored.length = row.length)
    (differ : ∀ i (h : i < row.length), stored[i] = row[i] - predicted (row.take i).toArray) :
    stored.foldl (fun out b => out.push (b + predicted out)) #[] = row.toArray := by
  have upTo (n : Nat) (hn : n ≤ row.length) :
      (stored.take n).foldl (fun out b => out.push (b + predicted out)) #[] = (row.take n).toArray := by
    induction n with
    | zero => rfl
    | succ n ih =>
      rw [List.take_succ_eq_append_getElem (by omega), List.take_succ_eq_append_getElem (by omega), List.foldl_append,
        ih (by omega), List.foldl_cons, List.foldl_nil, differ n (by omega), UInt8.sub_add_cancel, List.push_toArray]
  have whole := upTo row.length (Nat.le_refl _)
  rwa [← length, List.take_length, length, List.take_length] at whole

theorem getD_toArray (row : Bytes) (i : Nat) : row.toArray.getD i 0 = row.getD i 0 := by
  rw [Array.getD_eq_getD_getElem?, List.getElem?_toArray, List.getD_eq_getElem?_getD]

theorem before_toArray (row : Bytes) (i distance : Nat) : before row.toArray i distance = neighbor row i distance := by
  unfold before neighbor
  simp only [getD_toArray]
  split <;> split <;> first | rfl | omega

/-- What lies before a place is known when the place is reached. -/
theorem neighbor_take (row : Bytes) (i : Nat) {distance : Nat} (hd : 0 < distance) :
    neighbor (row.take i) i distance = neighbor row i distance := by
  unfold neighbor
  split
  · rfl
  · rw [List.getD_eq_getElem?_getD, List.getD_eq_getElem?_getD, List.getElem?_take_of_lt (by omega)]

theorem pngRow_filtered (t : FilterType) {distance : Nat} (hd : 0 < distance) (above row : Bytes) :
    pngRow t.byte distance above.toArray (filtered t distance above row) = row.toArray := by
  refine foldl_restored _ List.length_mapIdx fun i hi => ?_
  have size : (row.take i).toArray.size = i := by simp; omega
  simp only [filtered, List.getElem_mapIdx, size, before_toArray, neighbor_take row i hd, t.predict_eq, getD_toArray]

theorem tiffRow_differences {distance : Nat} (hd : 0 < distance) (row : Bytes) :
    tiffRow distance (differences distance row) = row := by
  refine congrArg Array.toList (foldl_restored _ List.length_mapIdx fun i hi => ?_)
  have size : (row.take i).toArray.size = i := by simp; omega
  simp only [differences, List.getElem_mapIdx, size, before_toArray, neighbor_take row i hd]

/-! ## Images -/

theorem filteredRows_longer (distance : Nat) : ∀ (above : Bytes) (rows : List (FilterType × Bytes)),
    (rows.map Prod.snd).Forall₂ (fun row stored => stored.length = row.length + 1) (filteredRows distance above rows)
  | _, [] => .nil
  | _, (_, row) :: rows => .cons (congrArg (· + 1) List.length_mapIdx) (filteredRows_longer distance row rows)

theorem filteredRows_nonempty (distance : Nat) : ∀ (above : Bytes) (rows : List (FilterType × Bytes)),
    (filteredRows distance above rows).filter (!·.isEmpty) = filteredRows distance above rows
  | _, [] => rfl
  | _, (_, row) :: rows => congrArg (_ :: ·) (filteredRows_nonempty distance row rows)

theorem pngRows_filteredRows {distance : Nat} (hd : 0 < distance) :
    ∀ (above : Bytes) (rows : List (FilterType × Bytes)),
      pngRows distance above.toArray (filteredRows distance above rows) = some (rows.map Prod.snd).flatten
  | _, [] => rfl
  | above, (t, row) :: rows => by
    have known : ¬t.byte > maxType := by cases t <;> decide
    rw [filteredRows, pngRows, if_neg known, pngRow_filtered t hd]
    exact congrArg (Option.map (row ++ ·)) (pngRows_filteredRows hd row rows)

theorem isEmpty_differences (distance : Nat) (row : Bytes) : (differences distance row).isEmpty = row.isEmpty := by
  cases row <;> simp [differences]

variable {p : Predictor}

theorem bytesPerPixel_eq {pixel : Nat} (h : p.bytesPerPixel = .ok pixel) :
    pixel = (p.colors * p.bitsPerComponent + 7) / 8 := by
  obtain ⟨n, hn, rfl⟩ := Checked.map_eq_ok_iff.mp h
  rw [(Word.fit_eq_ok_iff.mp hn).2]

theorem rowLength_eq {row : Nat} (h : p.rowLength = .ok row) :
    row = (p.columns * p.colors * p.bitsPerComponent + 7) / 8 := by
  obtain ⟨n, hn, rfl⟩ := Checked.map_eq_ok_iff.mp h
  obtain ⟨k, hk, hn⟩ := Checked.bind_eq_ok_iff.mp hn
  rw [(Word.fit_eq_ok_iff.mp hn).2, (Word.fit_eq_ok_iff.mp hk).2]

/-- A pixel takes bytes where a row does. -/
theorem pos_of_rowLength {row : Nat} (hr : p.rowLength = .ok row) (h : 0 < row) :
    0 < p.colors ∧ 0 < p.colors * p.bitsPerComponent := by
  have bits : p.columns * (p.colors * p.bitsPerComponent) ≠ 0 := by
    intro none
    rw [← Nat.mul_assoc] at none
    rw [rowLength_eq hr, none] at h
    exact absurd h (by decide)
  have pixel : 0 < p.colors * p.bitsPerComponent := Nat.pos_of_ne_zero (Nat.ne_zero_of_mul_ne_zero_right bits)
  exact ⟨Nat.pos_of_mul_pos_right pixel, pixel⟩

theorem tiffRows_differences {length : Nat} (hl : p.rowLength = .ok length) {rows : List Bytes}
    (h : InRows length rows) :
    ((Bytes.groups length (rows.map (differences p.colors)).flatten).map (tiffRow p.colors)).flatten = rows.flatten := by
  have same : rows.Forall₂ (fun row stored => stored.length = row.length + 0) (rows.map (differences p.colors)) :=
    List.forall₂_map_right_iff.mpr (List.forall₂_same.mpr fun row _ => List.length_mapIdx)
  have nonempty : (fun stored : Bytes => !stored.isEmpty) ∘ differences p.colors = fun row => !row.isEmpty :=
    funext fun row => congrArg (!·) (isEmpty_differences p.colors row)
  have restored (row : Bytes) (hr : row ∈ rows.filter (!·.isEmpty)) :
      (tiffRow p.colors ∘ differences p.colors) row = row := by
    obtain ⟨mem, full⟩ := List.mem_filter.mp hr
    have pos : 0 < row.length := List.length_pos_iff.mpr (by simpa using full)
    exact tiffRow_differences (pos_of_rowLength hl (Nat.lt_of_lt_of_le pos (h.length_le row mem))).1 row
  have image : InRows length (rows.map (differences p.colors)) := h.lengthen same
  rw [image.groups, List.filter_map, nonempty, List.map_map, List.map_congr_left restored, List.map_id',
    List.flatten_filter_not_isEmpty]

theorem apply_png (low : 10 ≤ p.kind) (high : p.kind ≤ 15) {length pixel : Nat} (hl : p.rowLength = .ok length)
    (hp : p.bytesPerPixel = .ok pixel) (data : Bytes) : p.apply data =
      .ok (if length = 0 then some [] else pngRows pixel #[] (Bytes.groups (length + 1) data)) := by
  unfold apply
  rw [if_neg (by omega), if_neg (by rw [beq_iff_eq]; omega), if_pos (by simp [low, high]), hl, hp]
  simp only [Except.bind, Except.map, beq_iff_eq]

theorem apply_tiff (kind : p.kind = 2) (bits : p.bitsPerComponent = 8) {length : Nat} (hl : p.rowLength = .ok length)
    (data : Bytes) : p.apply data = .ok (some ((Bytes.groups length data).map (tiffRow p.colors)).flatten) := by
  unfold apply
  rw [if_neg (by omega), if_pos (by rw [kind, beq_self_eq_true]), if_neg (by simp [bits]), hl]
  rfl

/-- **Decoding undoes prediction**: of rows that are filtered in any way each, and of rows as differences from pixel to
pixel.  The last row may be shorter than the others.  The numbers of bytes of a row and of a pixel have to fit into their
words. -/
theorem prediction_undone (p : Predictor) {length : Nat} (hl : p.rowLength = .ok length) :
    (10 ≤ p.kind → p.kind ≤ 15 → ∀ pixel, p.bytesPerPixel = .ok pixel →
      ∀ rows : List (FilterType × Bytes), InRows length (rows.map Prod.snd) →
        p.apply (filteredRows pixel [] rows).flatten = .ok (some (rows.map Prod.snd).flatten)) ∧
    (p.kind = 2 → p.bitsPerComponent = 8 → ∀ rows : List Bytes, InRows length rows →
      p.apply (rows.map (differences p.colors)).flatten = .ok (some rows.flatten)) := by
  constructor
  · intro low high pixel hp rows h
    rw [apply_png low high hl hp]
    split
    case isTrue empty =>
      rw [empty] at h
      rw [h.flatten_eq_nil]
    case isFalse full =>
      have bits := (pos_of_rowLength hl (Nat.pos_of_ne_zero full)).2
      have bytes : 0 < pixel := by
        rw [bytesPerPixel_eq hp]
        omega
      rw [(h.lengthen (filteredRows_longer _ [] rows)).groups, filteredRows_nonempty]
      exact congrArg Except.ok (pngRows_filteredRows bytes [] rows)
  · intro kind bits rows h
    rw [apply_tiff kind bits hl, tiffRows_differences hl h]

/-- Three filter types, a last row that is cut off in the middle of a pixel, and predictions that wrap around. -/
theorem mixed_filters_undone :
    let png : Predictor := ⟨15, 3, 4, 3⟩
    let rows : List (FilterType × Bytes) :=
      [(.average, [250, 9, 200, 7, 1]), (.paeth, [3, 250, 128, 0, 255]), (.sub, [7, 3, 2])]
    let tiff : Predictor := ⟨2, 3, 8, 2⟩
    let pixels : List Bytes := [[10, 20, 30, 5, 25, 30], [255, 0, 1, 0]]
    png.rowLength = .ok 5 ∧ png.bytesPerPixel = .ok 2 ∧ InRows 5 (rows.map Prod.snd) ∧
      png.apply (filteredRows 2 [] rows).flatten = .ok (some (rows.map Prod.snd).flatten) ∧
      tiff.rowLength = .ok 6 ∧ InRows 6 pixels ∧
      tiff.apply (pixels.map (differences tiff.colors)).flatten = .ok (some pixels.flatten) := by
  intro png rows tiff pixels
  have image : InRows 5 (rows.map Prod.snd) := by
    simp [InRows, rows]
  have picture : InRows 6 pixels := by
    simp [InRows, pixels]
  have five : png.rowLength = .ok 5 := by
    show rowLength ⟨15, 3, 4, 3⟩ = .ok 5
    rfl
  have two : png.bytesPerPixel = .ok 2 := by
    show bytesPerPixel ⟨15, 3, 4, 3⟩ = .ok 2
    rfl
  have six : tiff.rowLength = .ok 6 := by
    show rowLength ⟨2, 3, 8, 2⟩ = .ok 6
    rfl
  exact ⟨five, two, image, (prediction_undone png five).1 (by decide) (by decide) 2 two rows image, six, picture,
    (prediction_undone tiff six).2 rfl rfl pixels picture⟩

end Predictor

end PdfContent
