import PdfContent.Proofs.Shading.Cells
import PdfContent.Proofs.Shading.Records
/-!
# Triangulation — which triangles the data of a mesh denotes

The vertices of a mesh are found by dividing its data into records of one size.  Those of a free-form mesh are added to
the triangles before them one at a time (`Assembly.add`): a vertex begins a triangle, continues one that has been begun,
is joined to an edge of the last one, or is dropped.  Those of a lattice are the corners of cells with two triangles each.
-/
namespace PdfContent

open Scalar

variable {α γ : Type}

namespace MeshFormat

open BitReader

variable (f : MeshFormat) (data : Bytes)

def flaggedBytes : Nat := bytesFor (f.flagBits + f.vertexBits)

def paddedBytes : Nat := bytesFor f.vertexBits

def flaggedAt [Scalar α] (k : Nat) : Nat × Vertex α Float32 :=
  let i := 8 * (k * f.flaggedBytes)
  (data.number i f.flagBits, f.vertexAt data (i + f.flagBits))

def flaggedRecords [Scalar α] : List (Nat × Vertex α Float32) :=
  (List.range (data.length / f.flaggedBytes)).map (f.flaggedAt data)

def latticeAt [Scalar α] (k : Nat) : Vertex α Float32 := f.vertexAt data (8 * (k * f.paddedBytes))

def latticeGrid [Scalar α] (perRow i j : Nat) : Vertex α Float32 := f.latticeAt data (i * perRow + j)

def latticeSize : Nat := data.length / f.paddedBytes

variable {f} [Scalar α]

theorem Admitted.vertexBits_pos (h : f.Admitted) : 0 < f.vertexBits := by
  have := h.coordinate_pos
  unfold vertexBits pointBits
  omega

/-- Padded records of one width are cut at the multiples of the bytes that hold them. -/
theorem records_padded {β : Type} {next? unpadded? : BitReader → Option (β × BitReader)} {width : Nat} {value : Nat → β}
    (takes : Takes data unpadded? width value) (positive : 0 < width)
    (padded : ∀ r, next? r = (unpadded? r).map fun (x, r) => (x, r.align)) :
    records next? (bound data) (.ofBytes data) =
      (List.range (data.length / bytesFor width)).map fun k => value (8 * (k * bytesFor width)) := by
  have next : ∀ b ≤ data.length, next? (atBit data (8 * b)) =
      if b + bytesFor width ≤ data.length then some (value (8 * b), atBit data (8 * (b + bytesFor width))) else none :=
    fun b hb => (padded _).trans (takes.padded hb)
  have all := records_eq (bytesFor_pos positive) next (bound data) 0 (Nat.zero_le _) (by unfold bound; omega)
  simp only [Nat.zero_add, Nat.sub_zero] at all
  exact all

/-- A free-form mesh is cut into records at the multiples of their size. -/
theorem Admitted.flagged_records (h : f.Admitted) :
    records f.flagged? (bound data) (.ofBytes data) = (f.flaggedRecords data : List (Nat × Vertex α Float32)) := by
  have takes := (h.flag data).bind fun flag => (h.vertex (α := α) data).map (Prod.mk flag)
  refine records_padded data takes (Nat.add_pos_right _ h.vertexBits_pos) fun r => ?_
  unfold flagged?
  cases r.read? f.flagBits with
  | none => rfl
  | some read => cases h : (f.vertex? read.2 : Option (Vertex α Float32 × BitReader)) <;> simp [h]

theorem Admitted.lattice_records (h : f.Admitted) : records f.padded? (bound data) (.ofBytes data) =
    ((List.range (f.latticeSize data)).map (f.latticeAt data) : List (Vertex α Float32)) :=
  records_padded data (h.vertex data) h.vertexBits_pos fun _ => rfl

end MeshFormat

/-- The complete groups start at the multiples of their size. -/
theorem Bytes.wholeGroups_eq {β : Type} {n : Nat} (hn : 0 < n) (xs : List β) :
    wholeGroups n xs = (List.range (xs.length / n)).map fun i => (xs.drop (i * n)).take n := by
  suffices ∀ fuel (xs : List β), xs.length ≤ fuel →
      (groups.go n fuel xs).filter (fun g => g.length == n) =
        (List.range (xs.length / n)).map fun i => (xs.drop (i * n)).take n from this _ xs (Nat.le_refl _)
  intro fuel
  induction fuel with
  | zero =>
    intro xs hl
    obtain rfl := List.eq_nil_of_length_eq_zero (Nat.le_zero.mp hl)
    rw [List.length_nil, Nat.zero_div]
    rfl
  | succ fuel ih =>
    intro xs hl
    cases xs with
    | nil =>
      rw [List.length_nil, Nat.zero_div]
      rfl
    | cons x r =>
      generalize hxs : x :: r = xs at hl
      have full : xs.isEmpty = false := by rw [← hxs]; rfl
      have rest := ih (xs.drop n) (by rw [List.length_drop]; omega)
      rw [groups.go, full, if_neg Bool.false_ne_true, List.filter_cons, List.length_take, rest]
      by_cases complete : n ≤ xs.length
      · have count : xs.length / n = (xs.drop n).length / n + 1 := by
          rw [List.length_drop, ← Nat.add_div_right _ hn, Nat.sub_add_cancel complete]
        rw [Nat.min_eq_left complete, beq_self_eq_true, if_pos rfl, count, List.range_succ_eq_map, List.map_cons,
          List.map_map, Nat.zero_mul, List.drop_zero]
        congr 1
        refine List.map_congr_left fun i _ => ?_
        rw [Function.comp_apply, List.drop_drop, Nat.succ_mul, Nat.add_comm n]
      · -- what is left is the only group, and it is too short
        have none : xs.length / n = 0 := Nat.div_eq_of_lt (Nat.not_le.mp complete)
        have short : (xs.length == n) = false := beq_false_of_ne (by omega)
        rw [Nat.min_eq_right (by omega), short, if_neg Bool.false_ne_true, none, List.drop_eq_nil_of_le (by omega),
          List.length_nil, Nat.zero_div]
        rfl

theorem Bytes.wholeGroups_map_range {β : Type} {n : Nat} (hn : 0 < n) (g : Nat → β) (count : Nat) :
    wholeGroups n ((List.range count).map g) =
      (List.range (count / n)).map fun i => (List.range n).map fun j => g (i * n + j) := by
  rw [wholeGroups_eq hn, List.length_map, List.length_range]
  refine List.map_congr_left fun i hi => List.ext_getElem ?_ fun j _ _ => ?_
  · have complete : (i + 1) * n ≤ count := (Nat.le_div_iff_mul_le hn).mp (List.mem_range.mp hi)
    rw [Nat.succ_mul] at complete
    simp only [List.length_take, List.length_drop, List.length_map, List.length_range]
    omega
  · simp only [List.getElem_take, List.getElem_drop, List.getElem_map, List.getElem_range]

namespace Triangle

open MeshFormat

/-! ## Free-form meshes -/

/-- The vertices of a triangle that is not complete yet. -/
inductive Begun (α γ : Type) where
  | none
  | one (a : Vertex α γ)
  | two (a b : Vertex α γ)

/-- The triangles of some records, in order, and the triangle that has been begun after them. -/
structure Assembly (α γ : Type) where
  triangles : List (Triangle α γ)
  begun : Begun α γ

/-- The triangle of a vertex and an edge of the triangle before it: the edge of its last two vertices with flag 1, of its
first and its last with flag 2. -/
def joined? (prev : Option (Triangle α γ)) (flag : Nat) (v : Vertex α γ) : Option (Triangle α γ) :=
  match flag, prev with
  | 1, some t => some ⟨t.b, t.c, v⟩
  | 2, some t => some ⟨t.a, t.c, v⟩
  | _, _ => none

/-- Adds a record.  The two records after one with flag 0 complete its triangle, whatever their flags are. -/
def Assembly.add (s : Assembly α γ) (record : Nat × Vertex α γ) : Assembly α γ :=
  match s.begun with
  | .none =>
    if record.1 = 0 then { s with begun := .one record.2 }
    else { s with triangles := s.triangles ++ (joined? s.triangles.getLast? record.1 record.2).toList }
  | .one a => { s with begun := .two a record.2 }
  | .two a b => ⟨s.triangles ++ [⟨a, b, record.2⟩], .none⟩

def assembled (records : List (Nat × Vertex α γ)) : List (Triangle α γ) :=
  (records.foldl Assembly.add ⟨[], .none⟩).triangles

namespace Assembly

variable {ts : List (Triangle α γ)} {prev : Option (Triangle α γ)} {flag : Nat} {v : Vertex α γ}

theorem add_joined {t : Triangle α γ} (h : ts.getLast? = prev) (hf : flag ≠ 0) (ht : joined? prev flag v = some t) :
    add ⟨ts, .none⟩ (flag, v) = ⟨ts ++ [t], .none⟩ := by
  simp only [add, hf, h, ht, ↓reduceIte, Option.toList_some]

theorem add_dropped (h : ts.getLast? = prev) (hf : flag ≠ 0) (ht : joined? prev flag v = none) :
    add ⟨ts, .none⟩ (flag, v) = ⟨ts, .none⟩ := by
  simp only [add, hf, h, ht, ↓reduceIte, Option.toList_none, List.append_nil]

theorem joined?_eq_none (h₁ : ∀ t, flag = 1 → prev = some t → False) (h₂ : ∀ t, flag = 2 → prev = some t → False) :
    joined? prev flag v = none := by
  unfold joined?
  split
  case h_1 t => exact (h₁ t rfl rfl).elim
  case h_2 t => exact (h₂ t rfl rfl).elim
  case h_3 => rfl

/-- Looking two records ahead is the same as remembering the vertices of a triangle that has been begun. -/
theorem triangles_foldl (prev : Option (Triangle α γ)) (records : List (Nat × Vertex α γ)) :
    ∀ ts : List (Triangle α γ), ts.getLast? = prev →
      (records.foldl add ⟨ts, .none⟩).triangles = ts ++ ofFlagged prev records := by
  fun_induction ofFlagged prev records with
  | case1 | case5 => exact fun ts _ => (List.append_nil ts).symm
  | case2 v t | case3 v t =>
    intro ts h
    rw [List.foldl_cons, add_joined h (by decide) rfl]
    rfl
  | case4 prev flag v h₁ h₂ =>
    intro ts h
    by_cases hf : flag = 0
    · -- a triangle is begun, and there is nothing to complete it
      rw [hf, List.append_nil]
      rfl
    · rw [List.foldl_cons, add_dropped h hf (joined?_eq_none h₁ h₂), List.append_nil]
      rfl
  | case6 v w t u ih | case7 v w t u ih | case10 v w x r t u ih | case11 v w x r t u ih =>
    intro ts h
    rw [List.foldl_cons, add_joined h (by decide) rfl, ih _ List.getLast?_concat, List.append_assoc]
    rfl
  | case9 prev v w u r t ih =>
    -- three records at once are three records added, the last of which completes the triangle
    intro ts _
    rw [List.append_cons]
    exact ih _ List.getLast?_concat
  | case8 flag v w prev hf h₁ h₂ ih | case12 flag v w u r prev hf h₁ h₂ ih =>
    intro ts h
    rw [List.foldl_cons, add_dropped h hf (joined?_eq_none h₁ h₂)]
    exact ih ts h

end Assembly

/-! ## Lattices -/

/-- The triangles of the cell of a grid below row `i` and right of column `j`: one has the corner at its top left, one the
corner at its bottom right, and both have the other two. -/
def cell (grid : Nat → Nat → Vertex α γ) (i j : Nat) : List (Triangle α γ) :=
  [⟨grid i j, grid i (j + 1), grid (i + 1) j⟩, ⟨grid i (j + 1), grid (i + 1) (j + 1), grid (i + 1) j⟩]

def cells (grid : Nat → Nat → Vertex α γ) (rows columns : Nat) : List (Triangle α γ) :=
  (List.range (rows - 1)).flatMap fun i => (List.range (columns - 1)).flatMap (cell grid i)

theorem length_cells (grid : Nat → Nat → Vertex α γ) (rows columns : Nat) :
    (cells grid rows columns).length = 2 * (columns - 1) * (rows - 1) := by
  have row (i : Nat) : ((List.range (columns - 1)).flatMap (cell grid i)).length = 2 * (columns - 1) := by
    simp only [List.length_flatMap, cell, List.length_cons, List.length_nil, Nat.zero_add, Nat.reduceAdd, List.map_const',
      List.length_range, List.sum_replicate_nat, Nat.mul_comm]
  simp only [cells, List.length_flatMap, row, List.map_const', List.length_range, List.sum_replicate_nat,
    Nat.mul_comm]

theorem ofRows_cells (grid : Nat → Nat → Vertex α γ) (i : Nat) : ∀ start n : Nat,
    ofRows ((List.range' start n).map (grid i)) ((List.range' start n).map (grid (i + 1))) =
      (List.range' start (n - 1)).flatMap (cell grid i)
  | _, 0 | _, 1 => rfl
  | start, n + 2 => congrArg (cell grid i start ++ ·) (ofRows_cells grid i (start + 1) (n + 1))

theorem ofLattice_cells (row : Nat → List (Vertex α γ)) : ∀ start n : Nat,
    ofLattice ((List.range' start n).map row) =
      (List.range' start (n - 1)).flatMap fun i => ofRows (row i) (row (i + 1))
  | _, 0 | _, 1 => rfl
  | start, n + 2 => congrArg (ofRows (row start) (row (start + 1)) ++ ·) (ofLattice_cells row (start + 1) (n + 1))

variable [Scalar α]

/-- The vertices of a lattice are those of a grid with as many rows as are complete. -/
theorem readLattice_cells {f : MeshFormat} (h : f.Admitted) (data : Bytes) {perRow : Nat} (positive : 0 < perRow) :
    (readLattice f perRow data : List (Triangle α Float32)) =
      cells (f.latticeGrid data perRow) (f.latticeSize data / perRow) perRow := by
  rw [readLattice, h.lattice_records data, Bytes.wholeGroups_map_range positive]
  simp only [List.range_eq_range', ofLattice_cells, cells]
  exact congrArg (List.flatMap · _) (funext fun i => ofRows_cells (f.latticeGrid data perRow) i 0 perRow)

/-- **The triangles of a mesh are those of its records.**  The data of a free-form mesh is a sequence of records of one
number of whole bytes, an incomplete one at the end left out, and its triangles are those that adding one record after the
other makes.  A lattice has two triangles for each cell between neighboring vertices of its complete rows. -/
theorem triangles_of_records {st : Store} {d : Dict} {n : Nat} {f : MeshFormat} (h : MeshFormat.read st d n = .ok f)
    (data : Bytes) :
    (readFreeForm f data : List (Triangle α Float32)) = assembled (f.flaggedRecords data) ∧
      ∀ perRow : Nat, 2 ≤ perRow →
        let rows := f.latticeSize data / perRow
        let triangles : List (Triangle α Float32) := readLattice f perRow data
        triangles = cells (f.latticeGrid data perRow) rows perRow ∧
          triangles.length = 2 * (perRow - 1) * (rows - 1) := by
  have admitted : f.Admitted := MeshFormat.read_admitted st d n f h
  constructor
  · rw [readFreeForm, admitted.flagged_records data]
    exact (Assembly.triangles_foldl none _ [] rfl).symm
  · intro perRow two
    have all := readLattice_cells (α := α) admitted data (Nat.lt_of_lt_of_le Nat.zero_lt_two two)
    exact ⟨all, (congrArg List.length all).trans (length_cells _ _ _)⟩

def vertex (x y c : Float32) : Vertex Float32 Float32 := ⟨⟨x, y⟩, [c]⟩

/-- The last vertex of a square is joined to the second and the third; and a lattice of the four is cut along the same diagonal,
with the byte after its last vertex left out. -/
theorem square_triangles : MeshFormat.read .empty bytewiseDict 1 = .ok bytewise ∧
    readFreeForm bytewise [0, 0, 0, 0, 0, 10, 0, 255, 0, 0, 10, 0, 1, 10, 10, 255] =
      [⟨vertex 0 0 0, vertex 10 0 1, vertex 0 10 0⟩, ⟨vertex 10 0 1, vertex 0 10 0, vertex 10 10 1⟩] ∧
    readLattice bytewise 2 [0, 0, 0, 10, 0, 255, 0, 10, 0, 10, 10, 255, 7] =
      [⟨vertex 0 0 0, vertex 10 0 1, vertex 0 10 0⟩, ⟨vertex 10 0 1, vertex 10 10 1, vertex 0 10 0⟩] := by
  refine ⟨read_bytewise, ?_, ?_⟩
  · exact (triangles_of_records (α := Float32) read_bytewise _).1.trans rfl
  · exact ((triangles_of_records (α := Float32) read_bytewise _).2 2 (Nat.le_refl 2)).1.trans rfl

end Triangle

end PdfContent
