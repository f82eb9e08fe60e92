import Mathlib.Algebra.BigOperators.Ring.Finset
import Mathlib.Algebra.Order.Field.Basic
import Mathlib.Data.Rat.Floor
import Mathlib.Tactic.FieldSimp
import Mathlib.Tactic.Linarith
import Mathlib.Tactic.NormNum
import Mathlib.Tactic.Positivity
import Mathlib.Tactic.Ring
import PdfContent.Proofs.Color.Reading
import PdfContent.Proofs.Geometry.Exact
/-!
# Interpolation — the values of a sampled function between its samples

The value is a sum over the corners of a cell of the grid.  Every corner is a point of the grid, so it has a sample that is
stored.  In exact numbers the sum is what linear interpolation along one axis after the other gives (`sum_corners`), which
is seen at the lowest bit of a corner: it tells on which side of the cell the corner lies along the first axis, and the
other bits are a corner of the cell along the axes that are left.
-/
namespace PdfContent

open Scalar (zero one clamp interpolate ofInt ofFloat32)

/-- The function that has the values `f` at natural numbers and is linear in between. -/
def lerp (f : Nat → Rat) (e : Rat) : Rat := f ⌊e⌋₊ + (e - ⌊e⌋₊) * (f (⌊e⌋₊ + 1) - f ⌊e⌋₊)

/-- Interpolates a table along one axis after the other. -/
def multilinear (f : List Nat → Rat) : List Rat → Rat
  | [] => f []
  | e :: es => lerp (fun i => multilinear (fun point => f (i :: point)) es) e

theorem lerp_natCast (f : Nat → Rat) (i : Nat) : lerp f i = f i := by
  rw [lerp, Nat.floor_natCast, sub_self, zero_mul, add_zero]

theorem multilinear_natCast : ∀ (f : List Nat → Rat) (point : List Nat),
    multilinear f (point.map (Nat.cast : Nat → Rat)) = f point
  | _, [] => rfl
  | f, i :: point => by
    rw [List.map_cons, multilinear, lerp_natCast, multilinear_natCast]

theorem multilinear_const (x : Rat) : ∀ es : List Rat, multilinear (fun _ => x) es = x
  | [] => rfl
  | e :: es => by
    rw [multilinear, multilinear_const x es, lerp, sub_self, mul_zero, add_zero]

namespace Grid

variable {γ : Type}

def IsPoint (size point : List Nat) : Prop := List.Forall₂ (· < ·) point size

def points (size : List Nat) : Nat := size.foldr (· * ·) 1

/-- The index of a point, the place on the first axis counting least. -/
def pointIndex : List Nat → List Nat → Nat
  | n :: size, i :: point => i + n * pointIndex size point
  | _, _ => 0

def sample (g : Grid γ) (j : Nat) (point : List Nat) : Nat :=
  g.samples.getD (pointIndex g.size point * g.outputs + j) 0

theorem pointIndex_lt {size point : List Nat} (h : IsPoint size point) : pointIndex size point < points size := by
  induction h with
  | nil => exact Nat.one_pos
  | @cons i n point size hi _ ih =>
    calc i + n * pointIndex size point < n + n * pointIndex size point := Nat.add_lt_add_right hi _
      _ = n * (pointIndex size point + 1) := by rw [Nat.mul_add_one, Nat.add_comm]
      _ ≤ n * points size := Nat.mul_le_mul_left n ih

theorem foldl_points (size : List Nat) (k : Nat) : size.foldl (· * ·) k = k * points size := by
  induction size generalizing k with
  | nil => rw [points, List.foldr_nil, Nat.mul_one, List.foldl_nil]
  | cons n size ih => rw [List.foldl_cons, ih, points, points, List.foldr_cons, Nat.mul_assoc]

/-- **The samples of a point are stored.** -/
theorem Filled.stored {g : Grid γ} (h : g.Filled) {point : List Nat} (hp : IsPoint g.size point) {j : Nat}
    (hj : j < g.outputs) : pointIndex g.size point * g.outputs + j < g.samples.size := by
  rw [h.samples, foldl_points, Nat.mul_comm g.outputs]
  calc pointIndex g.size point * g.outputs + j < pointIndex g.size point * g.outputs + g.outputs :=
        Nat.add_lt_add_left hj _
    _ = (pointIndex g.size point + 1) * g.outputs := (Nat.succ_mul _ _).symm
    _ ≤ points g.size * g.outputs := Nat.mul_le_mul_right _ (pointIndex_lt hp)

/-! ## The corners of a cell -/

def cornerPoint : List (Nat × γ) → List Nat → Nat → List Nat
  | (base, _) :: places, n :: size, bits => min (base + bits % 2) (n - 1) :: cornerPoint places size (bits / 2)
  | _, _, _ => []

theorem cornerPoint_isPoint {places : List (Nat × γ)} {size : List Nat} (bits : Nat)
    (hl : places.length = size.length) (hs : ∀ n ∈ size, 0 < n) : IsPoint size (cornerPoint places size bits) := by
  induction size generalizing places bits with
  | nil =>
    cases places with
    | nil => exact .nil
    | cons => cases hl
  | cons n size ih =>
    cases places with
    | nil => cases hl
    | cons place places =>
      have hn := hs n List.mem_cons_self
      exact .cons (by omega) (ih (bits / 2) (Nat.succ.inj hl) fun k hk => hs k (List.mem_cons_of_mem n hk))

theorem corner_go_index [Scalar γ] (places : List (Nat × γ)) (size : List Nat) (bits : Nat) (weight : γ)
    (index stride : Nat) :
    (corner.go places size bits weight index stride).2 = index + stride * pointIndex size (cornerPoint places size bits) := by
  induction size generalizing places bits weight index stride with
  | nil => cases places <;> simp [corner.go, pointIndex]
  | cons n size ih =>
    cases places with
    | nil => simp [corner.go, cornerPoint, pointIndex]
    | cons place places =>
      obtain ⟨base, frac⟩ := place
      rw [corner.go, ih, cornerPoint, pointIndex]
      ring

/-- **The index of a corner is that of its point.** -/
theorem corner_index [Scalar γ] (places : List (Nat × γ)) (size : List Nat) (bits : Nat) :
    (corner places size bits).2 = pointIndex size (cornerPoint places size bits) := by
  rw [corner, corner_go_index, Nat.zero_add, Nat.one_mul]

theorem length_places [Scalar γ] {g : Grid γ} (h : g.Filled) (inputs : List γ) :
    (g.places (Function.clampInputs g.domain inputs)).length = g.size.length := by
  rw [places, List.length_map, List.length_zip, List.length_zip, List.length_zip, Function.clampInputs, List.length_map,
    List.length_zipIdx, h.domain, h.encode, Nat.min_self, Nat.min_self]

/-- **Every corner has its sample.** -/
theorem Filled.corner_stored [Scalar γ] {g : Grid γ} (h : g.Filled) (inputs : List γ) (bits : Nat) {j : Nat}
    (hj : j < g.outputs) :
    (corner (g.places (Function.clampInputs g.domain inputs)) g.size bits).2 * g.outputs + j < g.samples.size := by
  rw [corner_index]
  exact h.stored (cornerPoint_isPoint bits (length_places h inputs) h.positive) hj

/-! ## The weights in exact numbers -/

/-- The weight of a corner, the product of its shares along the axes. -/
def cornerWeight : List (Nat × Rat) → List Nat → Nat → Rat
  | (_, frac) :: places, _ :: size, bits => (if bits % 2 = 1 then frac else 1 - frac) * cornerWeight places size (bits / 2)
  | _, _, _ => 1

theorem corner_go_weight (places : List (Nat × Rat)) (size : List Nat) (bits : Nat) (weight : Rat) (index stride : Nat) :
    (corner.go places size bits weight index stride).1 = weight * cornerWeight places size bits := by
  induction size generalizing places bits weight index stride with
  | nil => cases places <;> simp [corner.go, cornerWeight]
  | cons n size ih =>
    cases places with
    | nil => simp [corner.go, cornerWeight]
    | cons place places =>
      obtain ⟨base, frac⟩ := place
      have share : (if bits % 2 == 1 then frac else one - frac) = if bits % 2 = 1 then frac else 1 - frac := by
        simp only [beq_iff_eq]
        rfl
      rw [corner.go, ih, cornerWeight, share, mul_assoc]

theorem corner_weight (places : List (Nat × Rat)) (size : List Nat) (bits : Nat) :
    (corner places size bits).1 = cornerWeight places size bits := by
  rw [corner, corner_go_weight]
  exact one_mul _

def placeAt (e : Rat) (n : Nat) : Nat × Rat := (min ⌊e⌋₊ (n - 2), if 1 < n then e - (min ⌊e⌋₊ (n - 2) : Nat) else 0)

structure OnAxis (e : Rat) (n : Nat) : Prop where
  nonneg : 0 ≤ e
  le_last : e + 1 ≤ n

theorem OnAxis.floor_lt {e : Rat} {n : Nat} (h : OnAxis e n) : ⌊e⌋₊ < n := by
  have := Nat.floor_le h.nonneg
  have := h.le_last
  exact_mod_cast (by linarith : (⌊e⌋₊ : Rat) < n)

/-- The share of the second sample of a step lies between 0 and 1. -/
theorem OnAxis.share {e : Rat} {n : Nat} (h : OnAxis e n) : 0 ≤ (placeAt e n).2 ∧ (placeAt e n).2 ≤ 1 := by
  simp only [placeAt]
  split
  case isFalse => exact ⟨le_refl 0, zero_le_one⟩
  case isTrue many =>
    have floor := Nat.floor_le h.nonneg
    have next := Nat.lt_floor_add_one e
    have last := h.le_last
    rcases Nat.le_total ⌊e⌋₊ (n - 2) with low | high
    · rw [Nat.min_eq_left low]
      constructor <;> linarith
    · rw [Nat.min_eq_right high]
      have : ((n - 2 : Nat) : Rat) = n - 2 := by
        rw [Nat.cast_sub many]
        norm_num
      have : ((n - 2 : Nat) : Rat) ≤ ⌊e⌋₊ := by exact_mod_cast high
      constructor <;> linarith

/-- **Between two samples the weights are those of linear interpolation.**  The last sample counts as the end of the step
before it. -/
theorem OnAxis.lerp_eq {e : Rat} {n : Nat} (h : OnAxis e n) (f : Nat → Rat) :
    (1 - (placeAt e n).2) * f (min (placeAt e n).1 (n - 1)) + (placeAt e n).2 * f (min ((placeAt e n).1 + 1) (n - 1)) =
      lerp f e := by
  have lt := h.floor_lt
  by_cases low : ⌊e⌋₊ + 2 ≤ n
  · have here : min ⌊e⌋₊ (n - 2) = ⌊e⌋₊ := by omega
    have first : min ⌊e⌋₊ (n - 1) = ⌊e⌋₊ := by omega
    have second : min (⌊e⌋₊ + 1) (n - 1) = ⌊e⌋₊ + 1 := by omega
    rw [placeAt, if_pos (by omega), here, first, second, lerp]
    ring
  · -- the position is the last sample itself, since nothing lies behind it
    obtain ⟨m, rfl⟩ : ∃ m, n = m + 1 := ⟨n - 1, by omega⟩
    obtain rfl : e = (m : Rat) := by
      have floor := Nat.floor_le h.nonneg
      have last := h.le_last
      have top : ⌊e⌋₊ = m := by omega
      rw [top] at floor
      push_cast at last
      linarith
    rw [lerp_natCast]
    cases m with
    | zero => simp [placeAt]
    | succ m =>
      have place : placeAt ((m + 1 : Nat) : Rat) (m + 2) = (m, 1) := by
        have base : min (m + 1) (m + 2 - 2) = m := by omega
        rw [placeAt, Nat.floor_natCast, if_pos (by omega), base]
        push_cast
        rw [add_sub_cancel_left]
      rw [place]
      simp

theorem sum_range_double (f : Nat → Rat) (m : Nat) :
    ∑ bits ∈ Finset.range (2 * m), f bits = ∑ bits ∈ Finset.range m, (f (2 * bits) + f (2 * bits + 1)) := by
  induction m with
  | zero => rfl
  | succ m ih => rw [Nat.mul_succ, Finset.sum_range_succ, Finset.sum_range_succ, ih, Finset.sum_range_succ, add_assoc]

/-- Positions on all axes of a grid. -/
def OnGrid (es : List Rat) (size : List Nat) : Prop := List.Forall₂ OnAxis es size

/-- **The sum over the corners of a cell is the interpolation along one axis after the other.** -/
theorem sum_corners {es : List Rat} {size : List Nat} (h : OnGrid es size) (f : List Nat → Rat) :
    ∑ bits ∈ Finset.range (2 ^ size.length), cornerWeight (es.zipWith placeAt size) size bits *
      f (cornerPoint (es.zipWith placeAt size) size bits) = multilinear f es := by
  induction h generalizing f with
  | nil => simp [cornerWeight, cornerPoint, multilinear]
  | @cons e n es size he _ ih =>
    have even (bits : Nat) : 2 * bits % 2 = 0 ∧ 2 * bits / 2 = bits := by omega
    have odd (bits : Nat) : (2 * bits + 1) % 2 = 1 ∧ (2 * bits + 1) / 2 = bits := by omega
    rw [List.length_cons, Nat.pow_succ', sum_range_double, multilinear, ← he.lerp_eq, ← ih, ← ih, Finset.mul_sum,
      Finset.mul_sum, ← Finset.sum_add_distrib]
    refine Finset.sum_congr rfl fun bits _ => ?_
    simp only [List.zipWith_cons_cons, cornerWeight, cornerPoint, even, odd, Nat.zero_ne_one, if_false, if_true, mul_assoc,
      Nat.add_zero]

theorem sum_cornerWeight {es : List Rat} {size : List Nat} (h : OnGrid es size) :
    ∑ bits ∈ Finset.range (2 ^ size.length), cornerWeight (es.zipWith placeAt size) size bits = 1 := by
  have := sum_corners h fun _ => 1
  simpa only [mul_one, multilinear_const] using this

theorem cornerWeight_nonneg {es : List Rat} {size : List Nat} (h : OnGrid es size) (bits : Nat) :
    0 ≤ cornerWeight (es.zipWith placeAt size) size bits := by
  induction h generalizing bits with
  | nil => exact zero_le_one
  | @cons e n es size he _ ih =>
    obtain ⟨nonneg, le_one⟩ := he.share
    rw [List.zipWith_cons_cons, cornerWeight]
    refine mul_nonneg ?_ (ih _)
    split
    · exact nonneg
    · exact sub_nonneg.mpr le_one

theorem foldl_range_add {step : Rat → Nat → Rat} {f : Nat → Rat} (h : ∀ sum i, step sum i = sum + f i) (n : Nat) :
    (List.range n).foldl step 0 = ∑ i ∈ Finset.range n, f i := by
  induction n with
  | zero => rfl
  | succ n ih => rw [List.range_succ, List.foldl_append, ih, Finset.sum_range_succ, List.foldl_cons, List.foldl_nil, h]

/-- Leaving out the corners without weight changes nothing. -/
theorem value_eq_sum (g : Grid Rat) (places : List (Nat × Rat)) (j : Nat) :
    g.value places j = ∑ bits ∈ Finset.range (2 ^ g.size.length),
      cornerWeight places g.size bits * (g.sample j (cornerPoint places g.size bits) : Rat) := by
  have count : 1 <<< g.size.length = 2 ^ g.size.length := by rw [Nat.shiftLeft_eq, Nat.one_mul]
  have weightless (x : Rat) : Scalar.eq x zero = decide (x = 0) := rfl
  have stored (n : Nat) : (ofInt n : Rat) = n := Int.cast_natCast n
  rw [value, count]
  refine foldl_range_add (fun sum bits => ?_) _
  simp only [corner_weight, corner_index, weightless, stored, decide_eq_true_eq, sample]
  split
  case isTrue none => rw [none, zero_mul, add_zero]
  case isFalse => rfl

/-! ## The positions of inputs -/

/-- The position of an input on an axis with `n` samples: it is cut to the domain, mapped to the interval of indices and
cut to the samples there are. -/
def axisPosition (domain indices : Rat × Rat) (n : Nat) (x : Rat) : Rat :=
  let x := if domain.1 ≤ domain.2 then max domain.1 (min domain.2 x) else x
  max 0 (min (n - 1) (indices.1 + (x - domain.1) * (indices.2 - indices.1) / (domain.2 - domain.1)))

/-- The positions of inputs on the axes of a grid; an input that is missing is 0. -/
def positions (g : Grid Rat) (inputs : List Rat) : List Rat :=
  (g.domain.zip (g.encode.zip g.size)).zipIdx.map fun ((domain, indices, n), i) =>
    axisPosition domain indices n (inputs[i]?.getD 0)

theorem clamp_eq {low high : Rat} (h : low ≤ high) (x : Rat) : clamp low high x = max low (min high x) := by
  have lt (a b : Rat) : Scalar.lt a b = decide (a < b) := rfl
  simp only [clamp, lt, decide_eq_true_eq]
  rcases lt_or_ge x low with below | above
  · rw [if_pos below, if_neg (not_lt.mpr h), min_eq_right (below.le.trans h), max_eq_left below.le]
  · rw [if_neg (not_lt.mpr above)]
    split
    case isTrue greater => rw [min_eq_left greater.le, max_eq_right h]
    case isFalse under => rw [min_eq_right (not_lt.mp under), max_eq_right above]

theorem clampTo_eq (x : Rat) (range : Rat × Rat) :
    clampTo x range = if range.1 ≤ range.2 then max range.1 (min range.2 x) else x := by
  have le (a b : Rat) : Scalar.le a b = decide (a ≤ b) := rfl
  simp only [clampTo, le, decide_eq_true_eq]
  split
  case isTrue ordered => exact clamp_eq ordered x
  case isFalse => rfl

/-- An interval that is empty is no exception, since dividing by 0 gives 0. -/
theorem interpolate_eq (x low high first last : Rat) :
    interpolate x low high first last = first + (x - low) * (last - first) / (high - low) := by
  have eq (a b : Rat) : Scalar.eq a b = decide (a = b) := rfl
  simp only [interpolate, eq, decide_eq_true_eq]
  split
  case isTrue empty => rw [empty, sub_self, div_zero, add_zero]
  case isFalse => rfl

theorem cast_le_last {i n : Nat} (h : i < n) : (i : Rat) ≤ n - 1 := by
  have : ((i + 1 : Nat) : Rat) ≤ n := by exact_mod_cast h
  push_cast at this
  linarith

theorem place_eq (domain indices : Rat × Rat) {n : Nat} (hn : 0 < n) (x : Rat) :
    place (clampTo x domain) domain indices n = placeAt (axisPosition domain indices n x) n := by
  have last : (ofInt (n - 1 : Nat) : Rat) = n - 1 := by
    change (((n - 1 : Nat) : Int) : Rat) = n - 1
    push_cast [Nat.cast_sub (Nat.succ_le_of_lt hn)]
    rfl
  have nonneg : (0 : Rat) ≤ n - 1 := by exact_mod_cast cast_le_last hn
  have position : clampTo (interpolate (clampTo x domain) domain.1 domain.2 indices.1 indices.2)
      (zero, ofInt (n - 1 : Nat)) = axisPosition domain indices n x := by
    rw [clampTo_eq, interpolate_eq, clampTo_eq, last, axisPosition]
    exact if_pos nonneg
  rw [place, position]
  rfl

theorem axisPosition_onAxis (domain indices : Rat × Rat) {n : Nat} (hn : 0 < n) (x : Rat) :
    OnAxis (axisPosition domain indices n x) n := by
  have nonneg : (0 : Rat) ≤ n - 1 := by exact_mod_cast cast_le_last hn
  refine ⟨le_max_left _ _, ?_⟩
  have : axisPosition domain indices n x ≤ n - 1 := max_le nonneg (min_le_left _ _)
  linarith

theorem places_eq {g : Grid Rat} (h : g.Filled) (inputs : List Rat) :
    g.places (Function.clampInputs g.domain inputs) = (g.positions inputs).zipWith placeAt g.size := by
  have domain := h.domain
  have encode := h.encode
  refine List.ext_getElem ?_ fun i hi hi' => ?_
  · simp [length_places h, positions, domain, encode]
  · simp only [length_places h] at hi
    simp only [places, positions, Function.clampInputs, List.getElem_map, List.getElem_zip, List.getElem_zipIdx,
      List.getElem_zipWith, Nat.zero_add]
    exact place_eq _ _ (h.positive _ (List.getElem_mem _)) _

theorem positions_onGrid {g : Grid Rat} (h : g.Filled) (inputs : List Rat) : OnGrid (g.positions inputs) g.size := by
  have domain := h.domain
  have encode := h.encode
  refine List.forall₂_iff_get.mpr ⟨by simp [positions, domain, encode], fun i hi hi' => ?_⟩
  simp only [positions, List.get_eq_getElem, List.getElem_map, List.getElem_zip, List.getElem_zipIdx]
  exact axisPosition_onAxis _ _ (h.positive _ (List.getElem_mem _)) _

/-- **The value in a cell is linear along each axis.** -/
theorem value_eq_multilinear {g : Grid Rat} (h : g.Filled) (inputs : List Rat) (j : Nat) :
    g.value (g.places (Function.clampInputs g.domain inputs)) j =
      multilinear (fun point => (g.sample j point : Rat)) (g.positions inputs) := by
  rw [value_eq_sum, places_eq h, sum_corners (positions_onGrid h inputs) fun point => (g.sample j point : Rat)]

/-! ## The inputs of grid points -/

def axisInput (domain indices : Rat × Rat) (i : Nat) : Rat :=
  domain.1 + (i - indices.1) * (domain.2 - domain.1) / (indices.2 - indices.1)

def pointInputs (g : Grid Rat) (point : List Nat) : List Rat :=
  (g.domain.zip (g.encode.zip point)).map fun (domain, indices, i) => axisInput domain indices i

/-- Whether the domain is mapped to an interval of indices with the sample `i` in it, and neither of them is empty. -/
structure Encodes (domain indices : Rat × Rat) (i : Nat) : Prop where
  domain_ne : domain.1 ≠ domain.2
  indices_ne : indices.1 ≠ indices.2
  between : (indices.1 ≤ i ∧ i ≤ indices.2) ∨ (indices.2 ≤ i ∧ i ≤ indices.1)

theorem axisPosition_axisInput {domain indices : Rat × Rat} {n i : Nat} (hi : i < n) (h : Encodes domain indices i) :
    axisPosition domain indices n (axisInput domain indices i) = i := by
  obtain ⟨d0, d1⟩ := domain
  obtain ⟨e0, e1⟩ := indices
  have domain_ne : d1 - d0 ≠ 0 := sub_ne_zero.mpr h.domain_ne.symm
  have indices_ne : e1 - e0 ≠ 0 := sub_ne_zero.mpr h.indices_ne.symm
  -- how far the sample lies along the interval of indices, and the input along the domain
  obtain ⟨t, ht⟩ : ∃ t : Rat, t = (i - e0) / (e1 - e0) := ⟨_, rfl⟩
  have index : (i : Rat) = e0 + t * (e1 - e0) := by rw [ht]; field_simp; ring
  have input : axisInput (d0, d1) (e0, e1) i = d0 + t * (d1 - d0) := by rw [axisInput, ht]; field_simp
  have inside : 0 ≤ t ∧ t ≤ 1 := by
    rw [ht]
    rcases h.between with ⟨low, high⟩ | ⟨low, high⟩
    · exact ⟨div_nonneg (by linarith) (by linarith), div_le_one_of_le₀ (by linarith) (by linarith)⟩
    · rw [← neg_div_neg_eq]
      exact ⟨div_nonneg (by linarith) (by linarith), div_le_one_of_le₀ (by linarith) (by linarith)⟩
  have uncut : (if d0 ≤ d1 then max d0 (min d1 (d0 + t * (d1 - d0))) else d0 + t * (d1 - d0)) = d0 + t * (d1 - d0) := by
    split
    case isTrue ordered =>
      have nonneg : 0 ≤ t * (d1 - d0) := mul_nonneg inside.1 (by linarith)
      have le : t * (d1 - d0) ≤ 1 * (d1 - d0) := mul_le_mul_of_nonneg_right inside.2 (by linarith)
      rw [min_eq_right (by linarith), max_eq_right (by linarith)]
    case isFalse => rfl
  have position : e0 + (d0 + t * (d1 - d0) - d0) * (e1 - e0) / (d1 - d0) = i := by
    rw [index]
    field_simp
    ring
  rw [axisPosition, input]
  dsimp only
  rw [uncut, position, min_eq_right (cast_le_last hi), max_eq_right (Nat.cast_nonneg i)]

/-- Whether every axis has the place of a point on it among its indices. -/
def EncodesPoint (g : Grid Rat) (point : List Nat) : Prop :=
  ∀ (i k : Nat) (domain indices : Rat × Rat), g.domain[i]? = some domain → g.encode[i]? = some indices →
    point[i]? = some k → Encodes domain indices k

/-- **Every point of the grid that is encoded has inputs.** -/
theorem positions_pointInputs {g : Grid Rat} (h : g.Filled) {point : List Nat} (hp : IsPoint g.size point)
    (encoded : g.EncodesPoint point) : g.positions (g.pointInputs point) = point.map (Nat.cast : Nat → Rat) := by
  obtain ⟨length, lt⟩ := List.forall₂_iff_get.mp hp
  refine List.ext_getElem (by simp [positions, h.domain, h.encode, length]) fun i hi hi' => ?_
  rw [List.length_map] at hi'
  have domain : i < g.domain.length := by rw [h.domain, ← length]; exact hi'
  have encode : i < g.encode.length := by rw [h.encode, ← length]; exact hi'
  have input : (g.pointInputs point)[i]? = some (axisInput g.domain[i] g.encode[i] point[i]) := by
    simp only [pointInputs, List.getElem?_map, List.zip, List.getElem?_zipWith, List.getElem?_eq_getElem domain,
      List.getElem?_eq_getElem encode, List.getElem?_eq_getElem hi', Option.map_some]
  simp only [positions, List.getElem_map, List.getElem_zip, List.getElem_zipIdx, Nat.zero_add, input, Option.getD_some]
  exact axisPosition_axisInput (lt i hi' _) (encoded i _ _ _ (List.getElem?_eq_getElem domain)
    (List.getElem?_eq_getElem encode) (List.getElem?_eq_getElem hi'))

def exact (g : Grid Float32) : Grid Rat :=
  let exactly (range : Float32 × Float32) : Rat × Rat := (ofFloat32 range.1, ofFloat32 range.2)
  ⟨g.domain.map exactly, g.size, g.encode.map exactly, g.outputs, g.samples⟩

theorem Filled.exact {g : Grid Float32} (h : g.Filled) : g.exact.Filled :=
  ⟨(List.length_map _).trans h.domain, (List.length_map _).trans h.encode, h.positive, h.samples⟩

end Grid

namespace Function

open Grid

/-- **A sampled function interpolates its samples.**  Whatever the inputs, every corner of the cell has its sample among
those that are stored.  In exact numbers the weights of the corners are not negative and have the sum 1, and the value is
that of interpolation along one input after the other.  At a point of the grid it is the sample of the point, and the
point has inputs if its places are among the indices that the domain is mapped to. -/
theorem sampled_interpolates {st : Store} {o : Object} {g : Grid Float32} {bits : Nat} {decode range : Ranges Float32}
    (h : ofObject st o = .ok (.sampled g bits decode range)) :
    (∀ inputs : List Float32, ∀ i < 2 ^ g.size.length, ∀ j < g.outputs,
      (corner (g.places (clampInputs g.domain inputs)) g.size i).2 * g.outputs + j < g.samples.size) ∧
    (∀ inputs : List Rat,
      let places := g.exact.places (clampInputs g.exact.domain inputs)
      (∀ i < 2 ^ g.size.length, 0 ≤ (corner places g.size i).1) ∧
      ∑ i ∈ Finset.range (2 ^ g.size.length), (corner places g.size i).1 = 1 ∧
      ∀ j < g.outputs, g.exact.value places j =
        multilinear (fun point => (g.sample j point : Rat)) (g.exact.positions inputs)) ∧
    ∀ point, IsPoint g.size point →
      (∀ j < g.outputs, ∃ v, g.samples[pointIndex g.size point * g.outputs + j]? = some v ∧
        ∀ inputs : List Rat, g.exact.positions inputs = point.map (Nat.cast : Nat → Rat) →
          g.exact.value (g.exact.places (clampInputs g.exact.domain inputs)) j = v) ∧
      (g.exact.EncodesPoint point →
        g.exact.positions (g.exact.pointInputs point) = point.map (Nat.cast : Nat → Rat)) := by
  have filled : g.Filled := by
    cases ofObject_sound st o _ h with
    | sampled filled _ _ => exact filled
  have exact_ := filled.exact
  refine ⟨fun inputs i _ j hj => filled.corner_stored inputs i hj, fun inputs => ?_, fun point hp => ⟨fun j hj => ?_,
    positions_pointInputs exact_ hp⟩⟩
  · have onGrid := positions_onGrid exact_ inputs
    simp only [corner_weight, places_eq exact_]
    exact ⟨fun i _ => cornerWeight_nonneg onGrid i, sum_cornerWeight onGrid,
      fun j _ => places_eq exact_ inputs ▸ value_eq_multilinear exact_ inputs j⟩
  · have stored := filled.stored hp hj
    refine ⟨_, Array.getElem?_eq_getElem stored, fun inputs at_point => ?_⟩
    rw [value_eq_multilinear exact_, at_point, multilinear_natCast, sample]
    exact congrArg _ (Array.getElem_eq_getD 0).symm

def squareGrid : Grid Float32 := ⟨[(0, 1), (0, 1)], [2, 2], [(0, 1), (0, 1)], 1, #[0, 100, 40, 200]⟩

def squareStream : Stream :=
  let number (n : Int) : Object := .num (.int n)
  let numbers (ns : List Int) : Object := .array (ns.map number)
  ⟨⟨[("BitsPerSample", number 8), ("Domain", numbers [0, 1, 0, 1]), ("FunctionType", number 0),
    ("Range", numbers [0, 255]), ("Size", numbers [2, 2])]⟩, [0, 100, 40, 200]⟩

theorem ofFloat32_zero : (ofFloat32 0 : Rat) = 0 := by
  have bits : (0 : Float32).toBits.toNat = 0 := rfl
  have finite : Format.single.magnitude 0 = .finite 0 (-149) := by decide
  change Scalar.ratOfBits .single (0 : Float32).toBits.toNat = 0
  rw [bits, Scalar.ratOfBits, finite]
  norm_num

theorem ofFloat32_one : (ofFloat32 1 : Rat) = 1 := by
  have bits : (1 : Float32).toBits.toNat = 1065353216 := rfl
  have finite : Format.single.magnitude 1065353216 = .finite 8388608 (-23) := by decide
  have positive : Format.single.isNegative 1065353216 = false := by decide
  change Scalar.ratOfBits .single (1 : Float32).toBits.toNat = 1
  rw [bits, Scalar.ratOfBits, finite]
  norm_num [positive]

/-- In the middle between the first two samples there is 50, in the middle between the last two 120, and a quarter of the
way from there to there 67.5; and the last point of the grid has the last sample. -/
theorem square_interpolated : ofObject .empty (.stream squareStream) = .ok (.sampled squareGrid 8 [(0, 255)] [(0, 255)]) ∧
    squareGrid.exact.value (squareGrid.exact.places (clampInputs squareGrid.exact.domain [1 / 2, 1 / 4])) 0 = 135 / 2 ∧
    squareGrid.exact.value (squareGrid.exact.places (clampInputs squareGrid.exact.domain [1, 1])) 0 = 200 := by
  have read : ofObject .empty (.stream squareStream) = .ok (.sampled squareGrid 8 [(0, 255)] [(0, 255)]) := rfl
  obtain ⟨-, interpolated, at_points⟩ := sampled_interpolates read
  refine ⟨read, ?_, ?_⟩
  · have positions : squareGrid.exact.positions [1 / 2, 1 / 4] = [1 / 2, 1 / 4] := by
      norm_num [Grid.positions, squareGrid, Grid.exact, ofFloat32_zero, ofFloat32_one, axisPosition]
    rw [(interpolated [1 / 2, 1 / 4]).2.2 0 (by decide), positions]
    have half : ⌊(1 / 2 : Rat)⌋₊ = 0 := Nat.floor_eq_zero.mpr (by norm_num)
    have quarter : ⌊(1 / 4 : Rat)⌋₊ = 0 := Nat.floor_eq_zero.mpr (by norm_num)
    norm_num [multilinear, lerp, half, quarter, sample, pointIndex, squareGrid]
  · have last : IsPoint squareGrid.size [1, 1] := .cons (by decide) (.cons (by decide) .nil)
    obtain ⟨v, hv, value⟩ := (at_points [1, 1] last).1 0 (by decide)
    have positions : squareGrid.exact.positions [1, 1] = [1, 1].map (Nat.cast : Nat → Rat) := by
      norm_num [Grid.positions, squareGrid, Grid.exact, ofFloat32_zero, ofFloat32_one, axisPosition]
    obtain rfl : 200 = v := Option.some.inj hv
    exact_mod_cast value [1, 1] positions

end Function

end PdfContent
