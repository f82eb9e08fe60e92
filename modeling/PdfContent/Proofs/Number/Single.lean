import Mathlib
import PdfContent.Geometry.Scalar
import PdfContent.Proofs.Number.Unpacked
/-!
# Single — single-precision floats as rational numbers

A float that is no NaN stands for a rational number (`Denotes`), where an infinity counts as the power of two that is the
first too large number.  With that, packing only saturates (`Holds.fits_pack`), the comparisons of floats are those of
numbers (`Denotes.le_iff`), and a quotient grows with the dividend, also beyond the finite ones (`quotient_mono`).
-/
namespace PdfContent.Single

open Float.Model
open Float.Model.UnpackedFloat (Sign packComponents)

variable {x y : ℚ} {u v : UnpackedFloat} {f g : Float32}

/-! ## Packing -/

/-- A number that can be packed, or an infinity; these count as the powers of two that are the first too large ones. -/
inductive Fits : UnpackedFloat → ℚ → Prop
  | number {u : UnpackedFloat} {x : ℚ} (holds : Holds u x) (small : |x| < 2 ^ 128) : Fits u x
  | infinity (s : Sign) : Fits (.infinity s) (signed s (2 ^ 128))

def saturate (x : ℚ) : ℚ := max (-2 ^ 128) (min x (2 ^ 128))

abbrev pack : UnpackedFloat → BitVec 32 := UnpackedFloat.pack Format.binary32

abbrev unpack : BitVec 32 → UnpackedFloat := UnpackedFloat.unpack Format.binary32

theorem implicit_bit (m : BitVec 23) : (1#1 ++ m).toNat = 2 ^ 23 + m.toNat := by
  rw [BitVec.toNat_append, ← Nat.shiftLeft_add_eq_or_of_lt m.isLt]
  rfl

theorem unpack_infinity (s : Sign) : unpack (pack (.infinity s)) = .infinity s := by
  cases s <;> rfl

theorem unpack_zero (s : Sign) : unpack (pack (.zero s)) = .zero s := by
  cases s <;> rfl

theorem pack_finite (s : Sign) {m : ℕ} (e : ℤ) (pos : 0 < m) :
    pack (.finite s m e pos) =
      if 104 < e then pack (.infinity s)
      else packComponents Format.binary32 s (if m.log2 = 23 then BitVec.ofNat 8 (e + 150).toNat else 0#8)
        (BitVec.ofNat 23 m) := by
  have bias : Format.binary32.exponentBias = 127 := rfl
  have bits : Format.binary32.mantissaBits = 24 := rfl
  have biased : (e + (127 : ℕ) + (23 : ℕ)).toNat = (e + 150).toNat := by omega
  unfold pack UnpackedFloat.pack
  dsimp only
  rw [bias, bits, biased]
  by_cases large : 104 < e
  · rw [if_pos large, if_pos (by omega)]
  · rw [if_neg large, if_neg (by omega)]
    by_cases normal : m.log2 = 23
    · rw [if_pos normal, if_pos (by omega)]
    · rw [if_neg normal, if_neg (by omega)]

theorem toNat_pos {m : BitVec 23} (h : m ≠ 0#23) : 0 < m.toNat := by
  have : m.toNat ≠ (0#23).toNat := fun e => h (BitVec.eq_of_toNat_eq e)
  exact Nat.pos_of_ne_zero this

theorem unpack_packComponents (s : Sign) (e : BitVec 8) (m : BitVec 23) :
    unpack (packComponents Format.binary32 s e m) =
      if e = -1#8 then if m = 0#23 then .infinity s else .notANumber
      else if e = 0#8 then if h : m = 0#23 then .zero s else .finite s m.toNat (-149) (toNat_pos h)
      else .finite s (2 ^ 23 + m.toNat) (e.toNat - 150) (by omega) := by
  have bias : Format.binary32.exponentBias = 127 := rfl
  unfold unpack UnpackedFloat.unpack
  simp only [UnpackedFloat.unpackExponent_packComponents, UnpackedFloat.unpackMantissa_packComponents,
    UnpackedFloat.unpackSign_packComponents, UnpackedFloat.Sign.ofBitVec_toBitVec, bias, implicit_bit]
  by_cases top : e = -1#8
  · rw [if_pos top, if_pos top]
  · rw [if_neg top, if_neg top]
    by_cases bottom : e = 0#8
    · rw [if_pos bottom, if_pos bottom]
      subst bottom
      rfl
    · rw [if_neg bottom, if_neg bottom]
      rfl

theorem unpack_pack_finite (s : Sign) {m : ℕ} {e : ℤ} (form : Canonical m e) (most : e ≤ 104) :
    unpack (pack (.finite s m e form.pos)) = .finite s m e form.pos := by
  obtain ⟨pos, bits, least, normal⟩ := form
  rw [pack_finite, if_neg (by omega), unpack_packComponents]
  have log : 23 ≤ m.log2 ↔ 2 ^ 23 ≤ m := Nat.le_log2 pos.ne'
  have log' := (Nat.log2_lt pos.ne').mpr bits
  by_cases large : 2 ^ 23 ≤ m
  · obtain ⟨k, rfl⟩ := Nat.exists_eq_add_of_le large
    have exponent : (BitVec.ofNat 8 (e + 150).toNat).toNat = (e + 150).toNat := Nat.mod_eq_of_lt (by omega)
    have mantissa : (BitVec.ofNat 23 (2 ^ 23 + k)).toNat = k := by
      rw [BitVec.toNat_ofNat, Nat.add_mod_left, Nat.mod_eq_of_lt (by omega)]
    have top : BitVec.ofNat 8 (e + 150).toNat ≠ -1#8 := by
      rw [Ne, ← BitVec.toNat_inj, exponent]
      exact (by omega : (e + 150).toNat ≠ 255)
    have bottom : BitVec.ofNat 8 (e + 150).toNat ≠ 0#8 := by
      rw [Ne, ← BitVec.toNat_inj, exponent]
      exact (by omega : (e + 150).toNat ≠ 0)
    have normal : (2 ^ 23 + k).log2 = 23 := by omega
    rw [if_pos normal, if_neg top, if_neg bottom]
    simp only [mantissa, exponent]
    congr 1
    omega
  · obtain rfl : e = -149 := normal.resolve_left large
    have mantissa : (BitVec.ofNat 23 m).toNat = m := Nat.mod_eq_of_lt (by omega)
    have some : BitVec.ofNat 23 m ≠ 0#23 := by
      rw [Ne, ← BitVec.toNat_inj, mantissa]
      exact pos.ne'
    have subnormal : m.log2 ≠ 23 := by omega
    rw [if_neg subnormal, if_neg (by decide), if_pos rfl, dif_neg some]
    simp only [mantissa]

theorem abs_signed (s : Sign) (hx : 0 ≤ x) : |signed s x| = x := by
  cases s with
  | positive => exact abs_of_nonneg hx
  | negative => exact (abs_neg x).trans (abs_of_nonneg hx)

theorem Canonical.small_iff {m : ℕ} {e : ℤ} (form : Canonical m e) : (m * 2 ^ e : ℚ) < 2 ^ 128 ↔ e ≤ 104 := by
  constructor
  · intro small
    by_contra! large
    have : (2 ^ 23 : ℚ) ≤ m := by exact_mod_cast form.normal.resolve_right (by omega)
    have : (2 ^ 23 : ℚ) * 2 ^ (105 : ℤ) ≤ m * 2 ^ e := by
      gcongr
      · norm_num
      · omega
    norm_num at this small
    linarith
  · intro most
    have bits : (m : ℚ) < 2 ^ 24 := by exact_mod_cast form.bits
    calc (m * 2 ^ e : ℚ) < 2 ^ 24 * 2 ^ e := by gcongr
      _ ≤ 2 ^ 24 * 2 ^ (104 : ℤ) := by gcongr; norm_num
      _ = 2 ^ 128 := by norm_num

theorem saturate_mono (h : x ≤ y) : saturate x ≤ saturate y := max_le_max_left _ (min_le_min_right _ h)

theorem abs_saturate_le (x : ℚ) : |saturate x| ≤ 2 ^ 128 :=
  abs_le.mpr ⟨le_max_left _ _, max_le (by norm_num) (min_le_right _ _)⟩

theorem saturate_of_abs_lt (h : |x| < 2 ^ 128) : saturate x = x := by
  obtain ⟨low, high⟩ := abs_lt.mp h
  rw [saturate, min_eq_left high.le, max_eq_right low.le]

theorem saturate_signed (s : Sign) (h : 2 ^ 128 ≤ x) : saturate (signed s x) = signed s (2 ^ 128) := by
  cases s with
  | positive => exact (congrArg _ (min_eq_right h)).trans (max_eq_right (by norm_num))
  | negative =>
    have : -x ≤ -2 ^ 128 := neg_le_neg h
    exact max_eq_left (min_le_of_left_le this)

theorem Fits.unpack_pack (h : Fits u x) : unpack (pack u) = u := by
  cases h with
  | infinity s => exact unpack_infinity s
  | number holds small =>
    cases holds with
    | zero s => exact unpack_zero s
    | finite s form =>
      rw [abs_signed s form.value_pos.le, form.small_iff] at small
      exact unpack_pack_finite s form small

/-- **What is packed** is the number itself, or an infinity if it is too large. -/
theorem Holds.fits_pack (h : Holds u x) : Fits (unpack (pack u)) (saturate x) := by
  by_cases small : |x| < 2 ^ 128
  · have fits := Fits.number h small
    rwa [fits.unpack_pack, saturate_of_abs_lt small]
  · cases h with
    | zero => norm_num at small
    | finite s form =>
      rw [abs_signed s form.value_pos.le] at small
      rw [pack_finite, if_pos (not_le.mp (mt form.small_iff.mpr small)), unpack_infinity,
        saturate_signed s (not_lt.mp small)]
      exact .infinity s

/-- Every packed float is a number, an infinity or NaN. -/
theorem exists_fits (b : BitVec 32) : unpack b = .notANumber ∨ ∃ x, Fits (unpack b) x := by
  obtain ⟨s, e, m, rfl⟩ : ∃ (s : Sign) (e : BitVec 8) (m : BitVec 23), packComponents Format.binary32 s e m = b :=
    ⟨_, _, _, @UnpackedFloat.packComponents_unpackSign_unpackExponent_unpackMantissa Format.binary32 b⟩
  rw [unpack_packComponents]
  have bits : m.toNat < 2 ^ 23 := m.isLt
  split_ifs with top none bottom none
  · exact .inr ⟨_, .infinity s⟩
  · exact .inl rfl
  · exact .inr ⟨0, .number (.zero s) (by norm_num)⟩
  · have form : Canonical m.toNat (-149) := ⟨toNat_pos none, by omega, le_rfl, .inr rfl⟩
    refine .inr ⟨_, .number (.finite s form) ?_⟩
    rw [abs_signed s form.value_pos.le, form.small_iff]
    omega
  · have : e.toNat ≠ 255 := fun h => top (BitVec.eq_of_toNat_eq h)
    have : e.toNat ≠ 0 := fun h => bottom (BitVec.eq_of_toNat_eq h)
    have := e.isLt
    have form : Canonical (2 ^ 23 + m.toNat) (e.toNat - 150) := ⟨by omega, by omega, by omega, .inl (by omega)⟩
    refine .inr ⟨_, .number (.finite s form) ?_⟩
    rw [abs_signed s form.value_pos.le, form.small_iff]
    omega

/-! ## Floats -/

/-- The float is no NaN and its value is `x`. -/
def Denotes (f : Float32) (x : ℚ) : Prop := Fits f.toModel.unpack x

/-- What is greater than something is no NaN. -/
theorem exists_denotes (h : f < g) : ∃ y, Denotes g y := by
  refine (exists_fits g.toModel.toBits.toBitVec).resolve_left fun nan => ?_
  have less : f.toModel.unpack.lt g.toModel.unpack = true := decide_eq_true_iff.mp h
  rw [show g.toModel.unpack = .notANumber from nan] at less
  generalize f.toModel.unpack = u at less
  cases u <;> cases less

/-- The float is finite and its value is `x`. -/
structure HasValue (f : Float32) (x : ℚ) : Prop where
  denotes : Denotes f x
  small : |x| < 2 ^ 128

theorem exists_hasValue (h : f.isFinite = true) : ∃ x, HasValue f x := by
  have finite : f.toModel.unpack.isFinite = true := h
  rcases exists_fits f.toModel.toBits.toBitVec with nan | ⟨x, fits⟩
  · have nan : f.toModel.unpack = .notANumber := nan
    rw [nan] at finite
    cases finite
  · have fits : Fits f.toModel.unpack x := fits
    refine ⟨x, fits, ?_⟩
    generalize f.toModel.unpack = u at finite fits
    cases fits with
    | number _ small => exact small
    | infinity s => cases finite

theorem HasValue.holds (h : HasValue f x) : Holds f.toModel.unpack x := by
  obtain ⟨denotes, small⟩ := h
  unfold Denotes at denotes
  generalize f.toModel.unpack = u at denotes
  cases denotes with
  | number holds => exact holds
  | infinity s =>
    rw [abs_signed s (by positivity)] at small
    exact absurd small (lt_irrefl _)

theorem Denotes.hasValue (h : Denotes f (saturate x)) (small : |x| < 2 ^ 128) : HasValue f x :=
  ⟨saturate_of_abs_lt small ▸ h, small⟩

theorem denotes_pack (h : Holds u x) : Denotes ⟨.pack u⟩ (saturate x) := h.fits_pack

theorem HasValue.add (hf : HasValue f x) (hg : HasValue g y) : Denotes (f + g) (saturate (nearest (x + y))) :=
  denotes_pack (hf.holds.add hg.holds)

theorem HasValue.sub (hf : HasValue f x) (hg : HasValue g y) : Denotes (f - g) (saturate (nearest (x - y))) :=
  denotes_pack (hf.holds.sub hg.holds)

theorem HasValue.div (hf : HasValue f x) (hg : HasValue g y) (zero : y ≠ 0) :
    Denotes (f / g) (saturate (nearest (x / y))) := denotes_pack (hf.holds.div hg.holds zero)

theorem Denotes.of_fits (h : Fits u x) : Denotes ⟨.pack u⟩ x := by
  change Fits (unpack (pack u)) x
  rwa [h.unpack_pack]

theorem Fits.representable (h : Fits u x) : Representable x := by
  cases h with
  | number holds => exact holds.representable
  | infinity s =>
    have power : Representable (2 ^ 128) := ⟨1, 128, by norm_num, by norm_num, by norm_num⟩
    cases s with
    | positive => exact power
    | negative => exact power.neg

theorem Denotes.representable (h : Denotes f x) : Representable x := Fits.representable h

theorem denotes_zero : Denotes 0 0 := .number (.zero .positive) (by norm_num)

theorem holds_one : Holds (1 : Float32).toModel.unpack 1 := by
  have form : Canonical (2 ^ 23) (-23) := ⟨by decide, by decide, by decide, .inl le_rfl⟩
  have one := Holds.finite .positive form
  norm_num [signed] at one
  exact one

theorem denotes_one : Denotes 1 1 := .number holds_one (by norm_num)

theorem denotes_zero_add (h : Denotes f x) : Denotes (0 + f) x := by
  refine .of_fits ?_
  unfold Denotes at h
  change Fits (UnpackedFloat.add Format.binary32 (.zero .positive) f.toModel.unpack) x
  generalize f.toModel.unpack = u at h
  cases h with
  | infinity s => exact .infinity s
  | number holds small =>
    have sum := (Holds.zero .positive).add holds
    rw [zero_add, holds.representable.nearest] at sum
    exact .number sum small

theorem denotes_mul_one (h : Denotes f x) : Denotes (f * 1) x := by
  refine .of_fits ?_
  unfold Denotes at h
  generalize f.toModel.unpack = u at h
  cases h with
  | infinity s => cases s <;> exact .infinity _
  | number holds small =>
    have product := holds.mul holds_one
    rw [mul_one, holds.representable.nearest] at product
    exact .number product small

/-- The quotient of an infinity is the infinity. -/
def quotient (x y : ℚ) : ℚ := if |x| < 2 ^ 128 then saturate (nearest (x / y)) else x

theorem quotient_mono {z : ℚ} (h : x ≤ y) (pos : 0 < z) : quotient x z ≤ quotient y z := by
  have inner : saturate (nearest (x / z)) ≤ saturate (nearest (y / z)) :=
    saturate_mono (nearest_mono (div_le_div_of_nonneg_right h pos.le))
  have bounds (w : ℚ) := abs_le.mp (abs_saturate_le (nearest (w / z)))
  unfold quotient
  simp only [abs_lt]
  split_ifs with small small' small'
  · exact inner
  · have : 2 ^ 128 ≤ y := not_lt.mp fun less => small' ⟨small.1.trans_le h, less⟩
    exact (bounds x).2.trans this
  · have : x ≤ -2 ^ 128 := not_lt.mp fun greater => small ⟨greater, h.trans_lt small'.2⟩
    exact this.trans (bounds y).1
  · exact h

theorem Denotes.div (hf : Denotes f x) (hg : HasValue g y) (pos : 0 < y) : Denotes (f / g) (quotient x y) := by
  unfold quotient
  split_ifs with small
  · exact HasValue.div ⟨hf, small⟩ hg pos.ne'
  · have divisor := hg.holds
    refine .of_fits ?_
    unfold Denotes at hf
    generalize f.toModel.unpack = u at hf
    generalize g.toModel.unpack = v at divisor
    cases hf with
    | number _ finite => exact absurd finite small
    | infinity s =>
      cases divisor with
      | zero => exact absurd pos (lt_irrefl 0)
      | finite s' form =>
        cases s' with
        | positive => cases s <;> exact .infinity _
        | negative => exact absurd pos (neg_neg_of_pos form.value_pos).not_gt

theorem HasValue.div_infinity (hf : HasValue f x) (hg : Denotes g y) (hy : 2 ^ 128 ≤ y) : HasValue (f / g) 0 := by
  have dividend := hf.holds
  refine ⟨.of_fits ?_, by norm_num⟩
  unfold Denotes at hg
  generalize f.toModel.unpack = u at dividend
  generalize g.toModel.unpack = v at hg
  have zero (s : Sign) : Fits (.zero s) 0 := .number (.zero s) (by norm_num)
  cases hg with
  | number _ small => exact absurd (abs_lt.mp small).2 (not_lt.mpr hy)
  | infinity s => cases dividend <;> exact zero _

/-! ## Order -/

theorem Canonical.lt_of_exponent_lt {m m' : ℕ} {e e' : ℤ} (form : Canonical m e) (form' : Canonical m' e') (h : e < e') :
    (m * 2 ^ e : ℚ) < m' * 2 ^ e' := by
  have least := form.least
  have bits : (m : ℚ) < 2 ^ 24 := by exact_mod_cast form.bits
  have large : (2 ^ 23 : ℚ) ≤ m' := by exact_mod_cast form'.normal.resolve_right (by omega)
  calc (m * 2 ^ e : ℚ) < 2 ^ 24 * 2 ^ e := by gcongr
    _ = 2 ^ 23 * 2 ^ (e + 1) := by
      rw [zpow_add_one₀ two_ne_zero]
      ring
    _ ≤ m' * 2 ^ e' := by
      gcongr
      · norm_num
      · omega

theorem Canonical.compare {m m' : ℕ} {e e' : ℤ} (form : Canonical m e) (form' : Canonical m' e') :
    (compare e e').then (compare m m') = compare (m * 2 ^ e : ℚ) (m' * 2 ^ e') := by
  rcases lt_trichotomy e e' with less | rfl | greater
  · rw [compare_lt_iff_lt.mpr less, compare_lt_iff_lt.mpr (form.lt_of_exponent_lt form' less)]
    rfl
  · have pos : (0 : ℚ) < 2 ^ e := by positivity
    rw [compare_eq_iff_eq.mpr rfl]
    rcases lt_trichotomy m m' with less | rfl | greater
    · have less' : (m : ℚ) < m' := by exact_mod_cast less
      rw [compare_lt_iff_lt.mpr less, compare_lt_iff_lt.mpr (mul_lt_mul_of_pos_right less' pos)]
      rfl
    · rw [compare_eq_iff_eq.mpr rfl, compare_eq_iff_eq.mpr rfl]
      rfl
    · have greater' : (m' : ℚ) < m := by exact_mod_cast greater
      rw [compare_gt_iff_gt.mpr greater, compare_gt_iff_gt.mpr (mul_lt_mul_of_pos_right greater' pos)]
      rfl
  · rw [compare_gt_iff_gt.mpr greater, compare_gt_iff_gt.mpr (form'.lt_of_exponent_lt form greater)]
    rfl

theorem swap_compare (x y : ℚ) : (compare x y).swap = compare (-x) (-y) := by
  rcases lt_trichotomy x y with less | rfl | greater
  · rw [compare_lt_iff_lt.mpr less, compare_gt_iff_gt.mpr (neg_lt_neg less)]
    rfl
  · rw [compare_eq_iff_eq.mpr rfl, compare_eq_iff_eq.mpr rfl]
    rfl
  · rw [compare_gt_iff_gt.mpr greater, compare_lt_iff_lt.mpr (neg_lt_neg greater)]
    rfl

theorem Holds.compare (hu : Holds u x) (hv : Holds v y) : u.compare v = some (compare x y) := by
  cases hu with
  | zero s =>
    cases hv with
    | zero s' => rfl
    | finite s' form' =>
      cases s' with
      | positive => exact congrArg some (compare_lt_iff_lt.mpr form'.value_pos).symm
      | negative => exact congrArg some (compare_gt_iff_gt.mpr (neg_neg_of_pos form'.value_pos)).symm
  | finite s form =>
    cases hv with
    | zero s' =>
      cases s with
      | positive => exact congrArg some (compare_gt_iff_gt.mpr form.value_pos).symm
      | negative => exact congrArg some (compare_lt_iff_lt.mpr (neg_neg_of_pos form.value_pos)).symm
    | finite s' form' =>
      have same := form.compare form'
      cases s <;> cases s'
      · exact congrArg some ((congrArg _ same).trans (swap_compare _ _))
      · exact congrArg some (compare_lt_iff_lt.mpr (neg_neg_of_pos form.value_pos |>.trans form'.value_pos)).symm
      · exact congrArg some (compare_gt_iff_gt.mpr (neg_neg_of_pos form'.value_pos |>.trans form.value_pos)).symm
      · exact congrArg some same

theorem Fits.compare (hu : Fits u x) (hv : Fits v y) : u.compare v = some (compare x y) := by
  cases hu with
  | infinity s =>
    cases hv with
    | infinity s' =>
      have pos : (0 : ℚ) < 2 ^ 128 := by positivity
      cases s <;> cases s'
      · exact congrArg some (compare_eq_iff_eq.mpr rfl).symm
      · exact congrArg some (compare_lt_iff_lt.mpr (neg_neg_of_pos pos |>.trans pos)).symm
      · exact congrArg some (compare_gt_iff_gt.mpr (neg_neg_of_pos pos |>.trans pos)).symm
      · exact congrArg some (compare_eq_iff_eq.mpr rfl).symm
    | number hv small =>
      cases s with
      | positive =>
        rw [signed, compare_gt_iff_gt.mpr (abs_lt.mp small).2]
        cases hv <;> rfl
      | negative =>
        rw [signed, compare_lt_iff_lt.mpr (abs_lt.mp small).1]
        cases hv <;> rfl
  | number hu small =>
    cases hv with
    | number hv => exact hu.compare hv
    | infinity s' =>
      cases s' with
      | positive =>
        rw [signed, compare_lt_iff_lt.mpr (abs_lt.mp small).2]
        cases hu <;> rfl
      | negative =>
        rw [signed, compare_gt_iff_gt.mpr (abs_lt.mp small).1]
        cases hu <;> rfl

theorem Denotes.le_iff (hf : Denotes f x) (hg : Denotes g y) : f ≤ g ↔ x ≤ y := by
  change decide (f.toModel.unpack.le g.toModel.unpack = true) = true ↔ x ≤ y
  rw [decide_eq_true_iff, UnpackedFloat.le, Fits.compare hf hg, Option.any_some, Ordering.isLE_iff_ne_gt]
  exact not_congr compare_gt_iff_gt |>.trans not_lt

theorem Denotes.lt_iff (hf : Denotes f x) (hg : Denotes g y) : f < g ↔ x < y := by
  change decide (f.toModel.unpack.lt g.toModel.unpack = true) = true ↔ x < y
  rw [decide_eq_true_iff, UnpackedFloat.lt, Fits.compare hf hg, beq_iff_eq, Option.some_inj, compare_lt_iff_lt]

theorem Denotes.beq_iff (hf : Denotes f x) (hg : Denotes g y) : (f == g) = true ↔ x = y := by
  change f.toModel.unpack.beq g.toModel.unpack = true ↔ x = y
  rw [UnpackedFloat.beq, Fits.compare hf hg, beq_iff_eq, Option.some_inj, compare_eq_iff_eq]

theorem Denotes.unique (h : Denotes f x) (h' : Denotes f y) : x = y := by
  have self : f ≤ f := (h.le_iff h).mpr le_rfl
  exact le_antisymm ((h.le_iff h').mp self) ((h'.le_iff h).mp self)

end PdfContent.Single
