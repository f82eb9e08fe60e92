import PdfContent.Proofs.Number.Rounding
import Mathlib.Tactic.NormNum
/-!
# Unpacked — arithmetic on unpacked single-precision floats

The logical model of floats computes with mantissas and exponents, of which the bits that do not fit are summed up in two.
These two bits are enough to round to the nearest number (`holds_roundWithAccuracy`).  So each operation is that on rational
numbers and rounding, which may still lead to a number that is too large to be packed (`Holds.add`, `Holds.div`).
-/
namespace PdfContent.Single

open Float.Model
open Float.Model.UnpackedFloat (Sign Accuracy ExtendedMantissa shiftToExponent shiftToTargetExponent roundWithAccuracy
  decreaseExponent)

variable {x y : ℚ} {m : ℕ} {e : ℤ} {a : Accuracy}

/-! ## Mantissas -/

/-- `x` lies between the mantissa and the next integer as the accuracy says. -/
def Approximates (x : ℚ) (m : ℕ) : Accuracy → Prop
  | .exact => x = m
  | .inexact .lt => m < x ∧ x < m + 1 / 2
  | .inexact .eq => x = m + 1 / 2
  | .inexact .gt => m + 1 / 2 < x ∧ x < m + 1

theorem Approximates.bounds (h : Approximates x m a) : m ≤ x ∧ x < m + 1 := by
  unfold Approximates at h
  split at h <;> constructor <;> linarith

theorem Approximates.floor (h : Approximates x m a) : ⌊x⌋ = m := Int.floor_eq_iff.mpr (by exact_mod_cast h.bounds)

theorem Approximates.rounded (h : Approximates x m a) : (a.roundToNearestEven m : ℤ) = halfEven x := by
  unfold halfEven
  rw [h.floor]
  unfold Approximates at h
  split at h <;> simp only [Accuracy.roundToNearestEven, Int.cast_natCast]
  · rw [if_pos (by linarith)]
  · rw [if_pos (by linarith)]
  · rw [if_neg (by linarith), if_neg (by linarith)]
    push_cast
    rfl
  · rw [if_neg (by linarith), if_pos (by linarith)]
    push_cast
    rfl

/-- A shift moves the last bit of the mantissa to the place of the half, and adds the bit there to the rest. -/
theorem Approximates.half {em : ExtendedMantissa} (h : Approximates x em.mantissa em.accuracy) :
    Approximates (x / 2) em.shiftRightOne.mantissa em.shiftRightOne.accuracy := by
  obtain ⟨m, r, s⟩ := em
  have whole : ((m % 2 : ℕ) : ℚ) + 2 * ((m / 2 : ℕ) : ℚ) = m := by exact_mod_cast Nat.mod_add_div m 2
  rcases Nat.mod_two_eq_zero_or_one m with parity | parity <;> rw [parity] at whole <;> cases r <;> cases s <;>
    simp only [ExtendedMantissa.shiftRightOne, parity, Approximates, ExtendedMantissa.accuracy, bne_self_eq_false,
      Bool.or_self, Bool.or_true, Bool.or_false,
      (by decide : ((1 : ℕ) != 0) = true)] at h whole ⊢ <;> push_cast at whole
  all_goals first | linarith | exact ⟨by linarith, by linarith⟩

theorem Approximates.shift {em : ExtendedMantissa} (h : Approximates x em.mantissa em.accuracy) (n : ℕ) :
    Approximates (x / 2 ^ n) (em >>> n).mantissa (em >>> n).accuracy := by
  induction n with
  | zero => rwa [pow_zero, div_one]
  | succ n ih =>
    rw [pow_succ, ← div_div]
    exact ih.half

/-! ## Rounding -/

def signed : Sign → ℚ → ℚ
  | .positive, x => x
  | .negative, x => -x

theorem signed_zero (s : Sign) : signed s 0 = 0 := by cases s <;> simp [signed]

theorem nearest_signed (s : Sign) (x : ℚ) : nearest (signed s x) = signed s (nearest x) := by
  cases s with
  | positive => rfl
  | negative => exact nearest_neg x

/-- The mantissa and the exponent have the form that packing expects, but the exponent need not fit. -/
structure Canonical (m : ℕ) (e : ℤ) : Prop where
  pos : 0 < m
  bits : m < 2 ^ 24
  least : -149 ≤ e
  normal : 2 ^ 23 ≤ m ∨ e = -149

theorem Canonical.value_pos (h : Canonical m e) : 0 < (m : ℚ) * 2 ^ e := by
  have := h.pos
  positivity

/-- The float is the number `x` in canonical form. -/
inductive Holds : UnpackedFloat → ℚ → Prop
  | zero (s : Sign) : Holds (.zero s) 0
  | finite (s : Sign) {m : ℕ} {e : ℤ} (form : Canonical m e) : Holds (.finite s m e form.pos) (signed s (m * 2 ^ e))

theorem targetExponent_eq (n : ℤ) : Format.binary32.targetExponent n = max (n - 24) (-149) := rfl

theorem log_eq (h : Approximates (x / 2 ^ e) m a) (hm : m ≠ 0) (hx : 0 < x) : Int.log 2 x + 1 = totalExponent m e := by
  have pos : (0 : ℚ) < 2 ^ e := by positivity
  obtain ⟨low, high⟩ := h.bounds
  rw [le_div_iff₀ pos] at low
  rw [div_lt_iff₀ pos] at high
  have least : (m.log2 : ℤ) + e ≤ Int.log 2 x := by
    rw [← Int.zpow_le_iff_le_log (by decide) hx, Nat.cast_ofNat, zpow_add₀ two_ne_zero, zpow_natCast]
    refine le_trans ?_ low
    gcongr
    exact_mod_cast Nat.log2_self_le hm
  have greatest : Int.log 2 x < m.log2 + 1 + e := by
    rw [← Int.lt_zpow_iff_log_lt (by decide) hx, Nat.cast_ofNat, zpow_add₀ two_ne_zero]
    refine high.trans_le ?_
    gcongr
    exact_mod_cast Nat.lt_log2_self
  unfold totalExponent
  omega

/-- With enough bits, the exponent that is aimed at is that of the last bit. -/
theorem target_eq_quantum (h : Approximates (x / 2 ^ e) m a) (hx : 0 < x) (he : m = 0 → e ≤ quantum x) :
    Format.binary32.targetExponent (totalExponent m e) = quantum x := by
  rw [targetExponent_eq]
  by_cases hm : m = 0
  · -- no bits at all: the number is below the least one
    have small : x < 2 ^ e := by
      have := h.bounds.2
      rw [hm, div_lt_iff₀ (by positivity)] at this
      simpa using this
    have := (Int.lt_zpow_iff_log_lt (b := 2) (by decide) hx).mp small
    have none : totalExponent m e = 1 + e := by subst hm; rfl
    have := he hm
    unfold quantum at this ⊢
    omega
  · have := log_eq h hm hx
    unfold quantum
    omega

theorem first_shift (h : Approximates (x / 2 ^ e) m a) (hx : 0 < x) (he : e ≤ quantum x) :
    let r := shiftToTargetExponent Format.binary32 m e a
    (r.1.roundedMantissa : ℤ) = halfEven (x / 2 ^ quantum x) ∧ r.2 = quantum x := by
  obtain ⟨k, hk⟩ := Int.le.dest he
  have amount : (quantum x - e).toNat = k := by omega
  unfold shiftToTargetExponent
  rw [target_eq_quantum h hx fun _ => he]
  unfold shiftToExponent
  dsimp only
  rw [amount, hk]
  have start : Approximates (x / 2 ^ e) (ExtendedMantissa.ofMantissaAndAccuracy m a).mantissa
      (ExtendedMantissa.ofMantissaAndAccuracy m a).accuracy := by
    cases a with
    | exact => exact h
    | inexact o => cases o <;> exact h
  have shifted := start.shift k
  rw [div_div, ← zpow_natCast, ← zpow_add₀ two_ne_zero, hk] at shifted
  exact ⟨shifted.rounded, rfl⟩

theorem second_shift {r : ℕ} {q : ℤ} (hr : r ≤ 2 ^ 24) (hq : -149 ≤ q) :
    shiftToTargetExponent Format.binary32 r q .exact =
      if r = 2 ^ 24 then (⟨2 ^ 23, false, false⟩, q + 1) else (⟨r, false, false⟩, q) := by
  unfold shiftToTargetExponent shiftToExponent
  rw [targetExponent_eq]
  dsimp only
  split_ifs with full
  · have one : (max (totalExponent r q - 24) (-149) - q).toNat = 1 := by
      have : r.log2 = 24 := by subst full; rfl
      unfold totalExponent
      omega
    rw [one, full]
    rfl
  · have none : (max (totalExponent r q - 24) (-149) - q).toNat = 0 := by
      have : r.log2 < 24 := by
        by_cases zero : r = 0
        · subst zero; decide
        · exact (Nat.log2_lt zero).mpr (by omega)
      unfold totalExponent
      omega
    rw [none]
    exact Prod.ext rfl (add_zero q)

/-- **The result of rounding** is the nearest number. -/
theorem holds_roundWithAccuracy (s : Sign) (h : Approximates (x / 2 ^ e) m a) (hx : 0 < x) (he : e ≤ quantum x) :
    Holds (roundWithAccuracy Format.binary32 s m e a) (signed s (nearest x)) := by
  obtain ⟨rounded, exponent⟩ := first_shift h hx he
  have least : -149 ≤ quantum x := le_max_right _ _
  have most := mantissa_le x
  have normal (hq : quantum x ≠ -149) := le_mantissa ((le_of_quantum hx).resolve_left hq)
  rw [nearest_of_nonneg hx.le, nearestAbs]
  unfold roundWithAccuracy
  generalize shiftToTargetExponent Format.binary32 m e a = em at rounded exponent
  obtain ⟨em, q⟩ := em
  dsimp only at rounded exponent ⊢
  rw [← rounded] at most normal ⊢
  rw [← exponent] at least normal ⊢
  generalize em.roundedMantissa = r at most normal
  rw [second_shift (by omega) least]
  by_cases full : r = 2 ^ 24
  · rw [if_pos full]
    dsimp only
    rw [dif_neg (by decide), full]
    have carried : ((2 ^ 24 : ℕ) : ℤ) * (2 : ℚ) ^ q = ((2 ^ 23 : ℕ) : ℚ) * 2 ^ (q + 1) := by
      rw [zpow_add_one₀ two_ne_zero]
      push_cast
      ring
    rw [carried]
    exact .finite s ⟨by decide, by decide, by omega, .inl le_rfl⟩
  · rw [if_neg full]
    dsimp only
    rw [Int.cast_natCast]
    by_cases none : r = 0
    · rw [dif_pos none, none, Nat.cast_zero, zero_mul, signed_zero]
      exact .zero s
    · rw [dif_neg none]
      exact .finite s ⟨by omega, by omega, least, by omega⟩

theorem decreaseExponent_value (m : ℕ) (e t : ℤ) :
    ((decreaseExponent m e t).1 : ℚ) * 2 ^ (decreaseExponent m e t).2 = m * 2 ^ e := by
  unfold decreaseExponent
  dsimp only
  rw [Nat.shiftLeft_eq, Nat.cast_mul, Nat.cast_pow, Nat.cast_ofNat, ← zpow_natCast, mul_assoc,
    ← zpow_add₀ two_ne_zero, add_sub_cancel]

theorem approximates_exact (m : ℕ) (e : ℤ) : Approximates (m * 2 ^ e / 2 ^ e) m .exact :=
  mul_div_cancel_right₀ _ (by positivity)

theorem holds_round (s : Sign) (hm : m ≠ 0) (e : ℤ) :
    Holds (UnpackedFloat.round Format.binary32 s m e) (signed s (nearest (m * 2 ^ e))) := by
  have pos : 0 < (m : ℚ) * 2 ^ e := by
    have : 0 < m := by omega
    positivity
  have target := target_eq_quantum (approximates_exact m e) pos fun h => absurd h hm
  have value := decreaseExponent_value m e (quantum (m * 2 ^ e))
  have low : (decreaseExponent m e (quantum (m * 2 ^ e))).2 ≤ quantum (m * 2 ^ e) := by
    unfold decreaseExponent
    dsimp only
    omega
  unfold UnpackedFloat.round
  rw [target]
  change Holds (roundWithAccuracy _ s (decreaseExponent m e (quantum (m * 2 ^ e))).1
    (decreaseExponent m e (quantum (m * 2 ^ e))).2 .exact) _
  generalize decreaseExponent m e (quantum (m * 2 ^ e)) = d at value low ⊢
  rw [← value] at pos low ⊢
  exact holds_roundWithAccuracy s (approximates_exact d.1 d.2) pos low

theorem holds_normalize (n e : ℤ) (s : Sign) :
    Holds (UnpackedFloat.normalize Format.binary32 n e s) (nearest (n * 2 ^ e)) := by
  unfold UnpackedFloat.normalize
  rcases lt_trichotomy n 0 with neg | rfl | pos
  · rw [show compare n 0 = .lt from compare_lt_iff_lt.mpr neg]
    have := holds_round .negative (m := (-n).toNat) (by omega) e
    rwa [← nearest_signed, ← Int.cast_natCast, Int.toNat_of_nonneg (by omega), signed, Int.cast_neg, neg_mul,
      neg_neg] at this
  · rw [show compare (0 : ℤ) 0 = .eq from rfl, Int.cast_zero, zero_mul, nearest_zero]
    exact .zero s
  · rw [show compare n 0 = .gt from compare_gt_iff_gt.mpr pos]
    have := holds_round .positive (m := n.toNat) (by omega) e
    rwa [← nearest_signed, ← Int.cast_natCast, Int.toNat_of_nonneg (by omega)] at this

/-! ## Arithmetic -/

variable {u v : UnpackedFloat}

theorem Holds.representable (h : Holds u x) : Representable x := by
  cases h with
  | zero => exact ⟨0, 0, by norm_num, by norm_num, by norm_num⟩
  | @finite s m e form =>
    have bits := form.bits
    have : Representable (m * 2 ^ e) := ⟨m, e, abs_lt.mpr ⟨by omega, by omega⟩, form.least, by simp⟩
    cases s with
    | positive => exact this
    | negative => exact this.neg

theorem signed_neg (s : Sign) (x : ℚ) : signed (-s) x = -signed s x := by
  cases s with
  | positive => rfl
  | negative => exact (neg_neg x).symm

theorem Holds.neg (h : Holds u x) : Holds u.neg (-x) := by
  cases h with
  | zero s => exact neg_zero (G := ℚ) ▸ .zero (-s)
  | finite s form => exact signed_neg s _ ▸ .finite (-s) form

theorem cast_apply (s : Sign) (m : ℕ) : ((s.apply m : ℤ) : ℚ) = signed s m := by
  cases s with
  | positive => rfl
  | negative => exact Int.cast_neg _

theorem signed_decrease (s : Sign) (m : ℕ) {e t : ℤ} (ht : t ≤ e) :
    signed s (m * 2 ^ e) = ((s.apply (decreaseExponent m e t).1 : ℤ) : ℚ) * 2 ^ t := by
  have low : (decreaseExponent m e t).2 = t := by
    unfold decreaseExponent
    dsimp only
    omega
  have value := decreaseExponent_value m e t
  rw [low] at value
  rw [cast_apply, ← value]
  cases s with
  | positive => rfl
  | negative => exact (neg_mul _ _).symm

theorem Holds.add (hu : Holds u x) (hv : Holds v y) : Holds (UnpackedFloat.add Format.binary32 u v) (nearest (x + y)) := by
  cases hu with
  | zero s =>
    rw [zero_add, hv.representable.nearest]
    cases hv with
    | zero s' => cases s <;> cases s' <;> exact .zero _
    | finite s' form => exact .finite s' form
  | @finite s m e form =>
    have left := Holds.finite s form
    cases hv with
    | zero s' =>
      rw [add_zero, left.representable.nearest]
      exact left
    | @finite s' m' e' form' =>
      rw [signed_decrease s m (min_le_left e e'), signed_decrease s' m' (min_le_right e e'), ← add_mul, ← Int.cast_add]
      exact holds_normalize _ _ .positive

theorem apply_neg (s : Sign) (n : ℤ) : (-s).apply n = -s.apply n := by
  cases s with
  | positive => rfl
  | negative => exact (neg_neg n).symm

theorem unpackedSub_eq (u v : UnpackedFloat) : u.sub Format.binary32 v = u.add Format.binary32 v.neg := by
  cases u with
  | finite s m e =>
    cases v with
    | finite s' m' e' =>
      unfold UnpackedFloat.sub UnpackedFloat.add UnpackedFloat.neg
      dsimp only
      rw [apply_neg, Int.sub_eq_add_neg]
    | infinity | notANumber | zero => rfl
  | infinity | notANumber | zero => cases v <;> rfl

theorem Holds.sub (hu : Holds u x) (hv : Holds v y) : Holds (UnpackedFloat.sub Format.binary32 u v) (nearest (x - y)) := by
  rw [unpackedSub_eq, sub_eq_add_neg]
  exact hu.add hv.neg

theorem signed_mul (s s' : Sign) (x y : ℚ) : signed s x * signed s' y = signed (s * s') (x * y) := by
  cases s <;> cases s'
  · exact neg_mul_neg x y
  · exact neg_mul x y
  · exact mul_neg x y
  · rfl

theorem signed_div (s s' : Sign) (x y : ℚ) : signed s x / signed s' y = signed (s / s') (x / y) := by
  cases s <;> cases s'
  · exact neg_div_neg_eq x y
  · exact neg_div y x
  · exact div_neg x
  · rfl

theorem quantum_eq (hm : m ≠ 0) (e : ℤ) : quantum (m * 2 ^ e) = max (m.log2 + e - 23) (-149) := by
  have pos : 0 < (m : ℚ) * 2 ^ e := by
    have : 0 < m := by omega
    positivity
  have := log_eq (approximates_exact m e) hm pos
  unfold totalExponent at this
  unfold quantum
  omega

theorem Holds.mul (hu : Holds u x) (hv : Holds v y) : Holds (UnpackedFloat.mul Format.binary32 u v) (nearest (x * y)) := by
  cases hu with
  | zero s =>
    rw [zero_mul, nearest_zero]
    cases hv <;> exact .zero _
  | @finite s m e form =>
    cases hv with
    | zero s' =>
      rw [mul_zero, nearest_zero]
      exact .zero _
    | @finite s' m' e' form' =>
      have pos : 0 < m * m' := Nat.mul_pos form.pos form'.pos
      have value : (m : ℚ) * 2 ^ e * (m' * 2 ^ e') = (m * m' : ℕ) * 2 ^ (e + e') := by
        rw [zpow_add₀ two_ne_zero]
        push_cast
        ring
      rw [signed_mul, nearest_signed, value]
      refine holds_roundWithAccuracy _ (approximates_exact _ _) (by positivity) ?_
      rw [quantum_eq pos.ne']
      have normal := form.normal
      have normal' := form'.normal
      by_cases large : 2 ^ 23 ≤ m * m'
      · have := (Nat.le_log2 pos.ne').mpr large
        omega
      · -- both are below the normal numbers, and the exponents are the least ones
        have := Nat.le_mul_of_pos_right m form'.pos
        have := Nat.le_mul_of_pos_left m' form.pos
        omega

theorem approximates_quotient (n : ℕ) {d : ℕ} (hd : 0 < d) :
    Approximates (n / d) (n / d : ℕ) (UnpackedFloat.accuracyOfFraction (n % d) d) := by
  have pos : (0 : ℚ) < d := by exact_mod_cast hd
  have whole : (n : ℚ) = d * (n / d : ℕ) + (n % d : ℕ) := by exact_mod_cast (Nat.div_add_mod n d).symm
  have less := Nat.mod_lt n hd
  generalize n / d = q at whole
  generalize n % d = r at whole less
  have value : (n : ℚ) / d = q + r / d := by
    rw [whole]
    field_simp
  rw [value]
  unfold UnpackedFloat.accuracyOfFraction
  split_ifs with none
  · simp [Approximates, none]
  · have part : (0 : ℚ) < r / d := by
      have : 0 < r := by omega
      positivity
    have cast : (r : ℚ) / d * d = r := div_mul_cancel₀ _ pos.ne'
    generalize (r : ℚ) / d = p at part cast
    have less : (r : ℚ) < d := by exact_mod_cast less
    rcases lt_trichotomy (2 * r) d with low | middle | high
    · rw [show compare (2 * r) d = .lt from compare_lt_iff_lt.mpr low]
      have low : 2 * (r : ℚ) < d := by exact_mod_cast low
      exact ⟨by linarith, by nlinarith⟩
    · rw [show compare (2 * r) d = .eq from compare_eq_iff_eq.mpr middle]
      have middle : 2 * (r : ℚ) = d := by exact_mod_cast middle
      have : p = 1 / 2 := by nlinarith
      exact congrArg _ this
    · rw [show compare (2 * r) d = .gt from compare_gt_iff_gt.mpr high]
      have high : (d : ℚ) < 2 * r := by exact_mod_cast high
      exact ⟨by nlinarith, by nlinarith⟩

theorem log_sub_log_le (hx : 0 < x) (hy : 0 < y) : Int.log 2 x - Int.log 2 y ≤ Int.log 2 (x / y) + 1 := by
  have : Int.log 2 x - Int.log 2 y - 1 ≤ Int.log 2 (x / y) := by
    rw [← Int.zpow_le_iff_le_log (by decide) (by positivity), le_div_iff₀ hy]
    calc ((2 : ℕ) : ℚ) ^ (Int.log 2 x - Int.log 2 y - 1) * y
        ≤ (2 : ℕ) ^ (Int.log 2 x - Int.log 2 y - 1) * (2 : ℕ) ^ (Int.log 2 y + 1) := by
          gcongr
          exact (Int.lt_zpow_succ_log_self (by decide) y).le
      _ = (2 : ℕ) ^ Int.log 2 x := by
          rw [← zpow_add₀ (by norm_num)]
          congr 1
          omega
      _ ≤ x := Int.zpow_log_le_self (by decide) hx
  omega

theorem Holds.div (hu : Holds u x) (hv : Holds v y) (hy : y ≠ 0) :
    Holds (UnpackedFloat.div Format.binary32 u v) (nearest (x / y)) := by
  cases hv with
  | zero => exact absurd rfl hy
  | @finite s' m' e' form' =>
    cases hu with
    | zero s =>
      rw [zero_div, nearest_zero]
      exact .zero _
    | @finite s m e form =>
      rw [signed_div, nearest_signed]
      have log := log_eq (approximates_exact m e) form.pos.ne' form.value_pos
      have log' := log_eq (approximates_exact m' e') form'.pos.ne' form'.value_pos
      have logs := log_sub_log_le form.value_pos form'.value_pos
      refine holds_roundWithAccuracy _ ?_ (div_pos form.value_pos form'.value_pos) ?_
      · generalize Format.binary32.targetExponent (totalExponent m e - totalExponent m' e') = q
        obtain ⟨k, hk⟩ := Int.le.dest (min_le_left (e - e') q)
        have amount : (e - e' - min (e - e') q).toNat = k := by omega
        rw [amount]
        have value : (m : ℚ) * 2 ^ e / (m' * 2 ^ e') / 2 ^ min (e - e') q = (m <<< k : ℕ) / m' := by
          generalize min (e - e') q = t at hk
          obtain rfl : e = t + k + e' := by omega
          rw [Nat.shiftLeft_eq, zpow_add₀ two_ne_zero, zpow_add₀ two_ne_zero, zpow_natCast]
          push_cast
          field_simp
        rw [value]
        exact approximates_quotient _ form'.pos
      · refine (min_le_right _ _).trans ?_
        rw [targetExponent_eq]
        unfold quantum
        omega

end PdfContent.Single
