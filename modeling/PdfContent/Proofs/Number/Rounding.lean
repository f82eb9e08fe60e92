import Mathlib.Algebra.Order.Field.Power
import Mathlib.Data.Int.Log
import Mathlib.Data.Rat.Floor
import Mathlib.Tactic.FieldSimp
import Mathlib.Tactic.Linarith
import Mathlib.Tactic.Positivity
/-!
# Rounding — the single-precision number nearest to a rational one

Without bounds for the exponent, every rational number has a nearest single-precision one (`nearest`).  Rounding keeps the
order (`nearest_mono`) and the numbers that are `Representable`.  Hence a part of a difference, computed with rounding, is
never greater than the exact difference (`nearest_div_le_sub`).
-/
namespace PdfContent.Single

variable {x y : ℚ}

/-! ## Integers -/

/-- The nearest integer, and the even one of two that are as near. -/
def halfEven (x : ℚ) : ℤ :=
  if x - ⌊x⌋ < 1 / 2 then ⌊x⌋ else if 1 / 2 < x - ⌊x⌋ then ⌊x⌋ + 1 else ⌊x⌋ + ⌊x⌋ % 2

theorem halfEven_intCast (n : ℤ) : halfEven n = n := by simp [halfEven]

theorem halfEven_bounds (x : ℚ) : ⌊x⌋ ≤ halfEven x ∧ halfEven x ≤ ⌊x⌋ + 1 := by
  unfold halfEven
  split_ifs <;> omega

theorem halfEven_mono (h : x ≤ y) : halfEven x ≤ halfEven y := by
  rcases (Int.floor_mono h).lt_or_eq with less | same
  · have := halfEven_bounds x
    have := halfEven_bounds y
    omega
  · unfold halfEven
    rw [same]
    split_ifs <;> first | omega | linarith

theorem halfEven_le_add_half (x : ℚ) : (halfEven x : ℚ) ≤ x + 1 / 2 := by
  have low := Int.floor_le x
  have even : ((⌊x⌋ % 2 : ℤ) : ℚ) ≤ 1 := by exact_mod_cast (by omega : ⌊x⌋ % 2 ≤ 1)
  unfold halfEven
  split_ifs <;> push_cast <;> linarith

/-! ## The nearest number -/

/-- The exponent of the last bit of the mantissa for a positive number. -/
def quantum (x : ℚ) : ℤ := max (Int.log 2 x - 23) (-149)

def nearestAbs (x : ℚ) : ℚ := halfEven (x / 2 ^ quantum x) * 2 ^ quantum x

/-- The nearest single-precision number, if no exponent is too large. -/
def nearest (x : ℚ) : ℚ := if x < 0 then -nearestAbs (-x) else nearestAbs x

/-- A mantissa of 24 bits with an exponent that is not too small. -/
def Representable (x : ℚ) : Prop := ∃ m e : ℤ, |m| < 2 ^ 24 ∧ -149 ≤ e ∧ x = m * 2 ^ e

theorem Representable.neg (h : Representable x) : Representable (-x) := by
  obtain ⟨m, e, hm, he, rfl⟩ := h
  exact ⟨-m, e, (abs_neg m).symm ▸ hm, he, by push_cast; ring⟩

theorem lt_of_quantum (x : ℚ) : x < 2 ^ (quantum x + 24) := by
  have above : x < (2 : ℕ) ^ (Int.log 2 x + 1) := Int.lt_zpow_succ_log_self (by decide) x
  refine above.trans_le (zpow_le_zpow_right₀ (by norm_num) ?_)
  unfold quantum
  omega

theorem le_of_quantum (hx : 0 < x) : quantum x = -149 ∨ 2 ^ (quantum x + 23) ≤ x := by
  by_cases h : quantum x = -149
  · exact .inl h
  · have e : quantum x + 23 = Int.log 2 x := by
      unfold quantum at h ⊢
      omega
    exact .inr (e ▸ Int.zpow_log_le_self (by decide) hx)

theorem quantum_mono (hx : 0 < x) (h : x ≤ y) : quantum x ≤ quantum y := by
  have := Int.log_mono_right (b := 2) hx h
  unfold quantum
  omega

theorem quantum_le {e : ℤ} (hx : 0 < x) (h : x < 2 ^ (e + 24)) (he : -149 ≤ e) : quantum x ≤ e := by
  have := (Int.lt_zpow_iff_log_lt (b := 2) (by decide) hx).mp h
  unfold quantum
  omega

theorem mantissa_le (x : ℚ) : halfEven (x / 2 ^ quantum x) ≤ 2 ^ 24 := by
  have h : x / 2 ^ quantum x ≤ ((2 ^ 24 : ℤ) : ℚ) := by
    rw [div_le_iff₀ (by positivity)]
    have := (lt_of_quantum x).le
    rw [zpow_add₀ two_ne_zero, mul_comm] at this
    exact_mod_cast this
  exact halfEven_intCast (2 ^ 24) ▸ halfEven_mono h

theorem le_mantissa (h : 2 ^ (quantum x + 23) ≤ x) : 2 ^ 23 ≤ halfEven (x / 2 ^ quantum x) := by
  have h : ((2 ^ 23 : ℤ) : ℚ) ≤ x / 2 ^ quantum x := by
    rw [le_div_iff₀ (by positivity)]
    rw [zpow_add₀ two_ne_zero, mul_comm] at h
    exact_mod_cast h
  exact halfEven_intCast (2 ^ 23) ▸ halfEven_mono h

theorem mantissa_nonneg (hx : 0 ≤ x) : 0 ≤ halfEven (x / 2 ^ quantum x) := by
  have h : ((0 : ℤ) : ℚ) ≤ x / 2 ^ quantum x := by
    rw [Int.cast_zero]
    positivity
  exact halfEven_intCast 0 ▸ halfEven_mono h

theorem nearestAbs_nonneg (hx : 0 ≤ x) : 0 ≤ nearestAbs x := by
  have := mantissa_nonneg hx
  unfold nearestAbs
  positivity

theorem nearestAbs_zero : nearestAbs 0 = 0 := by
  rw [nearestAbs, zero_div, ← Int.cast_zero, halfEven_intCast, Int.cast_zero, zero_mul]

theorem nearestAbs_mono (hx : 0 ≤ x) (h : x ≤ y) : nearestAbs x ≤ nearestAbs y := by
  rcases hx.eq_or_lt with rfl | hx
  · rw [nearestAbs_zero]
    exact nearestAbs_nonneg h
  rcases (quantum_mono hx h).eq_or_lt with same | less
  · unfold nearestAbs
    rw [same]
    have := halfEven_mono (div_le_div_of_nonneg_right h (by positivity : (0 : ℚ) ≤ 2 ^ quantum y))
    gcongr
  · -- between the two lies the power of two where the exponent grows
    have normal : 2 ^ (quantum y + 23) ≤ y := by
      refine (le_of_quantum (hx.trans_le h)).resolve_left fun least => ?_
      have : -149 ≤ quantum x := le_max_right _ _
      omega
    calc nearestAbs x ≤ 2 ^ 24 * 2 ^ quantum x := by
          unfold nearestAbs
          gcongr
          exact_mod_cast mantissa_le x
      _ = 2 ^ (quantum x + 24) := by rw [zpow_add₀ two_ne_zero, mul_comm]; norm_num
      _ ≤ 2 ^ (quantum y + 23) := zpow_le_zpow_right₀ (by norm_num) (by omega)
      _ = 2 ^ 23 * 2 ^ quantum y := by rw [zpow_add₀ two_ne_zero, mul_comm]; norm_num
      _ ≤ nearestAbs y := by
          unfold nearestAbs
          gcongr
          exact_mod_cast le_mantissa normal

/-- **Rounding keeps the order.** -/
theorem nearest_mono (h : x ≤ y) : nearest x ≤ nearest y := by
  unfold nearest
  split_ifs with hx hy hy
  · exact neg_le_neg (nearestAbs_mono (by linarith) (by linarith))
  · have := nearestAbs_nonneg (x := -x) (by linarith)
    have := nearestAbs_nonneg (x := y) (by linarith)
    linarith
  · linarith
  · exact nearestAbs_mono (by linarith) h

theorem nearest_neg (x : ℚ) : nearest (-x) = -nearest x := by
  unfold nearest
  rcases lt_trichotomy x 0 with hx | rfl | hx
  · rw [if_neg (by linarith), if_pos hx, neg_neg]
  · simp [nearestAbs_zero]
  · rw [if_pos (by linarith), if_neg (by linarith), neg_neg]

theorem nearest_of_nonneg (hx : 0 ≤ x) : nearest x = nearestAbs x := if_neg (not_lt.mpr hx)

theorem nearest_zero : nearest 0 = 0 := by rw [nearest_of_nonneg le_rfl, nearestAbs_zero]

theorem nearest_nonneg (hx : 0 ≤ x) : 0 ≤ nearest x := nearest_of_nonneg hx ▸ nearestAbs_nonneg hx

theorem Representable.nearestAbs (h : Representable x) (hx : 0 < x) : nearestAbs x = x := by
  obtain ⟨m, e, hm, he, rfl⟩ := h
  have small : (m : ℚ) * 2 ^ e < 2 ^ (e + 24) := by
    rw [zpow_add₀ two_ne_zero, mul_comm]
    have : (m : ℚ) < 2 ^ 24 := by exact_mod_cast (abs_lt.mp hm).2
    gcongr
    exact_mod_cast this
  obtain ⟨k, hk⟩ := Int.le.dest (quantum_le hx small he)
  unfold Single.nearestAbs
  generalize quantum ((m : ℚ) * 2 ^ e) = q at hk
  have whole : (m : ℚ) * 2 ^ e / 2 ^ q = ((m * 2 ^ k : ℤ) : ℚ) := by
    rw [← hk, zpow_add₀ two_ne_zero, zpow_natCast]
    push_cast
    field_simp
  rw [whole, halfEven_intCast, ← whole]
  field_simp

theorem Representable.nearest (h : Representable x) : nearest x = x := by
  unfold Single.nearest
  rcases lt_trichotomy x 0 with hx | rfl | hx
  · rw [if_pos hx, h.neg.nearestAbs (by linarith), neg_neg]
  · rw [if_neg (lt_irrefl _), nearestAbs_zero]
  · rw [if_neg (by linarith), h.nearestAbs hx]

theorem representable_nearestAbs (hx : 0 ≤ x) : Representable (nearestAbs x) := by
  have least : -149 ≤ quantum x := le_max_right _ _
  have := mantissa_nonneg hx
  rcases (mantissa_le x).lt_or_eq with less | full
  · exact ⟨_, _, abs_lt.mpr ⟨by omega, less⟩, least, rfl⟩
  · refine ⟨2 ^ 23, quantum x + 1, by norm_num, by omega, ?_⟩
    rw [nearestAbs, full, zpow_add_one₀ two_ne_zero]
    push_cast
    ring

theorem representable_nearest (x : ℚ) : Representable (nearest x) := by
  unfold nearest
  split_ifs with hx
  · exact (representable_nearestAbs (by linarith)).neg
  · exact representable_nearestAbs (by linarith)

theorem nearest_le_add_half (hx : 0 ≤ x) : nearest x ≤ x + 2 ^ quantum x / 2 := by
  have pos : (0 : ℚ) < 2 ^ quantum x := by positivity
  calc nearest x = halfEven (x / 2 ^ quantum x) * 2 ^ quantum x := nearest_of_nonneg hx
    _ ≤ (x / 2 ^ quantum x + 1 / 2) * 2 ^ quantum x := by
      gcongr
      exact halfEven_le_add_half _
    _ = x + 2 ^ quantum x / 2 := by field_simp

/-! ## Parts of a difference -/

theorem Representable.sub_eq (hx : Representable x) (hy : Representable y) :
    ∃ d q : ℤ, -149 ≤ q ∧ y - x = d * 2 ^ q := by
  obtain ⟨m, e, -, he, rfl⟩ := hx
  obtain ⟨m', e', -, he', rfl⟩ := hy
  obtain ⟨k, hk⟩ := Int.le.dest (min_le_left e e')
  obtain ⟨k', hk'⟩ := Int.le.dest (min_le_right e e')
  refine ⟨m' * 2 ^ k' - m * 2 ^ k, min e e', le_min he he', ?_⟩
  generalize min e e' = q at hk hk'
  rw [← hk, ← hk', zpow_add₀ two_ne_zero, zpow_add₀ two_ne_zero, zpow_natCast, zpow_natCast]
  push_cast
  ring

theorem nearest_sub_pos (hx : Representable x) (hy : Representable y) (h : x < y) : 0 < nearest (y - x) := by
  have least : Representable (2 ^ (-149 : ℤ)) := ⟨1, -149, by norm_num, by norm_num, by norm_num⟩
  obtain ⟨d, q, hq, diff⟩ := hx.sub_eq hy
  have pos : 0 < (d : ℚ) * 2 ^ q := diff ▸ sub_pos.mpr h
  have one : (1 : ℚ) ≤ d := by exact_mod_cast Int.cast_pos.mp (pos_of_mul_pos_left pos (by positivity))
  calc (0 : ℚ) < 2 ^ (-149 : ℤ) := by positivity
    _ = nearest (2 ^ (-149 : ℤ)) := least.nearest.symm
    _ ≤ nearest (y - x) := nearest_mono ?_
  calc (2 : ℚ) ^ (-149 : ℤ) = 1 * 2 ^ (-149 : ℤ) := (one_mul _).symm
    _ ≤ d * 2 ^ q := by gcongr; norm_num
    _ = y - x := diff.symm

/-- A difference is exact unless it needs more bits than there are; then it is far from the least numbers. -/
theorem Representable.sub (hx : Representable x) (hy : Representable y) :
    Representable (y - x) ∨ 2 ^ (-125 : ℤ) ≤ |y - x| := by
  obtain ⟨d, q, hq, diff⟩ := hx.sub_eq hy
  rw [diff]
  by_cases few : |d| < 2 ^ 24
  · exact .inl ⟨d, q, few, hq, rfl⟩
  · have many : (2 ^ 24 : ℚ) ≤ |(d : ℚ)| := by exact_mod_cast not_lt.mp few
    right
    calc (2 : ℚ) ^ (-125 : ℤ) = 2 ^ 24 * 2 ^ (-149 : ℤ) := by norm_num
      _ ≤ |(d : ℚ)| * 2 ^ q := by gcongr; norm_num
      _ = |(d : ℚ) * 2 ^ q| := by rw [abs_mul, abs_of_pos (by positivity : (0 : ℚ) < 2 ^ q)]

theorem Representable.one_add_le {n : ℚ} (hn : Representable n) (h : 1 < n) : 1 + 2 ^ (-23 : ℤ) ≤ n := by
  obtain ⟨m, e, hm, -, rfl⟩ := hn
  have bound : (m : ℚ) ≤ 2 ^ 24 := by exact_mod_cast (abs_lt.mp hm).2.le
  have large : -23 ≤ e := by
    by_contra! small
    have : (m : ℚ) * 2 ^ e ≤ 2 ^ 24 * 2 ^ (-24 : ℤ) := by
      gcongr
      · norm_num
      · omega
    norm_num at this
    linarith
  obtain ⟨k, rfl⟩ := Int.le.dest large
  have steps : (m : ℚ) * 2 ^ (-23 + k : ℤ) = ((m * 2 ^ k : ℤ) : ℚ) * 2 ^ (-23 : ℤ) := by
    rw [zpow_add₀ two_ne_zero, zpow_natCast]
    push_cast
    ring
  rw [steps] at h ⊢
  generalize m * 2 ^ k = d at h
  have above : (2 ^ 23 : ℤ) < d := by
    norm_num at h
    have : (2 ^ 23 : ℚ) < d := by linarith
    exact_mod_cast this
  have : (2 ^ 23 + 1 : ℚ) ≤ d := by exact_mod_cast above
  norm_num
  linarith

theorem nearest_div_lt {w n : ℚ} (hw : 2 ^ (-125 : ℤ) ≤ w) (hn : 1 + 2 ^ (-23 : ℤ) ≤ n) : nearest (w / n) < w := by
  have pos : 0 < n := lt_of_lt_of_le (by norm_num) hn
  have w_pos : 0 < w := lt_of_lt_of_le (by norm_num) hw
  have part : 0 < w / n := by positivity
  have whole : w / n * n = w := div_mul_cancel₀ w pos.ne'
  have rounded := nearest_le_add_half part.le
  generalize w / n = p at *
  -- the rounding makes up for half of a last bit, and the division takes away a whole one
  have step : p * 2 ^ (-23 : ℤ) ≤ w - p := by nlinarith
  rcases le_of_quantum part with least | normal
  · rw [least] at rounded
    norm_num at rounded step hw
    linarith
  · have : 2 ^ quantum p ≤ p * 2 ^ (-23 : ℤ) := by
      rw [zpow_add₀ two_ne_zero] at normal
      norm_num at normal ⊢
      linarith
    have : (0 : ℚ) < 2 ^ quantum p := by positivity
    linarith

/-- **A part of a difference**, with both steps rounded, is at most the exact difference. -/
theorem nearest_div_le_sub {a b n : ℚ} (ha : Representable a) (hb : Representable b) (hn : Representable n)
    (hab : a ≤ b) (one : 1 < n) : nearest (nearest (b - a) / n) ≤ b - a := by
  have diff : 0 ≤ b - a := sub_nonneg.mpr hab
  rcases ha.sub hb with exact_ | large
  · rw [exact_.nearest]
    calc nearest ((b - a) / n) ≤ nearest (b - a) := nearest_mono (div_le_self diff one.le)
      _ = b - a := exact_.nearest
  · rw [abs_of_nonneg diff] at large
    have least : Representable (2 ^ (-125 : ℤ)) := ⟨1, -125, by norm_num, by norm_num, by norm_num⟩
    have less : nearest (nearest (b - a) / n) < nearest (b - a) :=
      nearest_div_lt (least.nearest ▸ nearest_mono large) (hn.one_add_le one)
    -- a number between the difference and its rounding would be nearer
    by_contra! between
    have := nearest_mono between.le
    rw [(representable_nearest _).nearest] at this
    linarith

end PdfContent.Single
