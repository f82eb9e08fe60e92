import PdfContent.Bytes
/-!
# Radix — numbers that are written with digits in a base

Digits denote a number, the first being the most significant (`value`), and a number below a power of the base is written
with as many digits in one way (`value_digits`, `digits_value`).  The bytes of a string are digits in base 256.
-/
namespace PdfContent

namespace Radix

def value (base : Nat) (ds : List Nat) : Nat := ds.foldl (fun n d => n * base + d) 0

def digits (base n : Nat) : Nat → List Nat
  | 0 => []
  | k + 1 => digits base (n / base) k ++ [n % base]

variable {base : Nat}

theorem foldl_value (n : Nat) (ds : List Nat) :
    ds.foldl (fun n d => n * base + d) n = n * Nat.pow base ds.length + value base ds := by
  induction ds generalizing n with
  | nil => exact (Nat.mul_one n).symm
  | cons d ds ih =>
    have power : Nat.pow base (ds.length + 1) = Nat.pow base ds.length * base := rfl
    rw [value, List.foldl_cons, List.foldl_cons, ih, ih (0 * base + d), List.length_cons, power, Nat.zero_mul,
      Nat.zero_add, Nat.add_mul, Nat.mul_assoc, Nat.mul_comm base, Nat.add_assoc]

theorem value_append (ds ds' : List Nat) :
    value base (ds ++ ds') = value base ds * Nat.pow base ds'.length + value base ds' := by
  rw [value, List.foldl_append, foldl_value, ← value]

theorem value_concat (ds : List Nat) (d : Nat) : value base (ds ++ [d]) = value base ds * base + d := by
  simp [value]

theorem length_digits (base n k : Nat) : (digits base n k).length = k := by
  induction k generalizing n with
  | zero => rfl
  | succ k ih => rw [digits, List.length_append, ih, List.length_singleton]

theorem digits_lt (positive : 0 < base) (n k : Nat) : ∀ d ∈ digits base n k, d < base := by
  induction k generalizing n with
  | zero => exact nofun
  | succ k ih =>
    refine List.forall_mem_append.mpr ⟨ih _, fun d hd => ?_⟩
    rw [List.mem_singleton.mp hd]
    exact Nat.mod_lt n positive

theorem value_digits (n k : Nat) : value base (digits base n k) = n % Nat.pow base k := by
  induction k generalizing n with
  | zero => exact (Nat.mod_one n).symm
  | succ k ih =>
    have power : Nat.pow base (k + 1) = base * Nat.pow base k := Nat.mul_comm _ _
    rw [digits, value_concat, ih, power, Nat.mod_mul, Nat.mul_comm base, Nat.add_comm]

theorem digits_value {k : Nat} {ds : List Nat} (small : ∀ d ∈ ds, d < base) (hk : ds.length = k) :
    digits base (value base ds) k = ds := by
  induction k generalizing ds with
  | zero => exact (List.eq_nil_of_length_eq_zero hk).symm
  | succ k ih =>
    obtain ⟨ds, d, rfl⟩ := (List.eq_nil_or_concat ds).resolve_left (by rintro rfl; cases hk)
    rw [List.concat_eq_append] at small hk ⊢
    obtain ⟨front, last⟩ := List.forall_mem_append.mp small
    have last : d < base := last d (.head _)
    have quotient : (value base ds * base + d) / base = value base ds := by
      rw [Nat.mul_comm, Nat.mul_add_div (Nat.zero_lt_of_lt last), Nat.div_eq_of_lt last, Nat.add_zero]
    have remainder : (value base ds * base + d) % base = d := by
      rw [Nat.mul_comm, Nat.mul_add_mod, Nat.mod_eq_of_lt last]
    rw [value_concat, digits, quotient, remainder, ih front (by simpa using hk)]

theorem value_lt (positive : 0 < base) {ds : List Nat} (small : ∀ d ∈ ds, d < base) :
    value base ds < Nat.pow base ds.length := by
  have same : value base ds = value base ds % Nat.pow base ds.length := by
    conv => lhs; rw [← digits_value small rfl, value_digits]
  rw [same]
  exact Nat.mod_lt _ (Nat.pow_pos positive)

/-- The first digits are those of a quotient. -/
theorem take_digits (n m k : Nat) : (digits base n (m + k)).take m = digits base (n / Nat.pow base k) m := by
  induction k generalizing n with
  | zero => rw [Nat.add_zero, List.take_of_length_le (Nat.le_of_eq (length_digits base n m))]; exact (Nat.div_one n).symm ▸ rfl
  | succ k ih =>
    have power : Nat.pow base (k + 1) = base * Nat.pow base k := Nat.mul_comm _ _
    rw [← Nat.add_assoc, digits, List.take_append_of_le_length (by rw [length_digits]; omega), ih,
      Nat.div_div_eq_div_mul, power]

/-- Digits that are filled up with the highest one denote a number just below the next multiple. -/
theorem value_filled (positive : 0 < base) (ds : List Nat) (k : Nat) :
    value base (ds ++ List.replicate k (base - 1)) + 1 = (value base ds + 1) * Nat.pow base k := by
  induction k with
  | zero => rw [List.replicate_zero, List.append_nil]; exact (Nat.mul_one _).symm
  | succ k ih =>
    have power : Nat.pow base (k + 1) = Nat.pow base k * base := rfl
    rw [List.replicate_succ', ← List.append_assoc, value_concat, power, ← Nat.mul_assoc, ← ih, Nat.add_mul]
    omega

end Radix

namespace Bytes

open Radix

theorem bigEndian_eq (s : Bytes) : bigEndian s = value 256 (s.map UInt8.toNat) := by
  rw [bigEndian, value, List.foldl_map]

theorem toNat_lt (s : Bytes) : ∀ d ∈ s.map UInt8.toNat, d < 256 := List.forall_mem_map.mpr fun b _ => b.toNat_lt

theorem bigEndian_append (s t : Bytes) : bigEndian (s ++ t) = bigEndian s * Nat.pow 256 t.length + bigEndian t := by
  have length : (t.map UInt8.toNat).length = t.length := List.length_map _
  rw [bigEndian_eq, bigEndian_eq, bigEndian_eq, List.map_append, value_append, length]

theorem bigEndian_lt (s : Bytes) : bigEndian s < Nat.pow 256 s.length := by
  have length : (s.map UInt8.toNat).length = s.length := List.length_map _
  rw [bigEndian_eq, ← length]
  exact value_lt (by decide) (toNat_lt s)

/-- The digits of the number that bytes denote are the bytes. -/
theorem digits_bigEndian {s : Bytes} {k : Nat} (length : s.length = k) :
    (digits 256 (bigEndian s) k).map Nat.toUInt8 = s := by
  have back : Nat.toUInt8 ∘ UInt8.toNat = id := funext fun b => by
    rw [Function.comp_apply, Nat.toUInt8_eq, UInt8.ofNat_toNat, id]
  rw [bigEndian_eq, digits_value (toNat_lt s) ((List.length_map _).trans length), List.map_map, back, List.map_id]

theorem bigEndian_inj {s t : Bytes} (h : s.length = t.length) (he : bigEndian s = bigEndian t) : s = t := by
  rw [← digits_bigEndian h, he, digits_bigEndian rfl]

end Bytes

end PdfContent
