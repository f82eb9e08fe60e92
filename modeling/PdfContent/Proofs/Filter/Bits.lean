import PdfContent.Filter.BitReader
import PdfContent.Proofs.Number.Radix
/-!
# Bits — a bit reader reads the bits that its bytes spell

The bits of a string are those of its bytes, the most significant one first.  A reader takes a number from the bytes that
it lies in, a part of the first one, whole ones and a part of the last one, and that is the number which its bits denote
(`toNat_gather`, `read?_eq`).  So a number that was written with some width is read back, and the bits after it are left
(`read?_of_rest`).
-/
namespace PdfContent

/-- The lowest bits of a number, the most significant of them first. -/
def lowBits (v : Nat) : Nat → List Bool
  | 0 => []
  | n + 1 => v.testBit n :: lowBits v n

def bitsValue (bits : List Bool) : Nat := bits.foldl (fun n b => n * 2 + b.toNat) 0

theorem length_lowBits (v n : Nat) : (lowBits v n).length = n := by
  induction n with
  | zero => rfl
  | succ n ih => rw [lowBits, List.length_cons, ih]

theorem bitsValue_append (l : List Bool) (b : Bool) : bitsValue (l ++ [b]) = bitsValue l * 2 + b.toNat := by
  simp [bitsValue]

/-- The lowest bit comes last. -/
theorem lowBits_succ (v n : Nat) : lowBits v (n + 1) = lowBits (v / 2) n ++ [v.testBit 0] := by
  induction n with
  | zero => rfl
  | succ n ih =>
    rw [lowBits, ih, lowBits, List.cons_append, Nat.testBit_succ]

/-! Bits are digits in base 2. -/

theorem bitsValue_eq (l : List Bool) : bitsValue l = Radix.value 2 (l.map Bool.toNat) := by
  rw [bitsValue, Radix.value, List.foldl_map]

theorem map_lowBits (v n : Nat) : (lowBits v n).map Bool.toNat = Radix.digits 2 v n := by
  induction n generalizing v with
  | zero => rfl
  | succ n ih =>
    have digit : (v.testBit 0).toNat = v % 2 := by
      rw [Nat.testBit_zero]
      rcases Nat.mod_two_eq_zero_or_one v with h | h <;> simp [h]
    rw [lowBits_succ, List.map_append, ih, List.map_singleton, digit, Radix.digits]

theorem bitsValue_lowBits_mod (v n : Nat) : bitsValue (lowBits v n) = v % (1 <<< n) := by
  rw [bitsValue_eq, map_lowBits, Radix.value_digits, Nat.one_shiftLeft]
  rfl

theorem bitsValue_lowBits {v n : Nat} (h : v < 1 <<< n) : bitsValue (lowBits v n) = v := by
  rw [bitsValue_lowBits_mod, Nat.mod_eq_of_lt h]

/-- Bits behind others shift them to the left. -/
theorem bitsValue_join (l l' : List Bool) : bitsValue (l ++ l') = bitsValue l <<< l'.length + bitsValue l' := by
  rw [bitsValue_eq, bitsValue_eq, bitsValue_eq, List.map_append, Radix.value_append, List.length_map, Nat.shiftLeft_eq]
  rfl

theorem toNat_lt_two (l : List Bool) : ∀ d ∈ l.map Bool.toNat, d < 2 := List.forall_mem_map.mpr fun b _ => b.toNat_lt

/-- The bits that denote a number are its lowest ones. -/
theorem lowBits_bitsValue {n : Nat} (l : List Bool) (hl : l.length = n) : lowBits (bitsValue l) n = l := by
  have same : (lowBits (bitsValue l) n).map Bool.toNat = l.map Bool.toNat := by
    rw [map_lowBits, bitsValue_eq, Radix.digits_value (toNat_lt_two l) ((List.length_map _).trans hl)]
  have injective : ∀ b c : Bool, b.toNat = c.toNat → b = c := by decide
  exact (List.map_inj_right injective).mp same

theorem bitsValue_lt (l : List Bool) : bitsValue l < 1 <<< l.length := by
  have bound := Radix.value_lt (by decide) (toNat_lt_two l)
  rw [← bitsValue_eq, List.length_map] at bound
  rw [Nat.one_shiftLeft]
  exact bound

theorem drop_lowBits (v n k : Nat) : (lowBits v n).drop k = lowBits v (n - k) := by
  induction k generalizing n with
  | zero => rfl
  | succ k ih =>
    cases n with
    | zero => rw [Nat.zero_sub]; rfl
    | succ n => rw [lowBits, List.drop_succ_cons, ih, Nat.add_sub_add_right]

theorem take_lowBits (v : Nat) {n k : Nat} (h : k ≤ n) : (lowBits v n).take k = lowBits (v >>> (n - k)) k := by
  induction k generalizing n with
  | zero => rfl
  | succ k ih =>
    cases n with
    | zero => omega
    | succ n =>
      rw [lowBits, List.take_succ_cons, ih (by omega), Nat.add_sub_add_right, lowBits, Nat.testBit_shiftRight,
        Nat.sub_add_cancel (by omega)]

namespace Bytes

def bits (s : Bytes) : List Bool := s.flatMap fun b => lowBits b.toNat 8

theorem length_bits (s : Bytes) : s.bits.length = 8 * s.length := by
  induction s with
  | nil => rfl
  | cons b s ih =>
    rw [bits, List.flatMap_cons, List.length_append, length_lowBits]
    rw [bits] at ih
    rw [ih, List.length_cons]
    omega

theorem bits_append (s t : Bytes) : bits (s ++ t) = s.bits ++ t.bits := List.flatMap_append

theorem drop_bits (s : Bytes) (k : Nat) : s.bits.drop (8 * k) = bits (s.drop k) := by
  by_cases within : k ≤ s.length
  · have front : (bits (s.take k)).length = 8 * k := by rw [length_bits, List.length_take, Nat.min_eq_left within]
    conv => lhs; rw [← List.take_append_drop k s, bits_append, List.drop_left' front]
  · rw [List.drop_of_length_le (by rw [length_bits]; omega), List.drop_of_length_le (by omega)]
    rfl

theorem take_bits (s : Bytes) (k : Nat) : s.bits.take (8 * k) = bits (s.take k) := by
  by_cases within : k ≤ s.length
  · have front : (bits (s.take k)).length = 8 * k := by rw [length_bits, List.length_take, Nat.min_eq_left within]
    conv => lhs; rw [← List.take_append_drop k s, bits_append, List.take_left' front]
  · rw [List.take_of_length_le (by rw [length_bits]; omega), List.take_of_length_le (by omega)]

theorem getElem?_lowBits {v n i : Nat} (h : i < n) : (lowBits v n)[i]? = some (v.testBit (n - 1 - i)) := by
  induction n generalizing i with
  | zero => omega
  | succ n ih =>
    cases i with
    | zero => rfl
    | succ i =>
      rw [lowBits, List.getElem?_cons_succ, ih (by omega)]
      congr 2
      omega

/-- A bit of a string is one of the bits of its byte. -/
theorem getElem?_bits {s : Bytes} {i : Nat} (h : i < 8 * s.length) :
    s.bits[i]? = some ((s[i / 8]?.getD 0).toNat.testBit (7 - i % 8)) := by
  induction s generalizing i with
  | nil => simp at h
  | cons b s ih =>
    have hb : bits (b :: s) = lowBits b.toNat 8 ++ bits s := rfl
    rw [hb]
    by_cases hi : i < 8
    · rw [List.getElem?_append_left (by rw [length_lowBits]; exact hi), getElem?_lowBits hi]
      have hd : i / 8 = 0 := by omega
      have hm : i % 8 = i := by omega
      rw [hd, hm]
      rfl
    · rw [List.getElem?_append_right (by rw [length_lowBits]; omega), length_lowBits,
        ih (by rw [List.length_cons] at h; omega)]
      have hd : i / 8 = (i - 8) / 8 + 1 := by omega
      have hm : (i - 8) % 8 = i % 8 := by omega
      rw [hd, hm, List.getElem?_cons_succ]

end Bytes

namespace BitReader

def rest (r : BitReader) : List Bool := (Bytes.bits r.data.toList).drop r.pos

theorem rest_ofBytes (s : Bytes) : (ofBytes s).rest = s.bits := rfl

theorem bit_eq {r : BitReader} {i : Nat} {b : Bool} (h : (Bytes.bits r.data.toList)[i]? = some b) :
    r.bit i = b.toNat := by
  have hi : i < 8 * r.data.toList.length := by
    have := (List.getElem?_eq_some_iff.mp h).1
    rwa [Bytes.length_bits] at this
  rw [Bytes.getElem?_bits hi, Option.some.injEq] at h
  rw [bit, ← h, Nat.testBit_eq_decide_div_mod_eq, Nat.shiftRight_eq_div_pow, Array.getD_eq_getD_getElem?,
    ← Array.getElem?_toList]
  generalize (r.data.toList[i / 8]?.getD 0).toNat / 2 ^ (7 - i % 8) = x
  rcases Nat.mod_two_eq_zero_or_one x with h | h <;> simp [h]

theorem value_eq (r : BitReader) {n : Nat} {bits : List Bool} {i : Nat} (hl : bits.length = n)
    (h : bits <+: (Bytes.bits r.data.toList).drop i) : r.value i n = bitsValue bits := by
  induction n generalizing bits with
  | zero => rw [List.eq_nil_of_length_eq_zero hl]; rfl
  | succ n ih =>
    obtain ⟨l, b, rfl⟩ := (List.eq_nil_or_concat bits).resolve_left (by rintro rfl; cases hl)
    rw [List.concat_eq_append] at h hl ⊢
    have hl : l.length = n := by simpa using hl
    have hb : (Bytes.bits r.data.toList)[i + n]? = some b := by
      obtain ⟨t, ht⟩ := h
      rw [← List.getElem?_drop, ← ht, List.append_assoc, List.getElem?_append_right (Nat.le_of_eq hl), hl, Nat.sub_self]
      rfl
    have hp : l <+: (Bytes.bits r.data.toList).drop i := (List.prefix_append l [b]).trans h
    rw [value, ih hl hp, bit_eq hb, bitsValue_append]

/-! ## Reading byte by byte -/

set_option maxRecDepth 1024 in
theorem toNat_mask {take : Nat} (h : take ≤ 8) :
    (((1 : UInt16) <<< take.toUInt16) - 1).toUInt8.toNat = (1 <<< take) - 1 := by
  have each : ∀ t : Fin 9, (((1 : UInt16) <<< t.val.toUInt16) - 1).toUInt8.toNat = (1 <<< t.val) - 1 := by decide
  exact each ⟨take, by omega⟩

theorem toNat_chunk (byte : UInt8) {offset take : Nat} (h : offset + take ≤ 8) :
    (chunk byte offset take).toNat = bitsValue (((lowBits byte.toNat 8).drop offset).take take) := by
  cases take with
  | zero => exact congrArg UInt8.toNat UInt8.and_zero
  | succ k =>
    have shifted : (byte >>> (8 - offset - (k + 1)).toUInt8).toNat = byte.toNat >>> (8 - offset - (k + 1)) := by
      rw [UInt8.toNat_shiftRight, Nat.toUInt8_eq, UInt8.toNat_ofNat', Nat.mod_eq_of_lt (a := _ % _) (by omega),
        Nat.mod_eq_of_lt (by omega)]
    rw [drop_lowBits, take_lowBits _ (by omega), bitsValue_lowBits_mod, chunk, UInt8.toNat_and, shifted,
      toNat_mask (by omega), Nat.one_shiftLeft, Nat.and_two_pow_sub_one_eq_mod]

/-- A shift makes room for as many bits. -/
theorem shiftLeft_add_lt {v c k m : Nat} (h : v < 1 <<< k) (hc : c < 1 <<< m) : v <<< m + c < 1 <<< (k + m) := by
  calc v <<< m + c < v <<< m + 1 <<< m := Nat.add_lt_add_left hc _
    _ = (v + 1) <<< m := by rw [Nat.shiftLeft_eq, Nat.shiftLeft_eq, Nat.shiftLeft_eq, Nat.add_mul]
    _ ≤ 1 <<< k <<< m := by
      rw [Nat.shiftLeft_eq, Nat.shiftLeft_eq (1 <<< k)]
      exact Nat.mul_le_mul_right _ h
    _ = 1 <<< (k + m) := (Nat.shiftLeft_add 1 k m).symm

/-- The next bits of a number are put behind those that it has. -/
theorem toNat_behind {value : UInt64} {k take : Nat} {c : UInt8} (small : value.toNat < 1 <<< k) (fits : k + take ≤ 64)
    (short : take ≤ 8) (hc : c.toNat < 1 <<< take) :
    ((value <<< take.toUInt64) ||| c.toUInt64).toNat = value.toNat <<< take + c.toNat := by
  have amount : take.toUInt64.toNat % 64 = take := by
    rw [Nat.toUInt64_eq, UInt64.toNat_ofNat', Nat.mod_eq_of_lt (a := _ % _) (by omega), Nat.mod_eq_of_lt (by omega)]
  have room : value.toNat <<< take < 2 ^ 64 := by
    have shifted := shiftLeft_add_lt small hc
    rw [Nat.one_shiftLeft (k + take)] at shifted
    exact Nat.lt_of_lt_of_le (Nat.lt_of_le_of_lt (Nat.le_add_right _ _) shifted) (Nat.pow_le_pow_right (by decide) fits)
  rw [Nat.one_shiftLeft] at hc
  rw [UInt64.toNat_or, UInt64.toNat_shiftLeft, amount, Nat.mod_eq_of_lt room, UInt8.toNat_toUInt64,
    Nat.shiftLeft_add_eq_or_of_lt hc]

/-- Bits that begin in the first byte end there or go on with the next one. -/
theorem bits_window (byte : UInt8) (bytes : Bytes) {offset n : Nat} (within : offset ≤ 8) :
    ((Bytes.bits (byte :: bytes)).drop offset).take n =
      ((lowBits byte.toNat 8).drop offset).take (min n (8 - offset)) ++
        (Bytes.bits bytes).take (n - min n (8 - offset)) := by
  have front : Bytes.bits (byte :: bytes) = lowBits byte.toNat 8 ++ Bytes.bits bytes := rfl
  have first : ((lowBits byte.toNat 8).drop offset).length = 8 - offset := by rw [List.length_drop, length_lowBits]
  have missing : n - (8 - offset) = n - min n (8 - offset) := by omega
  rw [front, List.drop_append_of_le_length (by rw [length_lowBits]; exact within), List.take_append, first, missing,
    List.take_eq_take_min, first]

/-- What is gathered from bytes are their bits, behind what is there already. -/
theorem toNat_gather : ∀ (bytes : Bytes) {value : UInt64} {k offset n : Nat}, value.toNat < 1 <<< k → k + n ≤ 64 →
    offset ≤ 8 → offset + n ≤ 8 * bytes.length →
    (gather value offset n bytes).toNat = value.toNat <<< n + bitsValue ((bytes.bits.drop offset).take n)
  | [], value, k, offset, n, _, _, _, enough => by
    obtain rfl : n = 0 := by rw [List.length_nil] at enough; omega
    rfl
  | byte :: bytes, value, k, offset, n, small, fits, within, enough => by
    rw [List.length_cons] at enough
    rw [gather, bits_window byte bytes within]
    generalize htake : min n (8 - offset) = take
    have chunked := toNat_chunk byte (show offset + take ≤ 8 by omega)
    have short : (chunk byte offset take).toNat < 1 <<< take := by
      have bound := bitsValue_lt (((lowBits byte.toNat 8).drop offset).take take)
      rw [List.length_take, List.length_drop, length_lowBits, Nat.min_eq_left (by omega)] at bound
      rwa [chunked]
    have behind := toNat_behind small (by omega) (by omega) short
    have length : ((Bytes.bits bytes).take (n - take)).length = n - take := by
      rw [List.length_take, Bytes.length_bits]
      omega
    have split : value.toNat <<< n = value.toNat <<< take <<< (n - take) := by
      rw [← Nat.shiftLeft_add, Nat.add_sub_cancel' (by omega)]
    rw [toNat_gather bytes (behind ▸ shiftLeft_add_lt small short) (by omega) (by omega) (by omega), behind,
      List.drop_zero, bitsValue_join, length, ← chunked, split]
    simp only [Nat.shiftLeft_eq, Nat.add_mul, Nat.add_assoc]

/-- The next bits are gathered, however they lie in the bytes. -/
theorem gathered_eq {r : BitReader} {n : Nat} (hn : n ≤ 32) (enough : r.pos + n ≤ r.data.size * 8) :
    r.gathered n = bitsValue (r.rest.take n) := by
  obtain ⟨count, hcount⟩ : ∃ count, count = (r.pos + n + 7) / 8 - r.pos / 8 := ⟨_, rfl⟩
  have bytes : (r.data.extract (r.pos / 8) ((r.pos + n + 7) / 8)).toList =
      (r.data.toList.drop (r.pos / 8)).take count := by
    rw [Array.toList_extract, List.extract_eq_take_drop, hcount]
  have length : ((r.data.toList.drop (r.pos / 8)).take count).length = count := by
    rw [List.length_take, List.length_drop, Array.length_toList]
    omega
  have window : ((Bytes.bits ((r.data.toList.drop (r.pos / 8)).take count)).drop (r.pos % 8)).take n = r.rest.take n := by
    rw [← Bytes.take_bits, ← Bytes.drop_bits, List.drop_take, List.drop_drop, List.take_take, Nat.div_add_mod,
      Nat.min_eq_left (by omega), rest]
  have gathered : (gather 0 (r.pos % 8) n ((r.data.toList.drop (r.pos / 8)).take count)).toNat = _ :=
    toNat_gather _ (k := 0) (by decide) (by omega) (by omega) (by omega)
  have small : bitsValue (r.rest.take n) < 2 ^ 32 := by
    have bound := bitsValue_lt (r.rest.take n)
    rw [Nat.one_shiftLeft] at bound
    exact Nat.lt_of_lt_of_le bound (Nat.pow_le_pow_right (by decide) (Nat.le_trans (List.length_take_le _ _) hn))
  rw [window, UInt64.toNat_zero, Nat.zero_shiftLeft, Nat.zero_add] at gathered
  rw [BitReader.gathered, bytes, UInt64.toNat_toUInt32, gathered, Nat.mod_eq_of_lt small]

/-- A whole byte is the number of its bits. -/
theorem byte_eq {r : BitReader} (whole : r.pos % 8 = 0) (enough : r.pos + 8 ≤ r.data.size * 8) :
    (r.data.getD (r.pos / 8) 0).toNat = bitsValue (r.rest.take 8) := by
  have within : r.pos / 8 < r.data.toList.length := by rw [Array.length_toList]; omega
  have start : r.pos = 8 * (r.pos / 8) := by omega
  have front (b : UInt8) (s : Bytes) : (Bytes.bits (b :: s)).take 8 = lowBits b.toNat 8 := List.take_left' (length_lowBits _ _)
  have next : r.rest = Bytes.bits (r.data.toList.drop (r.pos / 8)) := by rw [rest, ← Bytes.drop_bits, ← start]
  rw [next, List.drop_eq_getElem_cons within, front, bitsValue_lowBits (UInt8.toNat_lt _), Array.getD_eq_getD_getElem?,
    ← Array.getElem?_toList, List.getElem?_eq_getElem within, Option.getD_some]

/-- **Reading gives the number that the next bits denote**, whole bytes taken as they are or not. -/
theorem read?_eq (r : BitReader) (n : Nat) : r.read? n =
    if n > 32 || r.hasLessThan n then none else some (bitsValue (r.rest.take n), { r with pos := r.pos + n }) := by
  unfold read?
  split
  case isTrue => rfl
  case isFalse possible =>
    simp only [hasLessThan, Bool.or_eq_true, decide_eq_true_eq, not_or, Nat.not_lt] at possible
    dsimp only
    split
    case isTrue byte =>
      obtain ⟨rfl, whole⟩ : n = 8 ∧ r.pos % 8 = 0 := by simpa using byte
      rw [byte_eq whole possible.2]
    case isFalse => rw [gathered_eq possible.1 possible.2]

/-- **A number is read as it was written.** -/
theorem read?_of_rest {r : BitReader} {n v : Nat} {rest : List Bool} (h0 : 0 < n) (hn : n ≤ 32)
    (hv : v < 1 <<< n) (h : r.rest = lowBits v n ++ rest) :
    ∃ r', r.read? n = some (v, r') ∧ r'.rest = rest := by
  have hl : (lowBits v n).length = n := length_lowBits v n
  have hs : r.pos + n ≤ r.data.size * 8 := by
    have := congrArg List.length h
    rw [BitReader.rest, List.length_drop, Bytes.length_bits, List.length_append, hl, Array.length_toList] at this
    omega
  refine ⟨{ r with pos := r.pos + n }, ?_, ?_⟩
  · have hlt : r.hasLessThan n = false := by
      rw [hasLessThan, decide_eq_false_iff_not]
      omega
    rw [read?_eq, hlt, h, List.take_left' hl, bitsValue_lowBits hv]
    simp [Nat.not_lt.mpr hn]
  · have := congrArg (List.drop n) h
    rw [List.drop_left' hl, BitReader.rest, List.drop_drop] at this
    exact this

end BitReader

end PdfContent
