import PdfContent.Filter.Basic
import PdfContent.Proofs.Number.Radix
/-!
# Base85 — decoding undoes encoding in base 85

Four bytes are a number that is written with five digits.  Of a last group of fewer bytes the number is filled up with
zeros, and only its first digits are written.  The decoder fills the digits up with the highest one, which never reaches
the bytes that are kept (`value_filledUp`), so every text of a byte string is read back, and a group of digits whose number
is too large for four bytes is an error (`base85_decoded`).
-/
namespace PdfContent.Ascii85

open Radix

/-! ## Groups -/

theorem bytes_of_shifts (n : Nat) : (digits 256 n 4).map Nat.toUInt8 =
    [(n >>> 24).toUInt8, (n >>> 16).toUInt8, (n >>> 8).toUInt8, n.toUInt8] := by
  have byte (n : Nat) : (n % 256).toUInt8 = n.toUInt8 := by
    rw [Nat.toUInt8_eq, Nat.toUInt8_eq]
    exact UInt8.ofNat_mod_size
  have shift₁ : n >>> 8 = n / 256 := Nat.shiftRight_eq_div_pow n 8
  have shift₂ : n >>> 16 = n / 256 / 256 := by rw [Nat.shiftRight_eq_div_pow, Nat.div_div_eq_div_mul]
  have shift₃ : n >>> 24 = n / 256 / 256 / 256 := by
    rw [Nat.shiftRight_eq_div_pow, Nat.div_div_eq_div_mul, Nat.div_div_eq_div_mul]
  rw [shift₁, shift₂, shift₃]
  simp only [digits, List.nil_append, List.cons_append, List.map_cons, List.map_nil, byte]

/-- A group is read as the four digits of its number in base 256. -/
theorem word?_eq (group : List Nat) : word? group =
    if value 85 group < UInt32.size then some ((digits 256 (value 85 group) 4).map Nat.toUInt8) else none := by
  rw [bytes_of_shifts]
  rfl

/-- Filling up with the highest digits stays below the next multiple of a greater number. -/
theorem filled_div {n q p w : Nat} (le : q ≤ p) (positive : 0 < q) (h : w + 1 = (n * p / q + 1) * q) : w / p = n := by
  have above : n * p < (n * p / q + 1) * q := (Nat.div_lt_iff_lt_mul positive).mp (Nat.lt_succ_self _)
  have below : n * p / q * q ≤ n * p := Nat.div_mul_le_self _ _
  rw [Nat.succ_mul] at above h
  refine Nat.div_eq_of_lt_le (by omega) ?_
  rw [Nat.succ_mul]
  omega

theorem bigEndian_zeros (s : Bytes) (k : Nat) :
    Bytes.bigEndian (s ++ List.replicate k 0) = Bytes.bigEndian s * Nat.pow 256 k := by
  have zero : Bytes.bigEndian (List.replicate k 0) = 0 := by
    induction k with
    | zero => rfl
    | succ k ih => rw [List.replicate_succ', Bytes.bigEndian_append, ih, Nat.zero_mul]; rfl
  rw [Bytes.bigEndian_append, zero, List.length_replicate, Nat.add_zero]

/-- The digits of the first bytes of a word: `k` bytes are zeros, and as many digits are dropped and filled up again. -/
def filledUp (s : Bytes) (k : Nat) : List Nat :=
  (digits 85 (Bytes.bigEndian (s ++ List.replicate k 0)) 5).take (s.length + 1) ++ List.replicate k 84

/-- **What is filled up never reaches the bytes that are kept.** -/
theorem value_filledUp {s : Bytes} {k : Nat} (length : s.length + k = 4) :
    value 85 (filledUp s k) / Nat.pow 256 k = Bytes.bigEndian s ∧ value 85 (filledUp s k) < UInt32.size := by
  have word : Nat.pow 256 s.length * Nat.pow 256 k = UInt32.size :=
    calc Nat.pow 256 s.length * Nat.pow 256 k = Nat.pow 256 (s.length + k) := (Nat.pow_add 256 _ _).symm
      _ = UInt32.size := by rw [length]
  have group : Nat.pow 85 (s.length + 1) * Nat.pow 85 k = Nat.pow 85 5 :=
    calc Nat.pow 85 (s.length + 1) * Nat.pow 85 k = Nat.pow 85 (s.length + 1 + k) := (Nat.pow_add 85 _ _).symm
      _ = Nat.pow 85 5 := by rw [Nat.add_right_comm, length]
  have positive : 0 < Nat.pow 85 k := Nat.pow_pos (by decide)
  have small : Bytes.bigEndian s * Nat.pow 256 k < UInt32.size :=
    word ▸ Nat.mul_lt_mul_of_pos_right (Bytes.bigEndian_lt s) (Nat.pow_pos (by decide))
  have five : 5 = s.length + 1 + k := by omega
  have quotient : value 85 (digits 85 (Bytes.bigEndian s * Nat.pow 256 k / Nat.pow 85 k) (s.length + 1)) =
      Bytes.bigEndian s * Nat.pow 256 k / Nat.pow 85 k :=
    (value_digits _ _).trans
      (Nat.mod_eq_of_lt ((Nat.div_lt_iff_lt_mul positive).mpr (group ▸ Nat.lt_trans small (by decide))))
  have filled : value 85 (filledUp s k) + 1 = (Bytes.bigEndian s * Nat.pow 256 k / Nat.pow 85 k + 1) * Nat.pow 85 k := by
    rw [filledUp, bigEndian_zeros, five, take_digits, value_filled (by decide), quotient]
  have first := filled_div (Nat.pow_le_pow_left (by decide) k) positive filled
  exact ⟨first, word ▸ (Nat.div_lt_iff_lt_mul (Nat.pow_pos (by decide))).mp (first ▸ Bytes.bigEndian_lt s)⟩

theorem word?_filledUp {s : Bytes} {k : Nat} (length : s.length + k = 4) :
    ∃ rest : Bytes, rest.length = k ∧ word? (filledUp s k) = some (s ++ rest) := by
  obtain ⟨first, fits⟩ := value_filledUp length
  have whole := List.take_append_drop s.length ((digits 256 (value 85 (filledUp s k)) 4).map Nat.toUInt8)
  rw [← List.map_take, ← length, take_digits, first, Bytes.digits_bigEndian rfl] at whole
  refine ⟨_, ?_, by rw [word?_eq, if_pos fits, ← length, whole]⟩
  rw [List.length_drop, List.length_map, length_digits]
  omega

/-- Four bytes have a number with five digits, which are read as these bytes. -/
theorem word?_digits {w : Bytes} (length : w.length = 4) : word? (digits 85 (Bytes.bigEndian w) 5) = some w := by
  obtain ⟨rest, none, read⟩ := word?_filledUp (k := 0) length
  rwa [filledUp, List.replicate_zero, List.replicate_zero, List.append_nil, List.append_nil,
    List.take_of_length_le (Nat.le_of_eq ((length_digits 85 _ 5).trans (congrArg (· + 1) length.symm))),
    List.eq_nil_of_length_eq_zero none, List.append_nil] at read

/-- The digits that are written for fewer bytes are read as these. -/
theorem lastWord?_digits {w : Bytes} (nonempty : 1 ≤ w.length) (short : w.length ≤ 3) :
    lastWord? ((digits 85 (Bytes.bigEndian (w ++ List.replicate (4 - w.length) 0)) 5).take (w.length + 1)) = some w := by
  obtain ⟨rest, -, read⟩ := word?_filledUp (s := w) (k := 4 - w.length) (by omega)
  have length : ((digits 85 (Bytes.bigEndian (w ++ List.replicate (4 - w.length) 0)) 5).take (w.length + 1)).length =
      w.length + 1 := by
    rw [List.length_take, length_digits]
    omega
  have missing : 5 - (w.length + 1) = 4 - w.length := by omega
  rw [lastWord?, length, if_neg (by omega), missing, Nat.add_sub_cancel, ← filledUp, read, Option.map_some,
    List.take_left]

/-! ## Texts -/

def characters (ds : List Nat) : Bytes := ds.map fun d => (d + 0x21).toUInt8

/-- The texts of a byte string, without white space: four bytes are five digits, or a letter if all of them are zero,
and of the last bytes of a string the number with zeros behind them is written with one digit more than bytes. -/
inductive Encodes : Bytes → Bytes → Prop where
  | nil : Encodes [] []
  | zeros {s t} : Encodes s t → Encodes ([0, 0, 0, 0] ++ s) (0x7a :: t)
  | word {w s t} : w.length = 4 → Encodes s t → Encodes (w ++ s) (characters (digits 85 (Bytes.bigEndian w) 5) ++ t)
  | last {w} : 1 ≤ w.length → w.length ≤ 3 →
      Encodes w (characters
        ((digits 85 (Bytes.bigEndian (w ++ List.replicate (4 - w.length) 0)) 5).take (w.length + 1)))

/-- Complete groups: five digits each, or the letter for zeros. -/
inductive Groups : Bytes → Prop where
  | nil : Groups []
  | zeros {t} : Groups t → Groups (0x7a :: t)
  | digits {ds t} : ds.length = 5 → (∀ d ∈ ds, d < 85) → Groups t → Groups (characters ds ++ t)

def visible (text : Bytes) : Bytes := text.filter fun b => !Byte.isBlank b

/-- What may stand behind a text: nothing, or the mark of its end and anything behind it. -/
def Ends (tail : Bytes) : Prop := tail = [] ∨ ∃ rest, tail = 0x7e :: rest

variable {group ds : List Nat} {s t text tail : Bytes}

theorem blank_facts {b : UInt8} (h : Byte.isBlank b = true) :
    b ≠ 0x7e ∧ b ≠ 0x7a ∧ ¬(0x21 ≤ b ∧ b ≤ 0x75) := by
  simp only [Byte.isBlank, Bool.or_eq_true, beq_iff_eq] at h
  obtain ((((rfl | rfl) | rfl) | rfl) | rfl) | rfl := h <;> decide

/-- White space does not matter. -/
theorem decodeFrom_visible (group : List Nat) (text tail : Bytes) :
    decodeFrom group (text ++ tail) = decodeFrom group (visible text ++ tail) := by
  induction text generalizing group with
  | nil => rfl
  | cons b text ih =>
    rw [visible, List.filter_cons, List.cons_append]
    by_cases blank : Byte.isBlank b = true
    · obtain ⟨noEnd, noZeros, noDigit⟩ := blank_facts blank
      have skipped : decodeFrom group (b :: (text ++ tail)) = decodeFrom group (text ++ tail) := by
        simp [decodeFrom, noEnd, noZeros, noDigit, blank]
      rw [skipped, ih, blank]
      rfl
    · rw [if_pos (by simpa using blank), List.cons_append, decodeFrom, decodeFrom]
      simp only [ih, visible]

theorem decodeFrom_ends (h : Ends tail) (group : List Nat) : decodeFrom group tail = lastWord? group := by
  rcases h with rfl | ⟨rest, rfl⟩ <;> rfl

theorem decodeFrom_zeros (t : Bytes) : decodeFrom [] (0x7a :: t) = (decodeFrom [] t).map ([0, 0, 0, 0] ++ ·) := rfl

theorem character_facts {d : Nat} (h : d < 85) :
    (d + 0x21).toUInt8 ≠ 0x7e ∧ (d + 0x21).toUInt8 ≠ 0x7a ∧ Byte.isBlank (d + 0x21).toUInt8 = false ∧
      (0x21 ≤ (d + 0x21).toUInt8 ∧ (d + 0x21).toUInt8 ≤ 0x75) ∧ (d + 0x21).toUInt8.toNat - 0x21 = d := by
  have every : ∀ d : Fin 85, (d.val + 0x21).toUInt8 ≠ 0x7e ∧ (d.val + 0x21).toUInt8 ≠ 0x7a ∧
      Byte.isBlank (d.val + 0x21).toUInt8 = false ∧
      (0x21 ≤ (d.val + 0x21).toUInt8 ∧ (d.val + 0x21).toUInt8 ≤ 0x75) ∧ (d.val + 0x21).toUInt8.toNat - 0x21 = d.val := by
    decide
  exact every ⟨d, h⟩

/-- A digit goes to its group, and the fifth completes it. -/
theorem decodeFrom_digit {d : Nat} (h : d < 85) (group : List Nat) (t : Bytes) :
    decodeFrom group ((d + 0x21).toUInt8 :: t) =
      if group.length = 4 then (word? (group ++ [d])).bind fun w => (decodeFrom [] t).map (w ++ ·)
      else decodeFrom (group ++ [d]) t := by
  obtain ⟨noEnd, noZeros, -, digit, back⟩ := character_facts h
  generalize (d + 0x21).toUInt8 = b at *
  simp [decodeFrom, noEnd, noZeros, digit, back]

theorem decodeFrom_characters (t : Bytes) : ∀ {ds group : List Nat}, (∀ d ∈ ds, d < 85) → group.length + ds.length ≤ 4 →
    decodeFrom group (characters ds ++ t) = decodeFrom (group ++ ds) t
  | [], group, _, _ => by rw [List.append_nil]; rfl
  | d :: ds, group, small, room => by
    obtain ⟨first, rest⟩ := List.forall_mem_cons.mp small
    rw [List.length_cons] at room
    have next : characters (d :: ds) ++ t = (d + 0x21).toUInt8 :: (characters ds ++ t) := rfl
    rw [next, decodeFrom_digit first, if_neg (by omega),
      decodeFrom_characters t rest (by rw [List.length_append, List.length_singleton]; omega), List.append_assoc]
    rfl

/-- A complete group is read at once. -/
theorem decodeFrom_group (length : ds.length = 5) (small : ∀ d ∈ ds, d < 85) (t : Bytes) :
    decodeFrom [] (characters ds ++ t) = (word? ds).bind fun w => (decodeFrom [] t).map (w ++ ·) := by
  obtain ⟨front, d, rfl⟩ := (List.eq_nil_or_concat ds).resolve_left (by rintro rfl; cases length)
  rw [List.concat_eq_append] at length small ⊢
  obtain ⟨first, last⟩ := List.forall_mem_append.mp small
  have four : front.length = 4 := by simpa using length
  have cut : characters (front ++ [d]) ++ t = characters front ++ ((d + 0x21).toUInt8 :: t) := by
    rw [characters, List.map_append, List.append_assoc]
    rfl
  rw [cut, decodeFrom_characters _ first (by rw [four]; decide), List.nil_append, decodeFrom_digit (last d (.head _)),
    if_pos four]

/-- **A text is read as the bytes that it encodes.** -/
theorem decodeFrom_encoded (h : Encodes s t) (ends : Ends tail) : decodeFrom [] (t ++ tail) = some s := by
  induction h with
  | nil => exact decodeFrom_ends ends []
  | zeros _ ih => rw [List.cons_append, decodeFrom_zeros, ih, Option.map_some]
  | @word w s t length _ ih =>
    have five := length_digits 85 (Bytes.bigEndian w) 5
    rw [List.append_assoc, decodeFrom_group five (digits_lt (by decide) _ _), word?_digits length, ih]
    rfl
  | @last w nonempty short =>
    have small : ∀ d ∈ digits 85 (Bytes.bigEndian (w ++ List.replicate (4 - w.length) 0)) 5, d < 85 :=
      digits_lt (by decide) _ _
    rw [decodeFrom_characters _ (fun d hd => small d (List.mem_of_mem_take hd)), decodeFrom_ends ends, List.nil_append,
      lastWord?_digits nonempty short]
    have := List.length_take_le (w.length + 1) (digits 85 (Bytes.bigEndian (w ++ List.replicate (4 - w.length) 0)) 5)
    rw [List.length_nil]
    omega

/-- **A group whose number is too large is an error**, whatever stands behind it. -/
theorem decodeFrom_overflow (before : Groups t) (length : ds.length = 5) (small : ∀ d ∈ ds, d < 85)
    (large : UInt32.size ≤ value 85 ds) (rest : Bytes) : decodeFrom [] (t ++ characters ds ++ rest) = none := by
  induction before with
  | nil =>
    rw [List.nil_append, decodeFrom_group length small, word?_eq, if_neg (Nat.not_lt.mpr large)]
    rfl
  | zeros _ ih => rw [List.cons_append, List.cons_append, decodeFrom_zeros, ih, Option.map_none]
  | digits length' small' _ ih =>
    rw [List.append_assoc, List.append_assoc, decodeFrom_group length' small', ← List.append_assoc, ih]
    exact Option.bind_fun_none _

/-! ## Marks -/

def Begins (mark : Bytes) : Prop := mark = [] ∨ mark = [0x3c, 0x7e]

theorem decode_eq (h : ∀ r, s ≠ 0x3c :: 0x7e :: r) : decode s = decodeFrom [] s := by
  unfold decode
  split
  case h_1 r => exact absurd rfl (h r)
  case h_2 => rfl

/-- A mark in front does not matter, and no text is taken for a mark. -/
theorem decode_begins {mark : Bytes} (begins : Begins mark) (noEnd : 0x7e ∉ text)
    (clear : 2 ≤ text.length ∨ text ≠ [0x3c] ∧ Ends tail) :
    decode (mark ++ text ++ tail) = decodeFrom [] (visible text ++ tail) := by
  rw [← decodeFrom_visible]
  rcases begins with rfl | rfl
  · refine decode_eq fun r same => ?_
    rw [List.nil_append] at same
    match text, clear with
    | [], .inr ⟨_, ends⟩ => rcases ends with rfl | ⟨rest, rfl⟩ <;> cases same
    | [b], .inr ⟨other, _⟩ => exact other (congrArg (fun b => [b]) (List.cons.inj same).1)
    | b :: c :: text, _ =>
      obtain rfl : c = 0x7e := (List.cons.inj (List.cons.inj same).2).1
      exact noEnd (.tail _ (.head _))
  · rfl

theorem noEnd_characters (small : ∀ d ∈ ds, d < 85) : 0x7e ∉ characters ds := by
  intro h
  obtain ⟨d, hd, same⟩ := List.mem_map.mp h
  exact (character_facts (small d hd)).1 same

theorem mem_visible {b : UInt8} (h : b ∈ text) (hb : Byte.isBlank b = false) : b ∈ visible text :=
  List.mem_filter.mpr ⟨h, by rw [hb]; rfl⟩

namespace Encodes

theorem noEnd (h : Encodes s t) : 0x7e ∉ t := by
  induction h with
  | nil => exact nofun
  | zeros _ ih => simpa using ih
  | word _ _ ih =>
    exact fun h => (List.mem_append.mp h).elim (noEnd_characters (digits_lt (by decide) _ _)) ih
  | last _ _ => exact noEnd_characters fun d hd => digits_lt (by decide) _ _ d (List.mem_of_mem_take hd)

/-- No text is a digit alone. -/
theorem ne_single (h : Encodes s t) : t ≠ [0x3c] := by
  intro single
  have length := congrArg List.length single
  cases h with
  | nil => cases single
  | zeros => cases single
  | word => simp [characters, length_digits] at length; omega
  | last nonempty short => simp [characters, length_digits] at length; omega

/-- Every byte string has a text. -/
theorem exists_text : ∀ s : Bytes, ∃ t, Encodes s t
  | [] => ⟨[], .nil⟩
  | [a] => ⟨_, .last (w := [a]) (by simp) (by simp)⟩
  | [a, b] => ⟨_, .last (w := [a, b]) (by simp) (by simp)⟩
  | [a, b, c] => ⟨_, .last (w := [a, b, c]) (by simp) (by simp)⟩
  | a :: b :: c :: d :: s =>
    have ⟨_, h⟩ := exists_text s
    ⟨_, .word (w := [a, b, c, d]) rfl h⟩

end Encodes

theorem Groups.noEnd (h : Groups t) : 0x7e ∉ t := by
  induction h with
  | nil => exact nofun
  | zeros _ ih => simpa using ih
  | digits _ small _ ih => exact fun h => (List.mem_append.mp h).elim (noEnd_characters small) ih

/-- **Decoding undoes encoding**: every byte string has texts, and each is read back, with white space anywhere, with the
marks or without them.  A group of five digits whose number is too large for four bytes makes decoding fail. -/
theorem base85_decoded (st : Store) (params : Option Dict) :
    (∀ s, ∃ t, Encodes s t) ∧
    (∀ s text mark tail, Encodes s (visible text) → Begins mark → Ends tail →
      Filter.ascii85.apply st params (mark ++ text ++ tail) = .ok (some s)) ∧
    ∀ before ds text mark rest, Groups before → ds.length = 5 → (∀ d ∈ ds, d < 85) → UInt32.size ≤ value 85 ds →
      visible text = before ++ characters ds → Begins mark →
      Filter.ascii85.apply st params (mark ++ text ++ rest) = .ok none := by
  have shown {text : Bytes} (h : 0x7e ∉ visible text) : 0x7e ∉ text := fun mem => h (mem_visible mem rfl)
  refine ⟨Encodes.exists_text, fun s text mark tail encodes begins ends => ?_,
    fun before ds text mark rest groups length small large spelled begins => ?_⟩
  · have clear : text ≠ [0x3c] := by
      rintro rfl
      exact encodes.ne_single rfl
    exact congrArg Except.ok
      ((decode_begins begins (shown encodes.noEnd) (.inr ⟨clear, ends⟩)).trans (decodeFrom_encoded encodes ends))
  · have noEnd : 0x7e ∉ visible text := by
      rw [spelled]
      exact fun h => (List.mem_append.mp h).elim groups.noEnd (noEnd_characters small)
    have long : 2 ≤ text.length := by
      have visible_le : (visible text).length ≤ text.length := List.length_filter_le _ _
      rw [spelled, List.length_append, characters, List.length_map, length] at visible_le
      omega
    refine congrArg Except.ok ((decode_begins begins (shown noEnd) (.inl long)).trans ?_)
    rw [spelled]
    exact decodeFrom_overflow groups length small large rest

set_option maxRecDepth 2048 in
/-- Zeros as a letter, five digits, a last byte with two, white space inside of groups and both marks; and a number that
is one too large behind a good group. -/
theorem marked_text_decoded :
    let text := Bytes.ofText "z 87c\nUR D Z"
    let large := Bytes.ofText "z s8W-\""
    Encodes (Bytes.ofText "\x00\x00\x00\x00Hello") (visible text) ∧
      Filter.ascii85.apply .empty none ([0x3c, 0x7e] ++ text ++ [0x7e, 0x3e]) =
        .ok (some (Bytes.ofText "\x00\x00\x00\x00Hello")) ∧
      visible large = [0x7a] ++ characters [82, 23, 54, 12, 1] ∧ value 85 [82, 23, 54, 12, 1] = UInt32.size ∧
      Filter.ascii85.apply .empty none ([] ++ large ++ [0x7a]) = .ok none := by
  intro text large
  have encodes : Encodes (Bytes.ofText "\x00\x00\x00\x00Hello") (visible text) :=
    .zeros (.word (w := Bytes.ofText "Hell") rfl (.last (w := Bytes.ofText "o") (by decide) (by decide)))
  have spelled : visible large = [0x7a] ++ characters [82, 23, 54, 12, 1] := by decide
  have same : value 85 [82, 23, 54, 12, 1] = UInt32.size := by decide
  obtain ⟨-, decoded, failed⟩ := base85_decoded .empty none
  exact ⟨encodes, decoded _ text _ _ encodes (.inr rfl) (.inr ⟨[0x3e], rfl⟩), spelled, same,
    failed [0x7a] _ large [] [0x7a] (.zeros .nil) rfl (by decide) (Nat.le_of_eq same.symm) spelled (.inl rfl)⟩

end PdfContent.Ascii85
