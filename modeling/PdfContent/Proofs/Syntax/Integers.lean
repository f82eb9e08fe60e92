import Mathlib.Algebra.Ring.Parity
import Mathlib.Data.List.Basic
import Mathlib.Data.Nat.Digits.Defs
import PdfContent.Proofs.Syntax.Spelling
/-!
# Integers — integer tokens between the bounds of a word

However many signs and digits a token has, it is read as the number that they denote in base ten, held between the
bounds of a signed 64-bit word, and the decimal text of an integer is read back (`integer_held`).  The exception is the
least value of the word: the digits are held before the minus signs count, so this value and all below it are read as
the value after it (`least_integer_missed`).
-/
namespace PdfContent.Literal

variable {signs digits : Bytes}

def magnitude (digits : Bytes) : Nat := Nat.ofDigits 10 (digits.reverse.map fun d => d.toNat - 0x30)

/-- The number that digits denote behind signs, of which the minus signs count. -/
def signedValue (signs digits : Bytes) : Int :=
  if Odd (signs.count 0x2d) then -(magnitude digits : Int) else magnitude digits

def minInt64 : Int := -maxInt64 - 1

/-- The value of a signed 64-bit word that is closest to a number. -/
def clampInt64 (v : Int) : Int := max minInt64 (min maxInt64 v)

/-- The reader goes through the digits from the first one on. -/
theorem withDigits_eq_magnitude (digits : Bytes) : Bytes.withDigits 0 digits = magnitude digits := by
  unfold magnitude Bytes.withDigits
  rw [Nat.ofDigits_eq_foldr, List.foldr_map, List.foldr_reverse]
  simp only [Nat.cast_id, Nat.add_comm, Nat.mul_comm]

/-! ## Decimal text -/

/-- The byte of a character that is a digit is a digit, and counts as much. -/
theorem digit_byte {c : Char} (h : c.isDigit = true) :
    Byte.isDigit c.toNat.toUInt8 = true ∧ c.toNat.toUInt8.toNat = c.toNat := by
  have bounds : 0x30 ≤ c.toNat ∧ c.toNat ≤ 0x39 := by
    simpa [Char.isDigit, UInt32.le_iff_toNat_le] using h
  have byte : c.toNat.toUInt8.toNat = c.toNat := Nat.mod_eq_of_lt (by omega)
  refine ⟨?_, byte⟩
  simp only [Byte.isDigit, Bool.and_eq_true, decide_eq_true_eq, UInt8.le_iff_toNat_le, byte]
  exact bounds

/-- The decimal text of a number consists of digits, which denote it. -/
theorem text_digits (n : Nat) : Bytes.ofText n.repr ≠ [] ∧
    (∀ d ∈ Bytes.ofText n.repr, Byte.isDigit d = true) ∧ Bytes.withDigits 0 (Bytes.ofText n.repr) = n := by
  rw [Bytes.ofText, Nat.toList_repr]
  have decimal (c : Char) (hc : c ∈ Nat.toDigits 10 n) : c.isDigit = true :=
    Nat.isDigit_of_mem_toDigits (by decide) (by decide) hc
  refine ⟨by simp, ?_, ?_⟩
  · rw [List.forall_mem_map]
    exact fun c hc => (digit_byte (decimal c hc)).1
  · calc Bytes.withDigits 0 ((Nat.toDigits 10 n).map fun c => c.toNat.toUInt8)
        = (Nat.toDigits 10 n).foldl (fun v c => v * 10 + (c.toNat.toUInt8.toNat - 0x30)) 0 := List.foldl_map
      _ = Nat.ofDigitChars 10 (Nat.toDigits 10 n) 0 := by
        refine List.foldl_ext _ _ 0 fun v c hc => ?_
        rw [(digit_byte (decimal c hc)).2, Nat.mul_comm]
        rfl
      _ = n := Nat.ofDigitChars_toDigits (by decide) (by decide)

/-- The decimal text of an integer is a way to write it. -/
theorem integerWord_text (i : Int) : IntegerWord i (Bytes.ofText (Number.int i).text) := by
  cases i with
  | ofNat n =>
    obtain ⟨nonempty, decimal, value⟩ := text_digits n
    have word := IntegerWord.plain nonempty decimal
    rwa [value] at word
  | negSucc n =>
    obtain ⟨nonempty, decimal, value⟩ := text_digits (n + 1)
    have word := IntegerWord.negative nonempty decimal
    rw [value] at word
    have minus : Bytes.ofText (Number.int (.negSucc n)).text = 0x2d :: Bytes.ofText (n + 1).repr := by
      have text : (Number.int (.negSucc n)).text = "-" ++ (n + 1).repr := rfl
      rw [text, Bytes.ofText, String.toList_append, List.map_append]
      rfl
    rwa [minus]

/-! ## Reading -/

/-- The digits are held by the greatest value, and then the minus signs count. -/
theorem held_signed (signs digits : Bytes) :
    (if signs.count 0x2d % 2 == 1 then -min (magnitude digits : Int) maxInt64
      else min (magnitude digits : Int) maxInt64) =
      if signedValue signs digits ≤ minInt64 then minInt64 + 1 else clampInt64 (signedValue signs digits) := by
  have greatest : 0 < maxInt64 := by decide
  simp only [signedValue, clampInt64, minInt64, beq_iff_eq, ← Nat.odd_iff]
  by_cases odd : Odd (signs.count 0x2d)
  · simp only [if_pos odd]
    split <;> omega
  · simp only [if_neg odd]
    split <;> omega

/-- **Integer tokens are exact between the bounds of a word.**  Any signs with at least one digit behind them are read
as the value of the word that is closest to the number they denote, unless this is the least value, in the place of
which there is the next one.  The decimal text of every other value is read back. -/
theorem integer_held (signs digits : Bytes) (i : Int) :
    ((∀ b ∈ signs, isSign b = true) → digits ≠ [] → (∀ d ∈ digits, Byte.isDigit d = true) →
      number? (signs ++ digits) = some (.int
        (if signedValue signs digits ≤ minInt64 then minInt64 + 1 else clampInt64 (signedValue signs digits)))) ∧
    (minInt64 < i → i ≤ maxInt64 → number? (Bytes.ofText (Number.int i).text) = some (.int i)) := by
  constructor
  · intro hs hn hd
    rw [IntegerWord.number?_digits hn hd signs hs, withDigits_eq_magnitude, held_signed]
  · intro low high
    exact (integerWord_text i).number? ⟨by unfold minInt64 at low; omega, high⟩

/-- The text of the least value is read as the next value, whose own text is read back. -/
theorem least_integer_missed :
    let digits := Bytes.ofText "9223372036854775808"
    (∀ d ∈ digits, Byte.isDigit d = true) ∧ signedValue [0x2d] digits = minInt64 ∧
      number? (0x2d :: digits) = some (.int (minInt64 + 1)) ∧
      number? (Bytes.ofText (Number.int (minInt64 + 1)).text) = some (.int (minInt64 + 1)) := by
  intro digits
  have decimal : ∀ d ∈ digits, Byte.isDigit d = true := List.all_eq_true.mp rfl
  have value : signedValue [0x2d] digits = minInt64 := by decide
  have held := integer_held [0x2d] digits (minInt64 + 1)
  have read := held.1 (List.forall_mem_singleton.mpr rfl) nofun decimal
  rw [value, if_pos (Int.le_refl _)] at read
  exact ⟨decimal, value, read, held.2 (by decide) (by decide)⟩

end PdfContent.Literal
