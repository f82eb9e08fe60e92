/-!
# Word — arithmetic of machine words, and what ends the program

Numbers that are kept in words are computed with here.  A sum or product that does not fit is held at the bounds of its
word where that is asked for; anywhere else it is a panic, as is a list without the element asked for.
-/
namespace PdfContent

/-- What ends the program on the spot. -/
inductive Panic where
  /-- A number that does not fit into its word. -/
  | overflow
  /-- An element beyond the end of a list. -/
  | noElement
  /-- Bounds that are not in order, for a number that is to lie between them. -/
  | unorderedBounds
deriving DecidableEq

namespace Panic

def message : Panic → String
  | overflow => "a number does not fit into its word"
  | noElement => "a list has no such element"
  | unorderedBounds => "the bounds of a number are not in order"

end Panic

/-- What is computed, unless the program ends before it is. -/
abbrev Checked (β : Type) := Except Panic β

/-- The value that a computation gives, if it gives one.  Its error does not matter, unless it is a panic. -/
def tolerate {ε β : Type} (panic? : ε → Option Panic) : Except ε β → Checked (Option β)
  | .ok v => .ok (some v)
  | .error e =>
    match panic? e with
    | some p => .error p
    | none => .ok none

def maxInt64 : Int := 9223372036854775807

namespace Word

/-- A number of words with so many values. -/
def fit (size n : Nat) : Checked Nat := if n < size then .ok n else .error .overflow

def add32 (a b : Nat) : Checked Nat := fit UInt32.size (a + b)

def mul64 (a b : Nat) : Checked Nat := fit UInt64.size (a * b)

/-- The nearest value of a signed 64-bit word. -/
def saturate (v : Int) : Int64 := .ofInt (max (-maxInt64 - 1) (min v maxInt64))

def saturatingAdd (a b : Int64) : Int64 := saturate (a.toInt + b.toInt)

def saturatingMul (a b : Int64) : Int64 := saturate (a.toInt * b.toInt)

theorem toInt_saturate (v : Int) : (saturate v).toInt = max (-maxInt64 - 1) (min v maxInt64) := by
  unfold saturate maxInt64
  exact Int64.toInt_ofInt_of_le (by omega) (by omega)

theorem fit_eq_ok_iff {size n k : Nat} : fit size n = .ok k ↔ n < size ∧ k = n := by
  unfold fit
  split
  · simp [*, eq_comm]
  · simp [*]

end Word

end PdfContent
