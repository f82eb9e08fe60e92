/-!
# Bytes — byte strings and the character classes of the file format

A byte string is a list, so a reader is a function from a string to what it read and what is left of it.  The
classes are those of the token grammar: every byte is white space, a delimiter or regular, and exactly one of these.
-/
namespace PdfContent

abbrev Bytes := List UInt8

namespace Byte

/-- The six white-space bytes: NUL, tab, line feed, form feed, carriage return and space. -/
def isBlank (b : UInt8) : Bool :=
  b == 0x00 || b == 0x09 || b == 0x0a || b == 0x0c || b == 0x0d || b == 0x20

/-- The ten delimiters `( ) < > [ ] { } / %`, which end a token without being white space. -/
def isDelimiter (b : UInt8) : Bool :=
  b == 0x28 || b == 0x29 || b == 0x3c || b == 0x3e || b == 0x5b || b == 0x5d || b == 0x7b || b == 0x7d || b == 0x2f
    || b == 0x25

def isRegular (b : UInt8) : Bool := !isBlank b && !isDelimiter b

def isEol (b : UInt8) : Bool := b == 0x0a || b == 0x0d

def isDigit (b : UInt8) : Bool := 0x30 ≤ b && b ≤ 0x39

def isGraphic (b : UInt8) : Bool := 0x21 ≤ b && b ≤ 0x7e

def hexValue? (b : UInt8) : Option UInt8 :=
  if isDigit b then some (b - 0x30)
  else if 0x41 ≤ b && b ≤ 0x46 then some (b - 0x37)
  else if 0x61 ≤ b && b ≤ 0x66 then some (b - 0x57)
  else none

end Byte

namespace Bytes

def ofText (s : String) : Bytes := s.toList.map fun c => c.toNat.toUInt8

/-- The bytes of a literal, whose characters need not be decoded. -/
theorem ofText_ofList (cs : List Char) : ofText (String.ofList cs) = cs.map fun c => c.toNat.toUInt8 := by
  rw [ofText, String.toList_ofList]

def bigEndian (s : Bytes) : Nat := s.foldl (fun n b => n * 256 + b.toNat) 0

/-- Cuts at the first occurrence of `needle`: what stands before it, and the rest from its first byte on. -/
def breakOn? (needle : Bytes) : Bytes → Option (Bytes × Bytes)
  | [] => if needle.isPrefixOf [] then some ([], []) else none
  | b :: r =>
    if needle.isPrefixOf (b :: r) then some ([], b :: r)
    else (breakOn? needle r).map fun (before, found) => (b :: before, found)

/-- Cuts into groups of `n`; a last group that is shorter is kept. -/
def groups (n : Nat) (xs : List α) : List (List α) :=
  go xs.length xs
where
  go : Nat → List α → List (List α)
    | 0, _ => []
    | fuel + 1, xs => if xs.isEmpty then [] else xs.take n :: go fuel (xs.drop n)

def withDigits (n : Nat) (digits : Bytes) : Nat := digits.foldl (fun n d => n * 10 + (d.toNat - 0x30)) n

/-- The number that the decimal digits of a string denote.  Groups of digits keep the factors small for long strings. -/
def decimal (digits : Bytes) : Nat :=
  (groups 18 digits).foldl (fun n g => n * Nat.pow 10 g.length + withDigits 0 g) 0

theorem flatten_groups {n : Nat} (h : 0 < n) (xs : List α) : (groups n xs).flatten = xs := by
  unfold groups
  suffices ∀ fuel (xs : List α), xs.length ≤ fuel → (groups.go n fuel xs).flatten = xs from this _ _ (Nat.le_refl _)
  intro fuel
  induction fuel with
  | zero =>
    intro xs hl
    cases xs with
    | nil => rfl
    | cons => simp at hl
  | succ fuel ih =>
    intro xs hl
    cases xs with
    | nil => rfl
    | cons x r =>
      have hd : ((x :: r).drop n).length ≤ fuel := by
        simp only [List.length_drop, List.length_cons] at hl ⊢
        omega
      simp only [groups.go, List.isEmpty_cons, Bool.false_eq_true, ↓reduceIte, List.flatten_cons, ih _ hd,
        List.take_append_drop]

theorem withDigits_eq (n : Nat) (digits : Bytes) :
    withDigits n digits = n * Nat.pow 10 digits.length + withDigits 0 digits := by
  induction digits generalizing n with
  | nil => simp [withDigits]
  | cons d r ih =>
    have step (m : Nat) : withDigits m (d :: r) = withDigits (m * 10 + (d.toNat - 0x30)) r := rfl
    have hp : Nat.pow 10 (r.length + 1) = Nat.pow 10 r.length * 10 := rfl
    rw [step, step, ih, ih (0 * 10 + _), List.length_cons, hp, Nat.add_mul, Nat.mul_assoc, Nat.mul_comm 10]
    simp [Nat.add_assoc]

/-- Each digit counts ten times as much as the one after it. -/
theorem decimal_eq (digits : Bytes) : decimal digits = withDigits 0 digits := by
  have h (gs : List Bytes) (n : Nat) :
      gs.foldl (fun n g => n * Nat.pow 10 g.length + withDigits 0 g) n = withDigits n gs.flatten := by
    induction gs generalizing n with
    | nil => rfl
    | cons g gs ih =>
      rw [List.foldl_cons, ← withDigits_eq, ih, List.flatten_cons, withDigits, withDigits, withDigits,
        List.foldl_append]
  rw [decimal, h, flatten_groups (by decide)]

/-- Cuts into groups of `n`; a last group that is shorter is dropped. -/
def wholeGroups (n : Nat) (xs : List α) : List (List α) :=
  (groups n xs).filter fun g => g.length == n

/-- The pairs of neighbors at even places; a last element without a partner is dropped. -/
def pairs : List α → List (α × α)
  | a :: b :: r => (a, b) :: pairs r
  | _ => []

/-- The triples of neighbors; up to two last elements are dropped. -/
def triples : List α → List (α × α × α)
  | a :: b :: c :: r => (a, b, c) :: triples r
  | _ => []

theorem pairs_flatMap {β : Type} (f g : β → α) : ∀ (xs : List β),
    pairs (xs.flatMap fun x => [f x, g x]) = xs.map fun x => (f x, g x)
  | [] => rfl
  | x :: xs => congrArg ((f x, g x) :: ·) (pairs_flatMap f g xs)

theorem triples_flatMap {β : Type} (f g h : β → α) : ∀ (xs : List β),
    triples (xs.flatMap fun x => [f x, g x, h x]) = xs.map fun x => (f x, g x, h x)
  | [] => rfl
  | x :: xs => congrArg ((f x, g x, h x) :: ·) (triples_flatMap f g h xs)

end Bytes

end PdfContent
