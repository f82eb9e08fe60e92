import PdfContent.Syntax.Reading
/-!
# Content tokens — operands, commands and the data of inline images

A content stream is a row of operands, each row followed by the command that takes them.  The data of an inline image
is no token: it stands between the commands `ID` and `EI`, and only its surroundings tell where it ends.
-/
namespace PdfContent.Content

inductive Token where
  | operand (o : Object)
  | command (name : Bytes)

/-- The first item of the bytes and what follows it.  A closing bracket without an open one is skipped. -/
def next? (s : Bytes) : Option (Token × Bytes) :=
  match _h : PdfContent.Token.next? s with
  | none => none
  | some (t, rest) =>
    match t with
    | .keyword word =>
      match Reading.constant? word with
      | some o => some (.operand o, rest)
      | none => some (.command word, rest)
    | t =>
      match Reading.objectFrom false t rest with
      | (some o, rest) => some (.operand o, rest)
      | (none, _) => next? rest
termination_by s.length
decreasing_by exact PdfContent.Token.length_next?_lt _h

/-- An item takes at least one byte. -/
theorem length_next?_lt {s rest : Bytes} {t : Token} (h : next? s = some (t, rest)) : rest.length < s.length := by
  fun_induction next? s with
  | case1 => cases h
  | case2 s rest' word hw o ho =>
    cases h
    exact PdfContent.Token.length_next?_lt hw
  | case3 s rest' word hw ho =>
    cases h
    exact PdfContent.Token.length_next?_lt hw
  | case4 s rest' t' ht hk o rest'' hr =>
    cases h
    have h₁ := PdfContent.Token.length_next?_lt ht
    have h₂ := Reading.length_objectFrom_le false t' rest'
    rw [hr] at h₂
    exact Nat.lt_of_le_of_lt h₂ h₁
  | case5 s rest' t' _ _ _ _ ht ih => exact Nat.lt_trans (ih h) (PdfContent.Token.length_next?_lt ht)

/-- All items, each with what follows it; the data of inline images are items like any other bytes. -/
def tokens (s : Bytes) : List (Token × Bytes) :=
  match _h : next? s with
  | none => []
  | some (t, rest) => (t, rest) :: tokens rest
termination_by s.length
decreasing_by exact length_next?_lt _h

def endWord : Bytes := Bytes.ofText "EI"

def endsCommand (rest : Bytes) : Bool := !rest.head?.any Byte.isRegular

/-- Whether `rest` goes on like content and not like the data of an image, which can hold `EI` by accident. -/
def looksLikeContent (rest : Bytes) : Bool := (rest.take 32).all fun b => Byte.isGraphic b || Byte.isBlank b

/-- Searches the end of an inline image of which the bytes `before`, the last one first, have been read already. -/
def searchEnd (before : Bytes) : Bytes → Option (Bytes × Bytes)
  | [] => none
  | b :: r =>
    if endWord.isPrefixOf (b :: r) && before.head?.all Byte.isBlank && endsCommand (r.drop 1)
        && looksLikeContent (r.drop 1) then
      some ((before.drop 1).reverse, r.drop 1)
    else searchEnd (b :: before) r

def afterLength? (length : Nat) (s : Bytes) : Option Bytes :=
  if length ≤ s.length then
    let tail := (s.drop length).dropWhile Byte.isBlank
    if endWord.isPrefixOf tail && endsCommand (tail.drop 2) then some (tail.drop 2) else none
  else none

/-- The data up to the end that is found, and what follows it; without an end, nothing is left. -/
def dataToEnd (s : Bytes) : Option Bytes × Bytes :=
  match searchEnd [] s with
  | some (data, rest) => (some data, rest)
  | none => (none, [])

/-- The data of an inline image right after `ID`, and what follows `EI`.  One white-space byte is not part of the data.
The length from the dictionary is trusted only if `EI` follows there; else the data ends before the first `EI` that
looks like a command, and without one nothing is left.  A length that leads from the `position` of the bytes past the
last 64-bit position ends the search. -/
def imageData (position : Nat) (length : Option Nat) (s : Bytes) : Option Bytes × Bytes :=
  let data := if s.head?.any Byte.isBlank then s.drop 1 else s
  let start := position + (s.length - data.length)
  match length with
  | none => dataToEnd data
  | some n =>
    if start + n ≥ UInt64.size then (none, data)
    else
      match afterLength? n data with
      | some rest => (some (data.take n), rest)
      | none => dataToEnd data

theorem length_searchEnd_le {before s data rest : Bytes} (h : searchEnd before s = some (data, rest)) :
    rest.length ≤ s.length := by
  induction s generalizing before with
  | nil => cases h
  | cons b r ih =>
    simp only [searchEnd] at h
    split at h
    · cases h
      simp only [List.length_drop, List.length_cons]
      omega
    · have := ih h
      simp only [List.length_cons]
      omega

theorem length_afterLength?_le {n : Nat} {s rest : Bytes} (h : afterLength? n s = some rest) :
    rest.length ≤ s.length := by
  simp only [afterLength?] at h
  split at h
  · split at h
    · cases h
      have h₁ := PdfContent.Token.length_dropWhile_le Byte.isBlank (s.drop n)
      simp only [List.length_drop] at h₁ ⊢
      omega
    · cases h
  · cases h

theorem length_dataToEnd_le (s : Bytes) : (dataToEnd s).2.length ≤ s.length := by
  unfold dataToEnd
  split
  · exact length_searchEnd_le (by assumption)
  · exact Nat.zero_le _

/-- Reading the data of an image never goes back. -/
theorem length_imageData_le (position : Nat) (length : Option Nat) (s : Bytes) :
    (imageData position length s).2.length ≤ s.length := by
  simp only [imageData]
  generalize hd : (if s.head?.any Byte.isBlank then s.drop 1 else s) = data
  have hs : data.length ≤ s.length := by
    rw [← hd]
    split
    · simp only [List.length_drop]
      omega
    · exact Nat.le_refl _
  refine Nat.le_trans ?_ hs
  split
  · exact length_dataToEnd_le data
  · split
    · exact Nat.le_refl _
    · split
      · exact length_afterLength?_le (by assumption)
      · exact length_dataToEnd_le data

end PdfContent.Content
