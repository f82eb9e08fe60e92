import PdfContent.Proofs.Syntax.Spelling
import PdfContent.Store.Load
/-!
# Scan — where a scan of a file finds its words

A file is scanned for `obj` and for `trailer`, wherever they stand.  So what a scan comes to depends on how often a word
stands in a file (`occurrences`): a part without it is passed over (`markersFrom_skip`, `trailerDicts_skip`), and at the
word itself the identifier in front of it is read backwards (`markerRef?_marker`).
-/
namespace PdfContent

/-! ## Words in bytes -/

def occurrences (word : Bytes) : Bytes → Nat
  | [] => 0
  | b :: r => (if word.isPrefixOf (b :: r) then 1 else 0) + occurrences word r

theorem le_occurrences_append (word a b : Bytes) : occurrences word b ≤ occurrences word (a ++ b) := by
  induction a with
  | nil => exact Nat.le_refl _
  | cons x a ih =>
    rw [List.cons_append, occurrences]
    omega

/-- The word starts nowhere in `a`, if `b` makes up for all of it that stands in both. -/
theorem not_prefix_of_occurrences_le {word : Bytes} {x : UInt8} {a b : Bytes}
    (h : occurrences word (x :: a ++ b) ≤ occurrences word b) :
    word.isPrefixOf (x :: (a ++ b)) = false ∧ occurrences word (a ++ b) ≤ occurrences word b := by
  rw [List.cons_append, occurrences] at h
  have hle := le_occurrences_append word a b
  by_cases hp : word.isPrefixOf (x :: (a ++ b)) = true
  · rw [if_pos hp] at h
    omega
  · rw [if_neg hp] at h
    exact ⟨Bool.eq_false_iff.mpr hp, by omega⟩

namespace Store

theorem not_regular_iff {s : Bytes} : (!s.head?.any Byte.isRegular) = true ↔ Ended s := by
  cases s <;> simp [Ended]

theorem drop_word {word rest r : Bytes} {b : UInt8} {n : Nat} (h : word ++ rest = b :: r) (hn : word.length = n + 1) :
    r.drop n = rest := by
  rw [← List.drop_succ_cons, ← h, ← hn, List.drop_left]

/-! ## Markers -/

theorem markersFrom_skip {a b : Bytes} (before : Bytes)
    (h : occurrences markerWord (a ++ b) ≤ occurrences markerWord b) :
    markersFrom before (a ++ b) = markersFrom (a.reverse ++ before) b := by
  induction a generalizing before with
  | nil => rfl
  | cons x a ih =>
    obtain ⟨hp, h⟩ := not_prefix_of_occurrences_le h
    rw [List.cons_append, markersFrom, hp, List.reverse_cons, List.append_assoc]
    simpa using ih (x :: before) h

theorem markersFrom_nil {s : Bytes} (before : Bytes) (h : occurrences markerWord s = 0) : markersFrom before s = [] := by
  have hs := markersFrom_skip (a := s) (b := []) before (by simp [h])
  rwa [List.append_nil] at hs

theorem occurrences_marker (c : Bytes) : occurrences markerWord (markerWord ++ c) = occurrences markerWord c + 1 := by
  have word : markerWord = [0x6f, 0x62, 0x6a] := by decide
  simp [word, occurrences, Nat.add_comm]

/-- The word of a marker, if it is a whole word and an identifier stands in front of it. -/
theorem markersFrom_word {c : Bytes} (before : Bytes) (hc : Ended c) :
    markersFrom before (markerWord ++ c) =
      ((markerRef? before).map fun r => (r, c)).toList ++ markersFrom (markerWord.reverse ++ before) c := by
  have word : markerWord = [0x6f, 0x62, 0x6a] := by decide
  have whole : c.head?.any Byte.isRegular = false := (Bool.not_eq_true' _).mp (not_regular_iff.mpr hc)
  rw [word]
  simp only [List.cons_append, List.nil_append, markersFrom, word]
  cases markerRef? before <;> simp [whole]

/-! ## Identifiers in front of a marker -/

structure Digits (n : Nat) (ds : Bytes) : Prop where
  ne : ds ≠ []
  digit : ∀ d ∈ ds, Byte.isDigit d = true
  value : Bytes.decimal ds = n

/-- White space, not empty. -/
structure Blanks (g : Bytes) : Prop where
  ne : g ≠ []
  blank : ∀ b ∈ g, Byte.isBlank b = true

theorem takeWhile_append {p : UInt8 → Bool} {a b : Bytes} (ha : ∀ x ∈ a, p x = true)
    (hb : ∀ x ∈ b.head?, p x = false) : (a ++ b).takeWhile p = a ∧ (a ++ b).dropWhile p = b := by
  rw [List.takeWhile_append_of_pos ha, List.dropWhile_append_of_pos ha]
  cases b with
  | nil => exact ⟨List.append_nil a, rfl⟩
  | cons x b =>
    have hx := hb x rfl
    simp [List.takeWhile, List.dropWhile, hx]

theorem head?_append {p q : UInt8 → Bool} (hpq : ∀ x, q x = true → p x = false) {a : Bytes} (hne : a ≠ [])
    (ha : ∀ x ∈ a, q x = true) (b : Bytes) : ∀ x ∈ (a ++ b).head?, p x = false := by
  obtain ⟨y, a, rfl⟩ := List.exists_cons_of_ne_nil hne
  rintro x ⟨⟩
  exact hpq y (ha y (.head _))

theorem digit_not_blank (b : UInt8) (h : Byte.isDigit b = true) : Byte.isBlank b = false := by
  have regular := (digit_facts b h).1
  simp only [Byte.isRegular, Bool.and_eq_true, Bool.not_eq_true'] at regular
  exact regular.1

theorem blank_not_digit (b : UInt8) (h : Byte.isBlank b = true) : Byte.isDigit b = false :=
  eq_false_of_ne_true fun digit => absurd (digit_not_blank b digit) (by simp [h])

/-- **The identifier in front of a marker is read backwards**, up to a byte that ends a word. -/
theorem markerRef?_marker {r : ObjRef} {nd gd b₁ b₂ before : Bytes} (hn : Digits r.num nd) (h₁ : Blanks b₁)
    (hg : Digits r.gen gd) (h₂ : ∀ b ∈ b₂, Byte.isBlank b = true) (hr : r.num < UInt32.size ∧ r.gen < UInt16.size)
    (hb : Ended before) :
    markerRef? ((nd ++ (b₁ ++ (gd ++ b₂))).reverse ++ before) = some r := by
  have mirror {q : UInt8 → Bool} {a : Bytes} (h : ∀ x ∈ a, q x = true) : ∀ x ∈ a.reverse, q x = true :=
    fun x hx => h x (List.mem_reverse.mp hx)
  have nonempty {a : Bytes} (h : a ≠ []) : a.reverse ≠ [] := fun h' => h (List.reverse_eq_nil_iff.mp h')
  have ended : ∀ x ∈ before.head?, Byte.isDigit x = false := by
    intro x hx
    have := hb x hx
    by_cases hd : Byte.isDigit x = true
    · rw [(digit_facts x hd).1] at this
      cases this
    · exact Bool.eq_false_iff.mpr hd
  obtain ⟨-, s₁⟩ := takeWhile_append (mirror h₂)
    (head?_append digit_not_blank (nonempty hg.ne) (mirror hg.digit) (b₁.reverse ++ (nd.reverse ++ before)))
  obtain ⟨t₂, s₂⟩ := takeWhile_append (mirror hg.digit)
    (head?_append blank_not_digit (nonempty h₁.ne) (mirror h₁.blank) (nd.reverse ++ before))
  obtain ⟨t₃, s₃⟩ := takeWhile_append (mirror h₁.blank)
    (head?_append digit_not_blank (nonempty hn.ne) (mirror hn.digit) before)
  obtain ⟨t₄, s₄⟩ := takeWhile_append (mirror hn.digit) ended
  have whole : before.head?.any Byte.isRegular = false := (Bool.not_eq_true' _).mp (not_regular_iff.mpr hb)
  have full {a : Bytes} (h : a ≠ []) : a.reverse.isEmpty = false := by simpa using h
  unfold markerRef?
  simp only [List.reverse_append, List.append_assoc, s₁, t₂, s₂, t₃, s₃, t₄, s₄, full hg.ne, full h₁.ne, full hn.ne,
    whole, List.reverse_reverse, hn.value, hg.value, hr.1, hr.2, Bool.or_false, Bool.false_eq_true, if_false,
    decide_true, Bool.and_self, if_true]

/-- The word that ends a definition is no marker, since no digits stand in front of it. -/
theorem markerRef?_end (before : Bytes) : markerRef? ((Bytes.ofText "end").reverse ++ before) = none := by
  have word : (Bytes.ofText "end").reverse = [0x64, 0x6e, 0x65] := by decide
  rw [word]
  rfl

/-! ## Trailers -/

theorem trailerDicts_skip {a b : Bytes} (found : List Dict)
    (h : occurrences trailerWord (a ++ b) ≤ occurrences trailerWord b) :
    trailerDicts found (a ++ b) = trailerDicts found b := by
  induction a with
  | nil => rfl
  | cons x a ih =>
    obtain ⟨hp, h⟩ := not_prefix_of_occurrences_le h
    rw [List.cons_append, trailerDicts, hp]
    exact ih h

theorem trailerDicts_nil {s : Bytes} (found : List Dict) (h : occurrences trailerWord s = 0) :
    trailerDicts found s = found := by
  have hs := trailerDicts_skip (a := s) (b := []) found (by simp [h])
  rwa [List.append_nil] at hs

theorem occurrences_trailer (c : Bytes) :
    occurrences trailerWord (trailerWord ++ c) = occurrences trailerWord c + 1 := by
  have word : trailerWord = [0x74, 0x72, 0x61, 0x69, 0x6c, 0x65, 0x72] := by decide
  simp [word, occurrences, Nat.add_comm]

/-- The dictionary after the word is found, and the scan goes on after the word. -/
theorem trailerDicts_word {c rest : Bytes} {d : Dict} (found : List Dict)
    (h : Reading.object? c = some (.dict d, rest)) :
    trailerDicts found (trailerWord ++ c) = trailerDicts (d :: found) c := by
  have word : trailerWord = [0x74, 0x72, 0x61, 0x69, 0x6c, 0x65, 0x72] := by decide
  rw [word]
  simp [trailerDicts, word, h]

end Store

end PdfContent
