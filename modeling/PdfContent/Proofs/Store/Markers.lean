import Mathlib.Data.List.TakeWhile
import PdfContent.Proofs.Store.Scan
/-!
# Markers — the places of a file where an object is defined

Which places these are is a grammar: an identifier in front of the word `obj`, which is a whole word (`MarkerAt`).  The
scan finds each of them once, from the front to the back, and nothing else (`markers_exact`).
-/
namespace PdfContent.Store

/-- The bytes end in an identifier: two numbers with white space between them, maybe more of it after them, and in front
of them nothing or a byte that ends a word. -/
inductive EndsIn (r : ObjRef) : Bytes → Prop where
  | mk {front num gap gen blanks} (hf : Ended front.reverse) (hn : Digits r.num num) (hw : Blanks gap)
      (hg : Digits r.gen gen) (hb : ∀ b ∈ blanks, Byte.isBlank b = true)
      (hr : r.num < UInt32.size ∧ r.gen < UInt16.size) :
      EndsIn r (front ++ (num ++ (gap ++ (gen ++ blanks))))

/-- The word `obj` stands at the place, with nothing or a byte that ends a word after it, and an identifier in front of
it. -/
structure MarkerAt (file : Bytes) (p : Nat) (r : ObjRef) : Prop where
  word : markerWord <+: file.drop p
  whole : Ended (file.drop (p + 3))
  identifier : EndsIn r (file.take p)

/-! ## Identifiers -/

/-- The parts of an identifier are what the steps back from its end pass over. -/
theorem endsIn_of_markerRef? {rev : Bytes} {r : ObjRef} (h : markerRef? rev = some r) : EndsIn r rev.reverse := by
  unfold markerRef? at h
  dsimp only at h
  split at h
  · cases h
  rename_i parts
  split at h
  case isFalse => cases h
  rename_i small
  cases h
  simp only [Bool.or_eq_true, List.isEmpty_iff, not_or, Bool.not_eq_true] at parts
  obtain ⟨⟨⟨gen, gap⟩, num⟩, front⟩ := parts
  simp only [Bool.and_eq_true, decide_eq_true_eq] at small
  generalize hs₁ : rev.dropWhile Byte.isBlank = s₁ at *
  generalize hs₂ : s₁.dropWhile Byte.isDigit = s₂ at *
  generalize hs₃ : s₂.dropWhile Byte.isBlank = s₃ at *
  generalize hs₄ : s₃.dropWhile Byte.isDigit = s₄ at *
  have whole : rev.reverse = s₄.reverse ++ ((s₃.takeWhile Byte.isDigit).reverse ++
      ((s₂.takeWhile Byte.isBlank).reverse ++ ((s₁.takeWhile Byte.isDigit).reverse ++
        (rev.takeWhile Byte.isBlank).reverse))) := by
    simp only [← List.reverse_append, List.append_assoc, ← hs₄, ← hs₃, ← hs₂, ← hs₁,
      List.takeWhile_append_dropWhile]
  have passed {q : UInt8 → Bool} {s : Bytes} : ∀ b ∈ (s.takeWhile q).reverse, q b = true :=
    fun b hb => List.mem_takeWhile_imp (List.mem_reverse.mp hb)
  have nonempty {s : Bytes} (h : s ≠ []) : s.reverse ≠ [] := mt List.reverse_eq_nil_iff.mp h
  rw [whole]
  refine .mk ?_ ⟨nonempty num, passed, rfl⟩ ⟨nonempty gap, passed⟩ ⟨nonempty gen, passed, rfl⟩ passed small
  rwa [List.reverse_reverse, ← not_regular_iff, Bool.not_eq_true']

/-- **The identifier in front of a marker is the one that is read**, if there is one. -/
theorem markerRef?_eq_some_iff (before : Bytes) (r : ObjRef) :
    markerRef? before.reverse = some r ↔ EndsIn r before := by
  constructor
  · intro h
    have read := endsIn_of_markerRef? h
    rwa [List.reverse_reverse] at read
  · rintro ⟨hf, hn, hw, hg, hb, hr⟩
    have read := markerRef?_marker hn hw hg hb hr hf
    rwa [← List.reverse_append] at read

/-! ## The scan -/

def Marker (file : Bytes) (r : ObjRef) (rest : Bytes) : Prop :=
  ∃ before, file = before ++ (markerWord ++ rest) ∧ Ended rest ∧ markerRef? before.reverse = some r

theorem mem_markersFrom_cons {before s rest : Bytes} {b : UInt8} {r : ObjRef} :
    (r, rest) ∈ markersFrom before (b :: s) ↔
      (markerWord ++ rest = b :: s ∧ Ended rest ∧ markerRef? before = some r) ∨
        (r, rest) ∈ markersFrom (b :: before) s := by
  rw [markersFrom]
  by_cases word : markerWord.isPrefixOf (b :: s) = true
  · obtain ⟨t, ht⟩ := List.isPrefixOf_iff_prefix.mp word
    have drop : s.drop 2 = t := drop_word ht rfl
    have only : markerWord ++ rest = b :: s ↔ rest = t := by
      rw [← ht, List.append_cancel_left_eq]
    by_cases ended : Ended t
    · rw [only, if_pos (by rw [word, drop, not_regular_iff.mpr ended, Bool.and_self]), drop]
      cases markerRef? before with
      | none => simp
      | some q =>
        rw [List.mem_cons, Prod.mk.injEq]
        refine or_congr ?_ Iff.rfl
        constructor
        · rintro ⟨hr, hs⟩
          exact ⟨hs, hs ▸ ended, congrArg some hr.symm⟩
        · rintro ⟨hs, -, hr⟩
          exact ⟨(Option.some.inj hr).symm, hs⟩
    · have unread : ¬(rest = t ∧ Ended rest ∧ markerRef? before = some r) := by
        rintro ⟨hs, he, -⟩
        exact ended (hs ▸ he)
      rw [only, if_neg (by rw [word, drop, Bool.true_and, not_regular_iff]; exact ended), or_iff_right unread]
  · have none : markerWord ++ rest ≠ b :: s := fun h => word (List.isPrefixOf_iff_prefix.mpr ⟨rest, h⟩)
    simp [word, none]

theorem mem_markersFrom {before s rest : Bytes} {r : ObjRef} : (r, rest) ∈ markersFrom before s ↔
    ∃ mid, s = mid ++ (markerWord ++ rest) ∧ Ended rest ∧ markerRef? (mid.reverse ++ before) = some r := by
  induction s generalizing before with
  | nil => simp [markersFrom, show markerWord ≠ [] by decide]
  | cons b s ih =>
    rw [mem_markersFrom_cons, ih]
    constructor
    · rintro (⟨hs, hw⟩ | ⟨mid, rfl, hw⟩)
      · exact ⟨[], hs.symm, hw⟩
      · exact ⟨b :: mid, rfl, by simpa using hw⟩
    · rintro ⟨mid, hs, hw⟩
      cases mid with
      | nil => exact .inl ⟨hs.symm, hw⟩
      | cons c mid =>
        obtain ⟨rfl, rfl⟩ := List.cons.inj hs
        exact .inr ⟨mid, rfl, by simpa using hw⟩

theorem mem_markers {file rest : Bytes} {r : ObjRef} : (r, rest) ∈ markers file ↔ Marker file r rest := by
  simp only [markers, mem_markersFrom, Marker, List.append_nil]

theorem markersFrom_sorted (before s : Bytes) :
    (markersFrom before s).Pairwise fun m n => n.2.length < m.2.length := by
  induction s generalizing before with
  | nil => exact .nil
  | cons b s ih =>
    have later : ∀ m ∈ markersFrom (b :: before) s, m.2.length < (s.drop 2).length := by
      intro m hm
      obtain ⟨mid, hs, -⟩ := mem_markersFrom.mp hm
      have length : s.length = mid.length + (3 + m.2.length) := by
        rw [hs, List.length_append, List.length_append]
        rfl
      rw [List.length_drop]
      omega
    rw [markersFrom]
    split
    · split
      · exact .cons later (ih _)
      · exact ih _
    · exact ih _

/-! ## Places -/

theorem MarkerAt.fits {file : Bytes} {p : Nat} {r : ObjRef} (h : MarkerAt file p r) : p + 3 ≤ file.length := by
  have le := h.word.length_le
  rw [show markerWord.length = 3 from rfl, List.length_drop] at le
  omega

theorem marker_iff {file rest : Bytes} {r : ObjRef} :
    Marker file r rest ↔ ∃ p, MarkerAt file p r ∧ rest = file.drop (p + 3) := by
  constructor
  · rintro ⟨before, rfl, whole, identifier⟩
    have after : (before ++ (markerWord ++ rest)).drop (before.length + 3) = rest := by
      rw [← List.drop_drop, List.drop_left]
      show (markerWord ++ rest).drop markerWord.length = rest
      exact List.drop_left
    refine ⟨before.length, ⟨?_, ?_, ?_⟩, after.symm⟩
    · rw [List.drop_left]
      exact List.prefix_append _ _
    · rwa [after]
    · rw [List.take_left]
      exact (markerRef?_eq_some_iff before r).mp identifier
  · rintro ⟨p, ⟨⟨t, word⟩, whole, identifier⟩, rfl⟩
    have after : file.drop (p + 3) = t := by
      rw [← List.drop_drop, ← word]
      show (markerWord ++ t).drop markerWord.length = t
      exact List.drop_left
    refine ⟨file.take p, ?_, whole, (markerRef?_eq_some_iff _ r).mpr identifier⟩
    rw [after, word, List.take_append_drop]

/-- **Object markers are recognised exactly.**  The markers of a file, in increasing order and each once, are the places
where the grammar has one, each with its identifier and what follows the word. -/
theorem markers_exact (file : Bytes) : ∃ found : List (Nat × ObjRef),
    (found.map Prod.fst).Pairwise (· < ·) ∧ (∀ p r, (p, r) ∈ found ↔ MarkerAt file p r) ∧
      markers file = found.map fun m => (m.2, file.drop (m.1 + 3)) := by
  -- the place of a marker is known from the length of what follows it
  let place (rest : Bytes) : Nat := file.length - rest.length - 3
  have place_eq {p : Nat} {r : ObjRef} (h : MarkerAt file p r) : place (file.drop (p + 3)) = p := by
    have fits := h.fits
    simp only [place, List.length_drop]
    omega
  have at_place {m : ObjRef × Bytes} (h : m ∈ markers file) :
      MarkerAt file (place m.2) m.1 ∧ m.2 = file.drop (place m.2 + 3) := by
    obtain ⟨p, marker, rest⟩ := marker_iff.mp (mem_markers.mp h)
    rw [rest, place_eq marker]
    exact ⟨marker, rfl⟩
  refine ⟨(markers file).map fun m => (place m.2, m.1), ?_, fun p r => ?_, ?_⟩
  · rw [List.map_map]
    refine List.pairwise_map.mpr ((markersFrom_sorted [] file).imp_of_mem fun hm hn shorter => ?_)
    have length {m : ObjRef × Bytes} (h : m ∈ markers file) : m.2.length = file.length - (place m.2 + 3) :=
      (congrArg List.length (at_place h).2).trans List.length_drop
    have first := length hm
    have second := length hn
    show place _ < place _
    omega
  · rw [List.mem_map]
    constructor
    · rintro ⟨m, hm, same⟩
      obtain ⟨rfl, rfl⟩ := Prod.mk.inj same
      exact (at_place hm).1
    · intro h
      exact ⟨(r, file.drop (p + 3)), mem_markers.mpr (marker_iff.mpr ⟨p, h, rfl⟩), by rw [place_eq h]⟩
  · rw [List.map_map]
    refine (List.map_id _).symm.trans (List.map_congr_left fun m hm => ?_)
    exact Prod.ext rfl (at_place hm).2

/-- Nothing has to stand between the second number and the word, and `endobj` is no marker. -/
example : (markers (Bytes.ofText "x 12 0obj 7 endobj 120 obj a3 0 obj")).map (·.1) = [⟨12, 0⟩] := by decide +kernel

end PdfContent.Store
