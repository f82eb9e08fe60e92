import PdfContent.Store.Basic
/-!
# Last entry — tables in which later entries replace earlier ones

An entry of a table gives a value for some codes and none for the others.  The table gives the value of the last entry
that has one (`LastGiven`).  An entry may stand for several rows: if these together give what the entry gives, so does
the table of all rows (`lastGiven_flatMap`).  It is also what a hash map holds if the values of all codes are inserted one
after the other (`getElem?_insertedAll`).
-/
namespace PdfContent

variable {α β γ : Type}

/-- The value of the last entry that has one; none, if no entry has one. -/
def LastGiven (given : α → Option β) (entries : List α) : Option β → Prop
  | some v => ∃ before e after, entries = before ++ e :: after ∧ given e = some v ∧ ∀ d ∈ after, given d = none
  | none => ∀ e ∈ entries, given e = none

theorem lastGiven_iff {given : α → Option β} {entries : List α} {v : Option β} :
    LastGiven given entries v ↔ entries.reverse.findSome? given = v := by
  cases v with
  | none => simp [LastGiven]
  | some v =>
    rw [List.findSome?_eq_some_iff, LastGiven]
    constructor
    · rintro ⟨before, e, after, rfl, he, hafter⟩
      exact ⟨after.reverse, e, before.reverse, by simp, he, fun d hd => hafter d (List.mem_reverse.1 hd)⟩
    · rintro ⟨after, e, before, split, he, hafter⟩
      refine ⟨before.reverse, e, after.reverse, ?_, he, fun d hd => hafter d (List.mem_reverse.1 hd)⟩
      rw [← List.reverse_reverse entries, split]
      simp

/-- What is read from a table with a default. -/
theorem exists_lastGiven {given : α → Option β} {entries : List α} {x y : β} :
    (∃ v, LastGiven given entries v ∧ x = v.getD y) ↔ x = (entries.reverse.findSome? given).getD y := by
  simp only [lastGiven_iff, exists_eq_left']

theorem findSome?_reverse_flatMap (given : α → Option β) (rows : γ → List α) : ∀ (entries : List γ),
    (entries.flatMap rows).reverse.findSome? given =
      entries.reverse.findSome? fun e => (rows e).reverse.findSome? given
  | [] => rfl
  | e :: entries => by
    rw [List.flatMap_cons, List.reverse_append, List.findSome?_append, findSome?_reverse_flatMap given rows entries,
      List.reverse_cons, List.findSome?_append, List.findSome?_singleton]

/-- A table of entries that stand for several rows each. -/
theorem lastGiven_flatMap {given : α → Option β} {rows : γ → List α} {together : γ → Option β}
    (h : ∀ e, LastGiven given (rows e) (together e)) {entries : List γ} {v : Option β} :
    LastGiven given (entries.flatMap rows) v ↔ LastGiven together entries v := by
  have same : (fun e => (rows e).reverse.findSome? given) = together := funext fun e => lastGiven_iff.1 (h e)
  rw [lastGiven_iff, lastGiven_iff, findSome?_reverse_flatMap, same]

theorem lastGiven_map {given : α → Option β} {row : γ → α} {entries : List γ} {v : Option β} :
    LastGiven given (entries.map row) v ↔ LastGiven (fun e => given (row e)) entries v := by
  rw [lastGiven_iff, lastGiven_iff, ← List.map_reverse, List.findSome?_map]
  rfl

theorem lastGiven_singleton {given : α → Option β} {e : α} {v : Option β} : LastGiven given [e] v ↔ given e = v := by
  rw [lastGiven_iff, List.reverse_singleton, List.findSome?_singleton]

/-- A table with one row for each of consecutive codes. -/
theorem lastGiven_zipIdx (given : α → β) (code : Nat) : ∀ (low : Nat) (rows : List α),
    LastGiven (fun row : α × Nat => if row.2 = code then some (given row.1) else none) (rows.zipIdx low)
      (if low ≤ code then rows[code - low]?.map given else none)
  | low, [] => by simp [LastGiven]
  | low, row :: rows => by
    have rest := lastGiven_iff.1 (lastGiven_zipIdx given code (low + 1) rows)
    rw [lastGiven_iff, List.zipIdx_cons, List.reverse_cons, List.findSome?_append, rest, List.findSome?_singleton]
    by_cases heq : low = code
    · subst heq
      rw [if_neg (Nat.not_succ_le_self low), if_pos rfl, if_pos (Nat.le_refl low), Nat.sub_self]
      rfl
    · by_cases hle : low ≤ code
      · obtain ⟨k, rfl⟩ : ∃ k, code = low + 1 + k := ⟨code - (low + 1), by omega⟩
        have index : low + 1 + k - low = k + 1 := by omega
        simp [heq, index, show low ≤ low + 1 + k by omega]
      · simp [heq, hle, show ¬low + 1 ≤ code by omega]

/-! ## Hash maps -/

/-- The map into which values were inserted for codes, one after the other. -/
def insertedAll (rows : List (Nat × β)) : Std.HashMap Nat β := rows.foldl (fun map row => map.insert row.1 row.2) ∅

def rowValue? (code : Nat) (row : Nat × β) : Option β := if row.1 = code then some row.2 else none

/-- Each insertion replaces the one before it of the same code. -/
theorem lastGiven_insertedAll (code : Nat) (rows : List (Nat × β)) :
    LastGiven (rowValue? code) rows (insertedAll rows)[code]? := by
  have from_map : ∀ (rows : List (Nat × β)) (map : Std.HashMap Nat β),
      (rows.foldl (fun map row => map.insert row.1 row.2) map)[code]? =
        (rows.reverse.findSome? (rowValue? code)).or map[code]? := by
    intro rows
    induction rows with
    | nil => exact fun _ => rfl
    | cons row rows ih =>
      intro map
      rw [List.foldl_cons, ih, Std.HashMap.getElem?_insert, List.reverse_cons, List.findSome?_append,
        List.findSome?_singleton, Option.or_assoc, rowValue?]
      simp only [beq_iff_eq]
      split <;> rfl
  rw [lastGiven_iff, insertedAll, from_map, Std.HashMap.getElem?_empty, Option.or_none]

/-- What a table gives is in the map, if its entries stand for rows that are inserted. -/
theorem getElem?_insertedAll {given : γ → Option β} {rows : γ → List (Nat × β)} {code : Nat}
    (h : ∀ e, LastGiven (rowValue? code) (rows e) (given e)) {entries : List γ} {v : Option β}
    (hv : LastGiven given entries v) : (insertedAll (entries.flatMap rows))[code]? = v := by
  have inserted := lastGiven_iff.1 (lastGiven_insertedAll code (entries.flatMap rows))
  rw [← inserted]
  exact lastGiven_iff.1 ((lastGiven_flatMap h).2 hv)

/-- Rows for the codes between two bounds, without those that have no value. -/
def rowsBetween (low high : Nat) (value? : Nat → Option β) : List (Nat × β) :=
  (List.range' low (high + 1 - low)).flatMap fun code => ((value? code).map fun v => (code, v)).toList

theorem findSome?_code (code : Nat) (v : Option β) : ∀ codes : List Nat,
    codes.findSome? (fun c => if c = code then v else none) = if code ∈ codes then v else none
  | [] => rfl
  | c :: codes => by
    rw [List.findSome?_cons, findSome?_code code v codes]
    by_cases same : c = code
    · cases v <;> simp [same]
    · simp [same, Ne.symm same]

theorem lastGiven_rowsBetween (code low high : Nat) (value? : Nat → Option β) :
    LastGiven (rowValue? code) (rowsBetween low high value?)
      (if low ≤ code ∧ code ≤ high then value? code else none) := by
  have single (c : Nat) : LastGiven (rowValue? code) ((value? c).map fun v => (c, v)).toList
      (if c = code then value? code else none) := by
    rw [lastGiven_iff]
    split
    case isTrue same =>
      subst same
      cases value? c <;> simp [rowValue?]
    case isFalse other => cases value? c <;> simp [rowValue?, other]
  refine (lastGiven_flatMap single).2 ?_
  have between : code ∈ (List.range' low (high + 1 - low)).reverse ↔ low ≤ code ∧ code ≤ high := by
    rw [List.mem_reverse, List.mem_range'_1]
    omega
  rw [lastGiven_iff, findSome?_code]
  simp only [between]

end PdfContent
