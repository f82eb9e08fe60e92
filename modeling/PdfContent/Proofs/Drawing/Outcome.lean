import PdfContent.Drawing.Machine
/-!
# Outcome — what is left of a drawing that ends in a panic

The first panic ends a drawing, and what has happened before it is a beginning of the log (`outcome_error`).
-/
namespace PdfContent

variable {α : Type}

theorem panicked?_eq_none_iff {log : Log α} : panicked? log = none ↔ ∀ e ∈ log, e.panic? = none := by
  induction log with
  | nil => simp [panicked?]
  | cons e log ih => simp [panicked?, ih, and_comm]

/-- Before the first panic there is none. -/
theorem panicked?_eq_some {log before : Log α} {p : Panic} (h : panicked? log = some (p, before)) :
    ∃ later e, log = later ++ e :: before ∧ e.panic? = some p ∧ panicked? before = none := by
  induction log with
  | nil => cases h
  | cons e log ih =>
    rw [panicked?, Option.or_eq_some_iff] at h
    rcases h with first | ⟨none_before, last⟩
    · obtain ⟨later, d, rfl, hd⟩ := ih first
      exact ⟨e :: later, d, rfl, hd⟩
    · obtain ⟨q, hq, same⟩ := Option.map_eq_some_iff.mp last
      cases same
      exact ⟨[], e, rfl, hq, none_before⟩

namespace Machine

variable {m n : Machine α}

theorem outcome_ok_iff : m.outcome = .ok n ↔ n = m ∧ ∀ e ∈ m.log, e.panic? = none := by
  rw [← panicked?_eq_none_iff, outcome]
  cases panicked? m.log <;> simp [eq_comm]

theorem outcome_error {before : Log α} {p : Panic} (h : m.outcome = .error (p, before)) :
    ∃ later e, m.log = later ++ e :: before ∧ e.panic? = some p ∧ ∀ d ∈ before, d.panic? = none := by
  have panics : panicked? m.log = some (p, before) := by
    unfold outcome at h
    split at h
    · cases h
    · cases h
      assumption
  obtain ⟨later, e, split, panic, none_before⟩ := panicked?_eq_some panics
  exact ⟨later, e, split, panic, panicked?_eq_none_iff.mp none_before⟩

theorem outcome_error_suffix {before : Log α} {p : Panic} (h : m.outcome = .error (p, before)) : before <:+ m.log := by
  obtain ⟨later, e, split, -⟩ := outcome_error h
  exact ⟨later ++ [e], by rw [split, List.append_assoc]; rfl⟩

end Machine

end PdfContent
