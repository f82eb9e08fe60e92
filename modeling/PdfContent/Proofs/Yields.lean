import PdfContent.Word
/-!
# Yields — what is known of the value of a computation that may fail
-/
namespace PdfContent

namespace Checked

variable {β γ : Type} {x : Checked β} {c : γ}

theorem map_eq_ok_iff {f : β → γ} : x.map f = .ok c ↔ ∃ b, x = .ok b ∧ f b = c := by
  cases x with
  | ok b => simp [Except.map]
  | error p => simp [Except.map]

theorem bind_eq_ok_iff {f : β → Checked γ} : x.bind f = .ok c ↔ ∃ b, x = .ok b ∧ f b = .ok c := by
  cases x with
  | ok b => simp [Except.bind]
  | error p => simp [Except.bind]

theorem exists_mapM_eq_ok_iff {f : β → Checked γ} {xs : List β} :
    (∃ ys, xs.mapM f = .ok ys) ↔ ∀ x ∈ xs, ∃ y, f x = .ok y := by
  induction xs with
  | nil => exact ⟨fun _ => List.forall_mem_nil _, fun _ => ⟨[], rfl⟩⟩
  | cons x xs ih =>
    rw [List.forall_mem_cons, ← ih, List.mapM_cons]
    constructor
    · rintro ⟨ys, h⟩
      obtain ⟨y, hy, h⟩ := bind_eq_ok_iff.mp h
      obtain ⟨ys, hys, -⟩ := bind_eq_ok_iff.mp h
      exact ⟨⟨y, hy⟩, ys, hys⟩
    · rintro ⟨⟨y, hy⟩, ys, hys⟩
      exact ⟨y :: ys, by rw [hy, hys]; rfl⟩

end Checked

/-- Whatever a computation yields, if it yields anything, is such. -/
def Yields {ε β : Type} (p : β → Prop) (x : Except ε β) : Prop := ∀ y, x = .ok y → p y

namespace Yields

variable {ε β γ : Type} {p : γ → Prop}

theorem pure {y : γ} (h : p y) : Yields p (Pure.pure y : Except ε γ) := fun z hz => by cases hz; exact h

theorem throw (e : ε) : Yields p (MonadExcept.throw e : Except ε γ) := fun z hz => by cases hz

theorem bind {x : Except ε β} {f : β → Except ε γ} (h : ∀ y, Yields p (f y)) : Yields p (x >>= f) := by
  cases x with
  | error e => exact fun z hz => by cases hz
  | ok y => exact h y

/-- What comes after may rest on what the first step has yielded. -/
theorem bind_of {x : Except ε β} {f : β → Except ε γ} (h : ∀ y, x = .ok y → Yields p (f y)) : Yields p (x >>= f) := by
  cases x with
  | error e => exact fun z hz => by cases hz
  | ok y => exact h y rfl

theorem map {x : Except ε β} {f : β → γ} (h : ∀ y, p (f y)) : Yields p (x.map f) := by
  cases x with
  | error e => exact fun z hz => by cases hz
  | ok y => exact fun z hz => by cases hz; exact h y

theorem mapError {ε' : Type} {x : Except ε γ} (f : ε → ε') (h : Yields p x) : Yields p (x.mapError f) := by
  cases x with
  | error e => exact fun z hz => by cases hz
  | ok y => exact fun z hz => by cases hz; exact h y rfl

theorem branch {c : Prop} [Decidable c] {x y : Except ε γ} (hx : Yields p x) (hy : Yields p y) :
    Yields p (if c then x else y) := by
  split
  · exact hx
  · exact hy

end Yields

end PdfContent
