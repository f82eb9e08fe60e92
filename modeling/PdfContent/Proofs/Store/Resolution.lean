import PdfContent.Store.Basic
/-!
# Resolution — what an object stands for

A store is any graph: its references may lead to nothing, or around in circles.  `Leads` follows them without a bound and
says what stands after each of them.  What an object stands for is the value that at most fifteen of them lead to; where
there is no such value it is null (`resolve_exact`).
-/
namespace PdfContent

/-- The object is no reference. -/
def Object.IsValue (o : Object) : Prop := ∀ r, o ≠ .ref r

namespace Store

/-- So many references, one after the other, lead from an object to another. -/
inductive Leads (st : Store) : Nat → Object → Object → Prop where
  | here (o : Object) : Leads st 0 o o
  | next {r : ObjRef} {o o' : Object} {k : Nat} (found : st.get? r = some o) (rest : Leads st k o o') :
    Leads st (k + 1) (.ref r) o'

/-- The references lead to one that the store has no object for. -/
def Dangling (st : Store) (o : Object) : Prop := ∃ k r, st.Leads k o (.ref r) ∧ st.get? r = none

/-- The references lead to one that leads back to itself. -/
def Circular (st : Store) (o : Object) : Prop := ∃ k n r, st.Leads k o (.ref r) ∧ st.Leads (n + 1) (.ref r) (.ref r)

variable {st : Store} {o o' v : Object} {k n steps : Nat}

/-! ## Rows of references -/

theorem Leads.trans (h : st.Leads k o o') (h' : st.Leads n o' v) : st.Leads (n + k) o v := by
  induction h with
  | here => exact h'
  | next found _ ih => exact .next found (ih h')

/-- A row can be cut after any of its references. -/
theorem Leads.front (h : st.Leads (n + k) o o') : ∃ between, st.Leads k o between := by
  induction k generalizing o with
  | zero => exact ⟨o, .here o⟩
  | succ k ih =>
    cases h with
    | next found rest =>
      obtain ⟨between, h⟩ := ih rest
      exact ⟨between, .next found h⟩

theorem Leads.again {r : ObjRef} (h : st.Leads (n + 1) (.ref r) (.ref r)) (times : Nat) :
    ∃ m, times ≤ m ∧ st.Leads m (.ref r) (.ref r) := by
  induction times with
  | zero => exact ⟨0, Nat.le_refl 0, .here _⟩
  | succ times ih =>
    obtain ⟨m, hm, around⟩ := ih
    exact ⟨n + 1 + m, by omega, around.trans h⟩

/-- Around a circle the references never end. -/
theorem Circular.leads (h : st.Circular o) (k : Nat) : ∃ o', st.Leads k o o' := by
  obtain ⟨first, n, r, start, circle⟩ := h
  obtain ⟨m, hm, around⟩ := circle.again k
  have long := start.trans around
  rw [show m + first = (m + first - k) + k by omega] at long
  exact long.front

/-! ## Following them -/

/-- Each reference takes one step. -/
theorem Leads.follow (h : st.Leads k o o') (steps : Nat) : st.follow (steps + k) o = st.follow steps o' := by
  induction h with
  | here => rfl
  | @next r _ _ k found _ ih =>
    rw [← Nat.add_assoc, Store.follow, found]
    exact ih

theorem follow_value (h : o.IsValue) (steps : Nat) : st.follow (steps + 1) o = o := by
  cases o with
  | ref r => exact absurd rfl (h r)
  | _ => rfl

theorem follow_missing {r : ObjRef} (h : st.get? r = none) (steps : Nat) : st.follow steps (.ref r) = .null := by
  cases steps with
  | zero => rfl
  | succ steps => rw [follow, h]

/-- **The steps end at a value, at a reference to nothing, or when they are used up.** -/
theorem follow_cases (st : Store) (steps : Nat) (o : Object) :
    (∃ k < steps, st.Leads k o (st.follow steps o) ∧ (st.follow steps o).IsValue) ∨
      ((st.Dangling o ∨ ∃ o', st.Leads steps o o') ∧ st.follow steps o = .null) := by
  induction steps generalizing o with
  | zero => exact .inr ⟨.inr ⟨o, .here o⟩, rfl⟩
  | succ steps ih =>
    by_cases hv : o.IsValue
    · rw [follow_value hv]
      exact .inl ⟨0, Nat.succ_pos steps, .here o, hv⟩
    · obtain ⟨r, rfl⟩ : ∃ r, o = .ref r := by simpa [Object.IsValue] using hv
      cases hr : st.get? r with
      | none => exact .inr ⟨.inl ⟨0, r, .here _, hr⟩, follow_missing hr _⟩
      | some o =>
        have step : st.follow (steps + 1) (.ref r) = st.follow steps o := (Leads.next hr (.here o)).follow steps
        rw [step]
        rcases ih o with ⟨k, hk, h, hv⟩ | ⟨⟨k, q, h, hq⟩ | ⟨o', h⟩, hf⟩
        · exact .inl ⟨k + 1, Nat.succ_lt_succ hk, .next hr h, hv⟩
        · exact .inr ⟨.inl ⟨k + 1, q, .next hr h, hq⟩, hf⟩
        · exact .inr ⟨.inr ⟨o', .next hr h⟩, hf⟩

/-- A value that is reached within the steps is what they end at. -/
theorem Leads.follow_eq (h : st.Leads k o v) (hv : v.IsValue) (hk : k < steps) : st.follow steps o = v := by
  obtain ⟨rest, rfl⟩ : ∃ rest, steps = rest + 1 + k := ⟨steps - 1 - k, by omega⟩
  rw [h.follow, follow_value hv]

theorem Dangling.follow (h : st.Dangling o) (steps : Nat) : st.follow steps o = .null := by
  obtain ⟨k, r, h, hr⟩ := h
  rcases Nat.lt_or_ge steps k with short | enough
  · -- the steps are used up on the way
    obtain ⟨between, front⟩ := Leads.front (n := k - steps) (by rwa [Nat.sub_add_cancel (Nat.le_of_lt short)])
    have used := front.follow 0
    rwa [Nat.zero_add] at used
  · rw [show steps = steps - k + k by omega, h.follow, follow_missing hr]

theorem Leads.follow_null (h : st.Leads steps o o') : st.follow steps o = .null := by
  have used := h.follow 0
  rwa [Nat.zero_add] at used

/-! ## Values -/

theorem null_isValue : Object.null.IsValue := fun _ => nofun

theorem resolve_isValue (st : Store) (o : Object) : (st.resolve o).IsValue := by
  rcases st.follow_cases 16 o with ⟨-, -, -, hv⟩ | ⟨-, hf⟩
  · exact hv
  · rw [resolve, hf]
    exact null_isValue

theorem resolve_resolve (st : Store) (o : Object) : st.resolve (st.resolve o) = st.resolve o :=
  follow_value (st.resolve_isValue o) 15

/-- **An object stands for the value that at most fifteen references lead to**, and for null if they lead to null, to a
reference to nothing, around in a circle or further than that.  So what it stands for is no reference and stands for
itself, and it is converted to a type as what it stands for. -/
theorem resolve_exact (st : Store) (o : Object) :
    (st.resolve o).IsValue ∧
      (∀ v, st.resolve o = v ∧ v ≠ .null ↔ v.IsValue ∧ v ≠ .null ∧ ∃ k ≤ 15, st.Leads k o v) ∧
      (st.resolve o = .null ↔
        (∃ k ≤ 15, st.Leads k o .null) ∨ st.Dangling o ∨ st.Circular o ∨ ∃ o', st.Leads 16 o o') ∧
      st.resolve (st.resolve o) = st.resolve o ∧
      ∀ (β : Type) [OfObject β], (st.as? (st.resolve o) : Option β) = st.as? o ∧
        OfObject.ofDirect? st (st.resolve o) = (st.as? o : Option β) := by
  have reached {v : Object} (hv : v.IsValue) (h : ∃ k ≤ 15, st.Leads k o v) : st.resolve o = v := by
    obtain ⟨k, hk, h⟩ := h
    exact h.follow_eq hv (Nat.lt_succ_of_le hk)
  refine ⟨st.resolve_isValue o, fun v => ⟨?_, fun ⟨hv, hn, h⟩ => ⟨reached hv h, hn⟩⟩, ⟨fun h => ?_, ?_⟩,
    st.resolve_resolve o, fun β _ => ⟨congrArg (OfObject.ofDirect? st) (st.resolve_resolve o), rfl⟩⟩
  · rintro ⟨rfl, hn⟩
    rcases st.follow_cases 16 o with ⟨k, hk, h, hv⟩ | ⟨-, hf⟩
    · exact ⟨hv, hn, k, Nat.le_of_lt_succ hk, h⟩
    · exact absurd hf hn
  · rcases st.follow_cases 16 o with ⟨k, hk, hl, -⟩ | ⟨hd | long, -⟩
    · exact .inl ⟨k, Nat.le_of_lt_succ hk, h ▸ hl⟩
    · exact .inr (.inl hd)
    · exact .inr (.inr (.inr long))
  · rintro (h | hd | circle | ⟨o', long⟩)
    · exact reached null_isValue h
    · exact hd.follow 16
    · obtain ⟨o', long⟩ := circle.leads 16
      exact long.follow_null
    · exact long.follow_null

end Store

end PdfContent
