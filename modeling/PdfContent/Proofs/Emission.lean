import PdfContent.Emission
/-!
# Emission — what is handed out before a panic

Some values are the start of those that are meant to be handed out, and all of them unless there is a panic (`StartOf`).
-/
namespace PdfContent

namespace Checked

variable {β : Type}

def getD (v : Checked β) (b : β) : β :=
  match v with
  | .ok v => v
  | .error _ => b

end Checked

namespace Emission

variable {β γ : Type} {x y : Emission β} {all rest : List β}

@[simp] theorem panic?_map (f : β → γ) (x : Emission β) : (x.map f).panic? = x.panic? := rfl

theorem append_of_none (h : x.panic? = none) : x ++ y = ⟨x.items ++ y.items, y.panic?⟩ := by
  show append x y = _
  rw [append, h]

theorem append_of_some {p : Panic} (h : x.panic? = some p) : x ++ y = x := by
  show append x y = x
  rw [append, h]

@[simp] theorem panic?_append : (x ++ y).panic? = none ↔ x.panic? = none ∧ y.panic? = none := by
  cases h : x.panic? with
  | none => simp [append_of_none h]
  | some p => simp [append_of_some h, h]

theorem of_mem_append {b : β} (h : b ∈ (x ++ y).items) : b ∈ x.items ∨ b ∈ y.items := by
  cases hp : x.panic? with
  | none => exact List.mem_append.mp (by rwa [append_of_none hp] at h)
  | some p => exact .inl (by rwa [append_of_some hp] at h)

theorem flatMap_cons (c : γ) (xs : List γ) (f : γ → Emission β) : flatMap (c :: xs) f = f c ++ flatMap xs f := rfl

theorem of_mem_flatMap {xs : List γ} {f : γ → Emission β} {b : β} (h : b ∈ (flatMap xs f).items) :
    ∃ c ∈ xs, b ∈ (f c).items := by
  induction xs with
  | nil => cases h
  | cons c xs ih =>
    rcases of_mem_append h with h | h
    · exact ⟨c, List.mem_cons_self, h⟩
    · obtain ⟨d, hd, h⟩ := ih h
      exact ⟨d, .tail _ hd, h⟩

/-- What is handed out for each of a list once some value is known. -/
theorem of_mem_flatMap_one {δ : Type} {xs : List γ} {v : γ → Checked δ} {f : γ → δ → β} {b : β}
    (h : b ∈ (flatMap xs fun c => after (v c) fun w => one (f c w)).items) : ∃ c ∈ xs, ∃ w, v c = .ok w ∧ b = f c w := by
  obtain ⟨c, hc, h⟩ := of_mem_flatMap h
  cases hv : v c with
  | ok w =>
    rw [hv] at h
    exact ⟨c, hc, w, hv, List.mem_singleton.mp h⟩
  | error p =>
    rw [hv] at h
    cases h

theorem panic?_flatMap {xs : List γ} {f : γ → Emission β} :
    (flatMap xs f).panic? = none ↔ ∀ c ∈ xs, (f c).panic? = none := by
  induction xs with
  | nil => exact ⟨fun _ => List.forall_mem_nil _, fun _ => rfl⟩
  | cons c xs ih => rw [flatMap_cons, panic?_append, ih, List.forall_mem_cons]

/-- The value is known if there is no panic, and without it nothing is handed out. -/
theorem after_cases (v : Checked γ) (f : γ → Emission β) :
    (∃ c, v = .ok c ∧ after v f = f c) ∨ ∃ p, v = .error p ∧ after v f = ⟨[], some p⟩ := by
  cases v with
  | ok c => exact .inl ⟨c, rfl, rfl⟩
  | error p => exact .inr ⟨p, rfl, rfl⟩

theorem panic?_after {v : Checked γ} {f : γ → Emission β} :
    (after v f).panic? = none ↔ ∃ c, v = .ok c ∧ (f c).panic? = none := by
  cases v with
  | ok c => simp [after]
  | error p => simp [after]

/-- The values are the first of a list, and all of it if no panic comes between them. -/
structure StartOf (x : Emission β) (all : List β) : Prop where
  start : x.items <+: all
  whole : x.panic? = none → x.items = all

namespace StartOf

theorem nil : (Emission.nil : Emission β).StartOf [] := ⟨List.prefix_refl _, fun _ => rfl⟩

theorem one (b : β) : (Emission.one b).StartOf [b] := ⟨List.prefix_refl _, fun _ => rfl⟩

theorem length_le (h : x.StartOf all) : x.items.length ≤ all.length := h.start.length_le

theorem append (hx : x.StartOf all) (hy : y.StartOf rest) : (x ++ y).StartOf (all ++ rest) := by
  cases hp : x.panic? with
  | none =>
    rw [append_of_none hp, hx.whole hp]
    exact ⟨(List.prefix_append_right_inj all).mpr hy.start, fun none => congrArg (all ++ ·) (hy.whole none)⟩
  | some p =>
    rw [append_of_some hp]
    exact ⟨hx.start.trans (List.prefix_append all rest), fun none => by simp [hp] at none⟩

theorem after {v : Checked γ} {f : γ → Emission β} (h : ∀ c, v = .ok c → (f c).StartOf all) :
    (Emission.after v f).StartOf all := by
  cases v with
  | ok c => exact h c rfl
  | error p => exact ⟨List.nil_prefix, fun none => by cases none⟩

theorem flatMap {xs : List γ} {f : γ → Emission β} {g : γ → List β} (h : ∀ c ∈ xs, (f c).StartOf (g c)) :
    (Emission.flatMap xs f).StartOf (xs.flatMap g) := by
  induction xs with
  | nil => exact nil
  | cons c xs ih =>
    obtain ⟨hc, hxs⟩ := List.forall_mem_cons.mp h
    exact hc.append (ih hxs)

theorem map (f : β → γ) (h : x.StartOf all) : (x.map f).StartOf (all.map f) :=
  ⟨h.start.map f, fun none => congrArg (List.map f) (h.whole none)⟩

/-- One value for each of a list that can be computed. -/
theorem flatMap_one {δ : Type} (xs : List γ) (v : γ → Checked δ) (f : γ → δ → β) (d : δ) :
    (Emission.flatMap xs fun c => .after (v c) fun w => .one (f c w)).StartOf
      (xs.map fun c => f c ((v c).getD d)) := by
  rw [List.map_eq_flatMap]
  refine flatMap fun c _ => after fun w hw => ?_
  rw [hw]
  exact one _

end StartOf

end Emission

end PdfContent
