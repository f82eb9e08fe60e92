import Mathlib.Data.List.Chain
import PdfContent.Content.Operator
/-!
# Operator — the table of operators and the operands they accept

The rows of the table stand in the strict order of the bytes of their names, so a name has at most one row
(`row_unique`) and halving the table finds it (`search?_go_between`, `find?_eq_some_iff`).  Whether operands are accepted, and why not, is said by
`Accepts` and `Rejects`; `select` decides between the two.
-/
namespace PdfContent.Operator

/-! ## The table -/

set_option maxRecDepth 1024 in
theorem all_sorted : all.Pairwise fun op op' => Bytes.ofText op.name < Bytes.ofText op'.name := by
  -- the order is transitive, so neighbours are enough
  have chain : (all.map fun op => Bytes.ofText op.name).IsChain (· < ·) := by decide
  exact List.pairwise_map.mp (List.isChain_iff_pairwise.mp chain)

/-- A name has at most one row. -/
theorem row_unique {op op' : Operator} (h : op ∈ all) (h' : op' ∈ all)
    (he : Bytes.ofText op'.name = Bytes.ofText op.name) : op' = op := by
  have ordered := all_sorted
  generalize all = l at h h' ordered
  induction l with
  | nil => cases h
  | cons x l ih =>
    obtain ⟨first, ordered⟩ := List.pairwise_cons.mp ordered
    have apart : ∀ y ∈ l, Bytes.ofText x.name ≠ Bytes.ofText y.name := by
      intro y hy heq
      have := first y hy
      rw [heq] at this
      exact List.lt_irrefl _ this
    rcases List.mem_cons.mp h with hx | hl
    · rcases List.mem_cons.mp h' with hx' | hl'
      · rw [hx, hx']
      · exact absurd (hx ▸ he.symm) (apart op' hl')
    · rcases List.mem_cons.mp h' with hx' | hl'
      · exact absurd (hx' ▸ he) (apart op hl)
      · exact ih hl hl' ordered

theorem order_eq_lt_iff {a b : Bytes} : order a b = .lt ↔ a < b := by
  unfold order
  split
  · simp [*]
  · split <;> simp [*]

theorem order_eq_eq_iff {a b : Bytes} : order a b = .eq ↔ a = b := by
  unfold order
  split
  case isTrue less => exact ⟨nofun, fun same => absurd (same ▸ less) (List.lt_irrefl a)⟩
  case isFalse => split <;> simp [*]

theorem order_eq_gt {a b : Bytes} (h : b < a) : order a b = .gt := by
  rw [order, if_neg (List.lt_asymm h), if_neg fun same => List.lt_irrefl _ (same ▸ h)]

section

variable {β : Type} {side : β → Ordering} {x : β}

theorem search?_go_some {fuel : Nat} {xs : List β} (h : search?.go side fuel xs = some x) : x ∈ xs ∧ side x = .eq := by
  induction fuel generalizing xs with
  | zero => cases h
  | succ fuel ih =>
    rw [search?.go] at h
    split at h
    · obtain ⟨head, same⟩ := Option.filter_eq_some_iff.mp h
      exact ⟨List.mem_of_mem_head? head, of_decide_eq_true same⟩
    · split at h
      · exact (ih h).imp_left List.mem_of_mem_take
      · exact (ih h).imp_left List.mem_of_mem_drop

/-- The half that is kept has the element with lesser ones before it and greater ones behind it. -/
theorem search?_go_between (side : β → Ordering) (same : side x = .eq) : ∀ (fuel : Nat) (before after : List β),
    (before ++ x :: after).length ≤ fuel → (∀ y ∈ before, side y = .lt) → (∀ y ∈ after, side y = .gt) →
      search?.go side fuel (before ++ x :: after) = some x
  | 0, before, after, room, _, _ => by simp at room
  | fuel + 1, before, after, room, less, greater => by
    have count : (before ++ x :: after).length = before.length + after.length + 1 := by simp; omega
    rw [search?.go]
    generalize hm : (before ++ x :: after).length / 2 = half
    rw [count] at room hm
    split
    case isTrue one =>
      obtain ⟨rfl, rfl⟩ : before = [] ∧ after = [] := by
        constructor <;> exact List.eq_nil_of_length_eq_zero (by omega)
      simp [same]
    case isFalse several =>
    -- the middle element is greater exactly if it stands behind the element
    by_cases behind : before.length < half
    · have middle : (before ++ x :: after)[half]?.map side = some .gt := by
        rw [List.getElem?_append_right (by omega), List.getElem?_cons, if_neg (by omega),
          List.getElem?_eq_getElem (by omega), Option.map_some, greater _ (List.getElem_mem _)]
      have kept : (before ++ x :: after).take ((before ++ x :: after).length - half) =
          before ++ x :: after.take (after.length - half) := by
        rw [count, List.take_append, List.take_of_length_le (by omega),
          show before.length + after.length + 1 - half - before.length = after.length - half + 1 by omega,
          List.take_succ_cons]
      rw [if_pos middle, kept]
      exact search?_go_between side same fuel before _ (by simp; omega) less fun y hy => greater y (List.mem_of_mem_take hy)
    · have middle : (before ++ x :: after)[half]?.map side ≠ some .gt := by
        rcases Nat.lt_or_eq_of_le (Nat.le_of_not_lt behind) with inside | here
        · rw [List.getElem?_append_left inside, List.getElem?_eq_getElem inside, Option.map_some,
            less _ (List.getElem_mem _)]
          decide
        · rw [here, List.getElem?_append_right (Nat.le_refl _), Nat.sub_self, List.getElem?_cons_zero, Option.map_some,
            same]
          decide
      rw [if_neg middle, List.drop_append_of_le_length (Nat.le_of_not_lt behind)]
      exact search?_go_between side same fuel _ after (by simp; omega) (fun y hy => less y (List.mem_of_mem_drop hy)) greater

end

/-- **The search finds the row of a name.**  That the rows stand in the order of their names is what it rests on. -/
theorem find?_eq_some_iff {name : Bytes} {op : Operator} :
    find? name = some op ↔ op ∈ all ∧ Bytes.ofText op.name = name := by
  simp only [find?, search?, Option.map_eq_some_iff, Prod.exists, exists_eq_right]
  constructor
  · rintro ⟨key, found⟩
    obtain ⟨row, same⟩ := search?_go_some found
    obtain ⟨op, mem, ⟨rfl, rfl⟩⟩ := List.mem_map.mp row
    exact ⟨mem, order_eq_eq_iff.mp same⟩
  · rintro ⟨mem, rfl⟩
    obtain ⟨before, after, rows⟩ := List.append_of_mem mem
    have ordered := all_sorted
    rw [rows, List.pairwise_append, List.pairwise_cons] at ordered
    obtain ⟨-, ⟨behind, -⟩, first⟩ := ordered
    refine ⟨Bytes.ofText op.name, ?_⟩
    rw [byName, rows, List.map_append, List.map_cons]
    refine search?_go_between (fun row : Bytes × Operator => order row.1 (Bytes.ofText op.name))
      (order_eq_eq_iff.mpr rfl) _ _ _ (Nat.le_refl _) ?_ ?_
    · exact List.forall_mem_map.mpr fun row hr => order_eq_lt_iff.mpr (first row hr op (.head _))
    · exact List.forall_mem_map.mpr fun row hr => order_eq_gt (behind row hr)

theorem find?_eq_none_iff {name : Bytes} : find? name = none ↔ ∀ op ∈ all, Bytes.ofText op.name ≠ name := by
  simp only [Option.eq_none_iff_forall_ne_some, ne_eq, find?_eq_some_iff, not_and]

/-! ## Operands -/

def Admits (op : Operator) (count : Nat) : Prop :=
  match op.arity with
  | .exact n => n ≤ count
  | .atMost n => count ≤ n

/-- The operands that count: the last ones, if the number is fixed. -/
def relevant (op : Operator) (operands : List Object) : List Object :=
  match op.arity with
  | .exact n => operands.drop (operands.length - n)
  | .atMost _ => operands

/-- There are enough operands and not too many, and each that counts is of its type. -/
structure Accepts (op : Operator) (operands : List Object) : Prop where
  admits : op.Admits operands.length
  typed : ∀ i o, (op.relevant operands)[i]? = some o → (op.check i).accepts o = true

/-- What is wrong with operands: their number, or the first one of a wrong type. -/
inductive Rejects (op : Operator) (operands : List Object) : Diagnostic → Prop where
  | tooFew {n} (ha : op.arity = .exact n) (h : operands.length < n) :
      Rejects op operands (.tooFewArguments op.name n operands.length)
  | tooMany {n} (ha : op.arity = .atMost n) (h : n < operands.length) :
      Rejects op operands (.tooManyArguments op.name n operands.length)
  | type {i o} (ha : op.Admits operands.length) (h : (op.relevant operands)[i]? = some o)
      (hw : (op.check i).accepts o = false)
      (hb : ∀ j p, j < i → (op.relevant operands)[j]? = some p → (op.check j).accepts p = true) :
      Rejects op operands (.argumentType op.name i o.typeName)

variable {op : Operator} {operands : List Object}

/-- What is rejected is not accepted. -/
theorem Rejects.not_accepts {d : Diagnostic} (h : op.Rejects operands d) : ¬op.Accepts operands := by
  rintro ⟨ha, ht⟩
  cases h with
  | tooFew hn h =>
    rw [Admits, hn] at ha
    exact absurd h (Nat.not_lt.mpr ha)
  | tooMany hn h =>
    rw [Admits, hn] at ha
    exact absurd h (Nat.not_lt.mpr ha)
  | type _ h hw =>
    rw [ht _ _ h] at hw
    cases hw

theorem take_eq (op : Operator) (operands : List Object) :
    op.Admits operands.length ∧ op.take operands = .ok (op.relevant operands) ∨
      ¬op.Admits operands.length ∧ ∃ d, op.take operands = .error d ∧ op.Rejects operands d := by
  unfold take Admits relevant
  cases ha : op.arity with
  | exact n =>
    by_cases h : operands.length < n
    · exact .inr ⟨Nat.not_le.mpr h, _, if_pos h, .tooFew ha h⟩
    · exact .inl ⟨Nat.not_lt.mp h, if_neg h⟩
  | atMost n =>
    by_cases h : operands.length > n
    · exact .inr ⟨Nat.not_le.mpr h, _, if_pos h, .tooMany ha h⟩
    · exact .inl ⟨Nat.not_lt.mp h, if_neg h⟩

theorem mismatch?_eq_none {taken : List Object} :
    op.mismatch? taken = none ↔ ∀ i o, taken[i]? = some o → (op.check i).accepts o = true := by
  rw [mismatch?, Option.map_eq_none_iff, List.find?_eq_none]
  constructor
  · intro h i o ho
    have := h (o, i) (List.mem_zipIdx_iff_getElem?.mpr ho)
    simpa using this
  · rintro h ⟨o, i⟩ hm
    have := h i o (List.mem_zipIdx_iff_getElem?.mp hm)
    simp [this]

theorem mismatch?_eq_some {taken : List Object} {i : Nat} {o : Object} (h : op.mismatch? taken = some (i, o)) :
    taken[i]? = some o ∧ (op.check i).accepts o = false ∧
      ∀ j p, j < i → taken[j]? = some p → (op.check j).accepts p = true := by
  obtain ⟨⟨o', i'⟩, hf, he⟩ := Option.map_eq_some_iff.mp h
  obtain ⟨rfl, rfl⟩ := Prod.mk.inj he
  obtain ⟨hw, k, hk, hx, hb⟩ := List.find?_eq_some_iff_getElem.mp hf
  rw [List.getElem_zipIdx, Nat.zero_add] at hx
  obtain ⟨rfl, rfl⟩ := Prod.mk.inj hx
  rw [List.length_zipIdx] at hk
  refine ⟨List.getElem?_eq_getElem hk, by simpa using hw, fun j p hj hp => ?_⟩
  have := hb j hj
  obtain ⟨hlt, rfl⟩ := List.getElem?_eq_some_iff.mp hp
  simpa using this

/-- **Operands are selected if they are accepted**, and else it is reported what is wrong with them. -/
theorem select_eq (op : Operator) (operands : List Object) :
    op.Accepts operands ∧ op.select operands = .ok (op.relevant operands) ∨
      ¬op.Accepts operands ∧ ∃ d, op.select operands = .error d ∧ op.Rejects operands d := by
  unfold select
  rcases op.take_eq operands with ⟨ha, ht⟩ | ⟨ha, d, ht, hd⟩
  · rw [ht]
    cases hm : op.mismatch? (op.relevant operands) with
    | none => exact .inl ⟨⟨ha, mismatch?_eq_none.mp hm⟩, by simp [Except.bind, hm]⟩
    | some e =>
      obtain ⟨hi, hw, hb⟩ := mismatch?_eq_some hm
      have hr := Rejects.type ha hi hw hb
      exact .inr ⟨hr.not_accepts, _, by simp [Except.bind, hm], hr⟩
  · rw [ht]
    exact .inr ⟨fun h => ha h.admits, d, rfl, hd⟩

/-- Operands are not refused with a panic. -/
theorem panic?_of_select {d : Diagnostic} (h : op.select operands = .error d) : d.panic? = none := by
  rcases op.select_eq operands with ⟨-, hs⟩ | ⟨-, e, hs, rejects⟩
  · cases hs.symm.trans h
  · cases hs.symm.trans h
    cases rejects <;> rfl

theorem length_of_select {taken : List Object} {n : Nat} (h : op.select operands = .ok taken)
    (ha : op.arity = .exact n) : taken.length = n := by
  rcases op.select_eq operands with ⟨accepted, hs⟩ | ⟨-, d, hs, -⟩
  · have admitted := accepted.admits
    cases hs.symm.trans h
    rw [Admits, ha] at admitted
    rw [relevant, ha, List.length_drop]
    omega
  · cases hs.symm.trans h

/-! ## Operators of one operand -/

variable {name : String} {t : OperandType} {o : Operation} {x : Object}

theorem relevant_one (h : operands.getLast? = some x) : (of name [t] o).relevant operands = [x] := by
  have last : (of name [t] o).relevant operands = operands.drop (operands.length - 1) := rfl
  obtain ⟨init, rfl⟩ := List.getLast?_eq_some_iff.mp h
  rw [last, List.length_append, List.length_singleton, Nat.add_sub_cancel, List.drop_left]

/-- An operator of one operand takes the last one. -/
theorem accepts_one_iff : (of name [t] o).Accepts operands ↔ ∃ x, operands.getLast? = some x ∧ t.accepts x = true := by
  constructor
  · rintro ⟨admits, typed⟩
    cases last : operands.getLast? with
    | none =>
      rw [List.getLast?_eq_none_iff.mp last] at admits
      cases admits
    | some x => exact ⟨x, rfl, typed 0 x (by rw [relevant_one last]; rfl)⟩
  · rintro ⟨x, last, ht⟩
    obtain ⟨init, rfl⟩ := List.getLast?_eq_some_iff.mp last
    refine ⟨?_, fun i y hy => ?_⟩
    · show 1 ≤ (init ++ [x]).length
      simp
    · rw [relevant_one last] at hy
      obtain ⟨rfl, rfl⟩ : i = 0 ∧ x = y := by
        cases i with
        | zero => exact ⟨rfl, Option.some.inj hy⟩
        | succ i => cases hy
      exact ht

end PdfContent.Operator
