import PdfContent.Drawing.Execute
import PdfContent.Proofs.Content.Operator
/-!
# Command — a command runs its operator or changes nothing

A command whose operands do not fit leaves the machine alone but for one report; else the handler of its row runs, on the
operands that count (`command_atomic`).  The operands that wait for a command are never more than the table allows.
-/
namespace PdfContent.Machine

variable {α : Type} [Scalar α] (env : Environment α) (inner : Inner α)

/-! ## Operands that wait for a command -/

theorem length_item_le {x : List Object × Machine α} (h : x.1.length ≤ maxOperands) (i : Content.Item) :
    (item env inner x i).1.length ≤ maxOperands := by
  obtain ⟨operands, m⟩ := x
  cases i with
  | command name image => exact Nat.zero_le _
  | panic p => exact Nat.zero_le _
  | operand o stop =>
    unfold item
    dsimp only
    by_cases hlt : operands.length < maxOperands
    · rw [if_pos hlt]
      exact hlt
    · rw [if_neg hlt]
      exact h

/-- **Never more than 33 operands wait**, however many stand in a row. -/
theorem length_foldl_item_le (items : List Content.Item) {x : List Object × Machine α} (h : x.1.length ≤ maxOperands) :
    (items.foldl (item env inner) x).1.length ≤ maxOperands := by
  induction items generalizing x with
  | nil => exact h
  | cons i items ih => exact ih (length_item_le env inner h i)

/-- A command takes all operands that wait. -/
theorem foldl_item_command (items : List Content.Item) (name : Bytes) (image : Option Content.ImageSource)
    (x : List Object × Machine α) : ((items ++ [Content.Item.command name image]).foldl (item env inner) x).1 = [] := by
  rw [List.foldl_append]
  rfl

/-! ## One command -/

variable {env inner} {name : Bytes} {operands : List Object} {image : Option Content.ImageSource} {m : Machine α}

theorem command_of_not_row (h : ∀ op ∈ Operator.all, Bytes.ofText op.name ≠ name) :
    m.command env inner name operands image =
      if m.compatibility = 0 then m.report (.unknownOperator (Unicode.ofUtf8 name)) else m := by
  rw [command, Operator.find?_eq_none_iff.mpr h]
  simp only [beq_iff_eq]

variable (operands image m) in
theorem command_of_row {op : Operator} (hop : op ∈ Operator.all) (hn : Bytes.ofText op.name = name) :
    (op.Accepts operands ∧ m.command env inner name operands image = m.perform env inner op (op.relevant operands) image) ∨
      ¬op.Accepts operands ∧ ∃ d, op.Rejects operands d ∧ m.command env inner name operands image = m.report d := by
  rw [command, Operator.find?_eq_some_iff.mpr ⟨hop, hn⟩]
  rcases op.select_eq operands with ⟨ha, hs⟩ | ⟨ha, d, hs, hd⟩
  · exact .inl ⟨ha, by simp only [hs]⟩
  · exact .inr ⟨ha, d, hd, by simp only [hs]⟩

variable (operands image m) in
/-- A command that takes a name runs on the last operand, or reports what is wrong with it. -/
theorem command_name {name : String} {o : Operation} (row : Operator.of name [.name] o ∈ Operator.all) :
    (∃ n, operands.getLast? = some (.name n) ∧
      m.command env inner (Bytes.ofText name) operands image = m.perform env inner (.of name [.name] o) [.name n] image) ∨
    operands.getLast?.bind Object.name? = none ∧
      ∃ d, (Operator.of name [.name] o).Rejects operands d ∧
        m.command env inner (Bytes.ofText name) operands image = m.report d := by
  rcases command_of_row operands image m row rfl with ⟨accepted, performed⟩ | ⟨rejected, reported⟩
  case inl =>
    obtain ⟨x, last, isName⟩ := Operator.accepts_one_iff.mp accepted
    rw [Operator.relevant_one last] at performed
    cases x <;> cases isName
    exact .inl ⟨_, last, performed⟩
  case inr =>
    refine .inr ⟨Option.bind_eq_none_iff.mpr fun x last => ?_, reported⟩
    cases x with
    | name n => exact absurd (Operator.accepts_one_iff.mpr ⟨_, last, rfl⟩) rejected
    | _ => rfl

/-- **A command is executed or changes nothing.**  Without a row of its name it is reported, unless unknown operators are
ignored.  With one, which is the only one, operands that are not accepted are reported by what is wrong with them; else
the name is put into the history and the handler of the row runs on the operands that count.  At most 33 operands wait
for a command, and none after it. -/
theorem command_atomic (env : Environment α) (inner : Inner α) (m : Machine α) (name : Bytes) (operands : List Object)
    (image : Option Content.ImageSource) :
    ((∀ op ∈ Operator.all, Bytes.ofText op.name ≠ name) →
      m.command env inner name operands image =
        if m.compatibility = 0 then m.report (.unknownOperator (Unicode.ofUtf8 name)) else m) ∧
    (∀ op ∈ Operator.all, Bytes.ofText op.name = name →
      (∀ op' ∈ Operator.all, Bytes.ofText op'.name = name → op' = op) ∧
      (¬op.Accepts operands →
        ∃ d, op.Rejects operands d ∧ m.command env inner name operands image = m.report d) ∧
      (op.Accepts operands →
        (m.command env inner name operands image).toMoment =
          ({ m with history := m.history.push op.name }.execute env inner op ⟨op.relevant operands⟩ image).toMoment)) ∧
    ∀ items : List Content.Item,
      (items.foldl (item env inner) ([], m)).1.length ≤ 33 ∧
        ∀ name image, ((items ++ [Content.Item.command name image]).foldl (item env inner) ([], m)).1 = [] := by
  refine ⟨command_of_not_row, fun op hop hn => ⟨fun op' hop' hn' => ?_, fun ha => ?_, fun ha => ?_⟩, fun items => ⟨?_, ?_⟩⟩
  · exact Operator.row_unique hop hop' (hn'.trans hn.symm)
  · rcases command_of_row operands image m hop hn with ⟨ha', -⟩ | ⟨-, hd⟩
    · exact absurd ha' ha
    · exact hd
  · rcases command_of_row operands image m hop hn with ⟨-, hp⟩ | ⟨ha', -⟩
    · rw [hp]
      rfl
    · exact absurd ha ha'
  · exact length_foldl_item_le env inner items (Nat.zero_le _)
  · exact fun name image => foldl_item_command env inner items name image _

/-- Of five numbers the last four make a rectangle, and three are too few for one. -/
theorem rectangle_command :
    let env : Environment Float := ⟨.empty, .silent, true, .default⟩
    let page : Machine Float := start env [] .empty .identity
    let op := Operator.numbers "re" 4 .rectangle
    let number (i : Int) : Object := .num (.int i)
    op ∈ Operator.all ∧ op.Accepts ([9, 0, 0, 5, 5].map number) ∧ ¬op.Accepts ([0, 5, 5].map number) ∧
      (page.command env (run env levels) (Bytes.ofText "re") ([9, 0, 0, 5, 5].map number) none).toMoment =
        ({ page with history := page.history.push "re" }.execute env (run env levels) op
          ⟨[0, 0, 5, 5].map number⟩ none).toMoment ∧
      ∃ d, op.Rejects ([0, 5, 5].map number) d ∧
        page.command env (run env levels) (Bytes.ofText "re") ([0, 5, 5].map number) none = page.report d := by
  intro env page op number
  have row : op ∈ Operator.all := by decide
  have accepted : op.Accepts ([9, 0, 0, 5, 5].map number) :=
    ⟨show 4 ≤ 5 by decide, Operator.mismatch?_eq_none.mp rfl⟩
  have rejected : ¬op.Accepts ([0, 5, 5].map number) := fun h => absurd (show 4 ≤ 3 from h.admits) (by decide)
  have one := ((command_atomic env (run env levels) page (Bytes.ofText "re") ([9, 0, 0, 5, 5].map number) none).2.1
    op row rfl).2.2 accepted
  have two := ((command_atomic env (run env levels) page (Bytes.ofText "re") ([0, 5, 5].map number) none).2.1
    op row rfl).2.1 rejected
  exact ⟨row, accepted, rejected, one, two⟩

end PdfContent.Machine
