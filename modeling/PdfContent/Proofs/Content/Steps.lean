import PdfContent.Proofs.Content.Item
/-!
# Steps — reading with a bound on the number of steps

What reads containers and content goes on as long as there are tokens.  With a bound on its steps it unfolds on given
bytes, and where the bound is enough it reads the same (`container_of_steps`, `items_of_steps`, `items_of_plain`).
-/
namespace PdfContent

namespace Reading

/-- Reads the containers that are open to their end, if that takes fewer steps than given. -/
def containerIn? (references : Bool) : Nat → List Frame → Frame → Bytes → Option (Object × Bytes)
  | 0, _, _, _ => none
  | steps + 1, outer, top, s =>
    match Token.next? s with
    | none => some (closeAll outer top, [])
    | some (t, rest) =>
      match step references outer top t rest with
      | .done o rest => some (o, rest)
      | .more outer top rest => containerIn? references steps outer top rest

theorem container_of_steps {references : Bool} : ∀ {steps : Nat} {outer : List Frame} {top : Frame} {s : Bytes}
    {r : Object × Bytes}, containerIn? references steps outer top s = some r → container references outer top s = r
  | steps + 1, outer, top, s, r, h => by
    rw [containerIn?] at h
    rw [container.eq_def]
    split
    · rename_i hn
      rw [hn] at h
      exact Option.some.inj h
    · rename_i t rest hn
      rw [hn] at h
      dsimp only at h
      split
      · rename_i hs
        rw [hs] at h
        exact Option.some.inj h
      · rename_i hs
        rw [hs] at h
        exact container_of_steps h

/-- The object that starts with a token, if reading it takes fewer steps than given. -/
def objectIn? (steps : Nat) (t : Token) (rest : Bytes) : Option (Option Object × Bytes) :=
  match t with
  | .arrayStart => (containerIn? false steps [] (.array []) rest).map fun r => (some r.1, r.2)
  | .dictStart => (containerIn? false steps [] (.dict [] none) rest).map fun r => (some r.1, r.2)
  | _ => some (scalar? false t rest)

theorem objectFrom_of_steps {steps : Nat} {t : Token} {rest : Bytes} {r : Option Object × Bytes}
    (h : objectIn? steps t rest = some r) : objectFrom false t rest = r := by
  cases t
  case arrayStart | dictStart =>
    obtain ⟨r, hr, rfl⟩ := Option.map_eq_some_iff.1 h
    rw [objectFrom, container_of_steps hr]
  all_goals exact Option.some.inj h

end Reading

namespace Content

/-- The items of content, if there are fewer steps to them than given. -/
def itemsIn? : Nat → Bytes → Option (List Token)
  | 0, _ => none
  | steps + 1, s =>
    match PdfContent.Token.next? s with
    | none => some []
    | some (.keyword word, rest) =>
      (itemsIn? steps rest).map (((Reading.constant? word).elim (.command word) .operand) :: ·)
    | some (t, rest) =>
      match Reading.objectIn? steps t rest with
      | none => none
      | some (some o, rest) => (itemsIn? steps rest).map (.operand o :: ·)
      | some (none, _) => itemsIn? steps rest

theorem items_of_steps : ∀ {steps : Nat} {s : Bytes} {items : List Token}, itemsIn? steps s = some items →
    (tokens s).map Prod.fst = items
  | steps + 1, s, items, h => by
    rw [itemsIn?] at h
    split at h
    · rename_i hn
      rw [tokens_of_none (next?_end hn)]
      exact Option.some.inj h
    · rename_i word rest hn
      obtain ⟨items, hi, rfl⟩ := Option.map_eq_some_iff.1 h
      cases hw : Reading.constant? word with
      | none => rw [tokens_of_some (next?_keyword hn hw), List.map_cons, items_of_steps hi, Option.elim]
      | some o => rw [tokens_of_some (next?_constant hn hw), List.map_cons, items_of_steps hi, Option.elim]
    · rename_i t rest ht hn
      split at h
      · cases h
      · rename_i o rest' ho
        obtain ⟨items, hi, rfl⟩ := Option.map_eq_some_iff.1 h
        rw [tokens_of_some (next?_object hn ht (Reading.objectFrom_of_steps ho)), List.map_cons, items_of_steps hi]
      · rename_i rest' ho
        have skipped := next?_skip hn ht (Reading.objectFrom_of_steps ho)
        rw [tokens.eq_def, skipped, ← tokens.eq_def]
        exact items_of_steps h

/-- The next item of content, if there are fewer steps to it than given. -/
def nextIn? : Nat → Bytes → Option (Option (Token × Bytes))
  | 0, _ => none
  | steps + 1, s =>
    match PdfContent.Token.next? s with
    | none => some none
    | some (.keyword word, rest) => some (some ((Reading.constant? word).elim (.command word) .operand, rest))
    | some (t, rest) =>
      match Reading.objectIn? steps t rest with
      | none => none
      | some (some o, rest) => some (some (.operand o, rest))
      | some (none, _) => nextIn? steps rest

theorem next?_of_steps : ∀ {steps : Nat} {s : Bytes} {r : Option (Token × Bytes)}, nextIn? steps s = some r → next? s = r
  | steps + 1, s, r, h => by
    rw [nextIn?] at h
    split at h
    · rename_i hn
      cases h
      exact next?_end hn
    · rename_i word rest hn
      cases h
      cases hw : Reading.constant? word with
      | none => exact next?_keyword hn hw
      | some o => exact next?_constant hn hw
    · rename_i t rest ht hn
      split at h
      · cases h
      · rename_i o rest' ho
        cases h
        exact next?_object hn ht (Reading.objectFrom_of_steps ho)
      · rename_i rest' ho
        rw [next?_skip hn ht (Reading.objectFrom_of_steps ho)]
        exact next?_of_steps h

/-- The items of content of `total` bytes without inline images, if there are fewer steps to them than given. -/
def plainItemsIn? (total : Nat) : Nat → Bytes → Option (List Item)
  | 0, _ => none
  | steps + 1, s =>
    match nextIn? steps s with
    | none => none
    | some none => some []
    | some (some (.operand o, rest)) =>
      (plainItemsIn? total steps rest).map (.operand o (.mk fun _ => total - rest.length) :: ·)
    | some (some (.command name, rest)) =>
      if name == imageWord then none else (plainItemsIn? total steps rest).map (.command name none :: ·)

theorem itemsFrom_of_plain {st : Store} {total : Nat} : ∀ {steps : Nat} {s : Bytes} {items : List Item},
    plainItemsIn? total steps s = some items → itemsFrom st total s = items
  | steps + 1, s, items, h => by
    rw [plainItemsIn?] at h
    split at h
    · cases h
    · rename_i hn
      cases h
      exact itemsFrom_end (next?_of_steps hn)
    · rename_i o rest hn
      obtain ⟨items, hi, rfl⟩ := Option.map_eq_some_iff.1 h
      rw [itemsFrom_operand (next?_of_steps hn), itemsFrom_of_plain hi]
    · rename_i name rest hn
      split at h
      · cases h
      · rename_i plain
        obtain ⟨items, hi, rfl⟩ := Option.map_eq_some_iff.1 h
        rw [itemsFrom_command (next?_of_steps hn) (Bool.eq_false_iff.2 plain), itemsFrom_of_plain hi]

theorem items_of_plain {st : Store} (steps : Nat) {data : Bytes} {list : List Item}
    (h : plainItemsIn? data.length steps data = some list) : items st data = list :=
  itemsFrom_of_plain h

end Content
end PdfContent
