import PdfContent.Content.Item
/-!
# Item — how content is cut, one item at a time

A word that is no object is a command, and an object is an operand.
-/
namespace PdfContent.Content

variable {s rest : Bytes}

theorem next?_keyword {word : Bytes} (h : PdfContent.Token.next? s = some (.keyword word, rest))
    (hw : Reading.constant? word = none) : next? s = some (.command word, rest) := by
  rw [next?.eq_def]
  split
  case h_1 hn => cases hn.symm.trans h
  case h_2 hn =>
    cases hn.symm.trans h
    simp only [hw]

theorem next?_constant {word : Bytes} {o : Object} (h : PdfContent.Token.next? s = some (.keyword word, rest))
    (hw : Reading.constant? word = some o) : next? s = some (.operand o, rest) := by
  rw [next?.eq_def]
  split
  case h_1 hn => cases hn.symm.trans h
  case h_2 hn =>
    cases hn.symm.trans h
    simp only [hw]

theorem next?_object {t : PdfContent.Token} {o : Object} {rest' : Bytes}
    (h : PdfContent.Token.next? s = some (t, rest)) (ht : ∀ w, t ≠ .keyword w)
    (ho : Reading.objectFrom false t rest = (some o, rest')) : next? s = some (.operand o, rest') := by
  rw [next?.eq_def]
  split
  case h_1 hn => cases hn.symm.trans h
  case h_2 hn =>
    cases hn.symm.trans h
    cases t with
    | keyword w => exact absurd rfl (ht w)
    | _ => simp only [ho]

theorem next?_number {n : Number} (h : PdfContent.Token.next? s = some (.number n, rest)) :
    next? s = some (.operand (.num n), rest) :=
  next?_object h (fun _ => nofun) rfl

theorem next?_name {n : Name} (h : PdfContent.Token.next? s = some (.name n, rest)) :
    next? s = some (.operand (.name n), rest) :=
  next?_object h (fun _ => nofun) rfl

theorem next?_string {b : Bytes} (h : PdfContent.Token.next? s = some (.string b, rest)) :
    next? s = some (.operand (.str b), rest) :=
  next?_object h (fun _ => nofun) rfl

/-- What is no item is skipped. -/
theorem next?_skip {t : PdfContent.Token} {rest' : Bytes} (h : PdfContent.Token.next? s = some (t, rest))
    (ht : ∀ w, t ≠ .keyword w) (ho : Reading.objectFrom false t rest = (none, rest')) : next? s = next? rest := by
  rw [next?.eq_def]
  split
  case h_1 hn => cases hn.symm.trans h
  case h_2 hn =>
    cases hn.symm.trans h
    cases t with
    | keyword w => exact absurd rfl (ht w)
    | _ => simp only [ho]

theorem next?_end (h : PdfContent.Token.next? s = none) : next? s = none := by
  rw [next?.eq_def]
  split
  case h_1 => rfl
  case h_2 hn => cases hn.symm.trans h

/-- An item depends on the first token and on what follows that. -/
theorem next?_congr {s' : Bytes} (h : PdfContent.Token.next? s = PdfContent.Token.next? s') : next? s = next? s' := by
  cases hs : PdfContent.Token.next? s with
  | none => rw [next?_end hs, next?_end (h.symm.trans hs)]
  | some x =>
    obtain ⟨t, rest⟩ := x
    have hs' := h.symm.trans hs
    by_cases ht : ∃ w, t = .keyword w
    · obtain ⟨w, rfl⟩ := ht
      cases hw : Reading.constant? w with
      | none => rw [next?_keyword hs hw, next?_keyword hs' hw]
      | some o => rw [next?_constant hs hw, next?_constant hs' hw]
    · have ht : ∀ w, t ≠ .keyword w := fun w hw => ht ⟨w, hw⟩
      cases ho : Reading.objectFrom false t rest with
      | mk o rest' =>
        cases o with
        | none => rw [next?_skip hs ht ho, next?_skip hs' ht ho]
        | some o => rw [next?_object hs ht ho, next?_object hs' ht ho]

theorem tokens_of_none (h : next? s = none) : tokens s = [] := by
  rw [tokens.eq_def]
  split
  case h_1 => rfl
  case h_2 h' => cases h.symm.trans h'

theorem tokens_of_some {t : Token} (h : next? s = some (t, rest)) : tokens s = (t, rest) :: tokens rest := by
  rw [tokens.eq_def]
  split
  case h_1 h' => cases h.symm.trans h'
  case h_2 h' =>
    cases h.symm.trans h'
    rfl

/-! ## Inline images -/

theorem imageOperands_congr {s' : Bytes} (h : next? s = next? s') : imageOperands s = imageOperands s' := by
  rw [imageOperands, imageOperands.eq_def s', h]

theorem imageOperands_data (h : next? s = some (.command dataWord, rest)) : imageOperands s = ([], [], some rest) := by
  rw [imageOperands, h]
  rfl

theorem imageOperands_command {name : Bytes} (h : next? s = some (.command name, rest)) (hn : name ≠ dataWord) :
    imageOperands s = ((imageOperands rest).1, notAName :: (imageOperands rest).2.1, (imageOperands rest).2.2) := by
  rw [imageOperands, h]
  simp only [beq_eq_false_iff_ne.mpr hn, Bool.false_eq_true, ↓reduceIte]

theorem imageOperands_operand {o : Object} (h : next? s = some (.operand o, rest)) :
    imageOperands s = (o :: (imageOperands rest).1, (imageOperands rest).2.1, (imageOperands rest).2.2) := by
  rw [imageOperands, h]

/-! ## Content -/

variable {st : Store} {total : Nat}

theorem itemsFrom_congr {s' : Bytes} (h : next? s = next? s') : itemsFrom st total s = itemsFrom st total s' := by
  rw [itemsFrom, itemsFrom.eq_def st total s', h]

theorem itemsFrom_end (h : next? s = none) : itemsFrom st total s = [] := by
  rw [itemsFrom, h]

theorem itemsFrom_nil : itemsFrom st total [] = [] := itemsFrom_end (next?_end rfl)

theorem itemsFrom_operand {o : Object} (h : next? s = some (.operand o, rest)) :
    itemsFrom st total s = .operand o (.mk fun _ => total - rest.length) :: itemsFrom st total rest := by
  rw [itemsFrom, h]

theorem itemsFrom_command {name : Bytes} (h : next? s = some (.command name, rest)) (hn : (name == imageWord) = false) :
    itemsFrom st total s = .command name none :: itemsFrom st total rest := by
  rw [itemsFrom, h]
  simp only [hn, Bool.false_eq_true, ↓reduceIte]

theorem itemsFrom_image (h : next? s = some (.command imageWord, rest)) : itemsFrom st total s =
    .command imageWord (some (readImage st total rest).1) :: itemsFrom st total (readImage st total rest).2 := by
  rw [itemsFrom, h]
  rfl

end PdfContent.Content
