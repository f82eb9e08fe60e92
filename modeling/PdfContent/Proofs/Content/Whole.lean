import PdfContent.Proofs.Content.Item
import PdfContent.Proofs.Syntax.Whole
/-!
# Whole — contents that are read one after the other

Content that ends outside of strings, containers, comments and inline images is read to its end before what follows it
(`Outside.items`).  Where an inline image ends is not for its own content alone to say: the bytes that follow `EI`
count too, and a length may lead beyond the content it stands in (`ImageEnds`).
-/
namespace PdfContent.Content

variable {s rest c : Bytes}

/-! ## Items -/

/-- The bytes start with an item that is whole. -/
inductive Whole : Bytes → Token → Bytes → Prop where
  | constant {s w o rest} (h : PdfContent.Token.Whole s (.keyword w) rest) (hw : Reading.constant? w = some o) :
      Whole s (.operand o) rest
  | command {s w rest} (h : PdfContent.Token.Whole s (.keyword w) rest) (hw : Reading.constant? w = none) :
      Whole s (.command w) rest
  | object {s t rest o rest'} (h : PdfContent.Token.Whole s t rest) (ht : ∀ w, t ≠ .keyword w) (he : Reading.Ends t rest)
      (ho : Reading.objectFrom false t rest = (some o, rest')) : Whole s (.operand o) rest'

theorem Whole.next {i : Token} (h : Whole s i rest) : next? s = some (i, rest) := by
  cases h with
  | constant h hw => exact next?_constant h.next hw
  | command h hw => exact next?_keyword h.next hw
  | object h ht he ho => exact next?_object h.next ht ho

/-- **A whole item is read the same whatever follows.** -/
theorem Whole.append {i : Token} (h : Whole s i rest) : next? (s ++ 0x20 :: c) = some (i, rest ++ 0x20 :: c) := by
  cases h with
  | constant h hw => exact next?_constant h.append hw
  | command h hw => exact next?_keyword h.append hw
  | object h ht he ho =>
    refine next?_object h.append ht ?_
    rw [Reading.objectFrom_append he, ho]

/-- The bytes start with the end of a container that is not open. -/
inductive Stray (s rest : Bytes) : Prop where
  | array (h : PdfContent.Token.Whole s .arrayEnd rest)
  | dict (h : PdfContent.Token.Whole s .dictEnd rest)

theorem Stray.next (h : Stray s rest) : next? s = next? rest := by
  cases h with
  | array h | dict h => exact next?_skip h.next (fun _ => nofun) rfl

theorem Stray.append (h : Stray s rest) : next? (s ++ 0x20 :: c) = next? (rest ++ 0x20 :: c) := by
  cases h with
  | array h | dict h => exact next?_skip h.append (fun _ => nofun) rfl

/-! ## Inline images -/

/-- After the command that starts an inline image, whole operands lead to its data. -/
inductive ImageStarts : Bytes → Bytes → Prop where
  | data {s data} (h : Whole s (.command dataWord) data) : ImageStarts s data
  | command {s name rest data} (h : Whole s (.command name) rest) (hn : name ≠ dataWord) :
      ImageStarts rest data → ImageStarts s data
  | operand {s o rest data} (h : Whole s (.operand o) rest) : ImageStarts rest data → ImageStarts s data
  | stray {s rest data} (h : Stray s rest) : ImageStarts rest data → ImageStarts s data

theorem ImageStarts.append {data : Bytes} (h : ImageStarts s data) : ∃ operands faults,
    imageOperands s = (operands, faults, some data) ∧
      imageOperands (s ++ 0x20 :: c) = (operands, faults, some (data ++ 0x20 :: c)) := by
  induction h with
  | data h => exact ⟨_, _, imageOperands_data h.next, imageOperands_data h.append⟩
  | command h hn _ ih =>
    obtain ⟨operands, faults, hs, hc⟩ := ih
    exact ⟨operands, notAName :: faults, by rw [imageOperands_command h.next hn, hs],
      by rw [imageOperands_command h.append hn, hc]⟩
  | @operand _ o _ _ h _ ih =>
    obtain ⟨operands, faults, hs, hc⟩ := ih
    exact ⟨o :: operands, faults, by rw [imageOperands_operand h.next, hs], by rw [imageOperands_operand h.append, hc]⟩
  | stray h _ ih =>
    obtain ⟨operands, faults, hs, hc⟩ := ih
    exact ⟨operands, faults, (imageOperands_congr h.next).trans hs, (imageOperands_congr h.append).trans hc⟩

/-- The data end at an `EI` that still looks like a command with `c` behind the content. -/
def FoundBefore (c data : Bytes) : Prop :=
  ∃ image rest, searchEnd [] data = some (image, rest) ∧ looksLikeContent (rest ++ c) = true

/-- The data of an inline image end where they end if `c` follows: by their length, or at an `EI` that is found, and then
their length does not lead to an `EI` in what follows either.  A length that leads past the last position leaves no
data. -/
def ImageEnds (position : Nat) (length : Option Nat) (c s : Bytes) : Prop :=
  s ≠ [] ∧
    let data := if s.head?.any Byte.isBlank then s.drop 1 else s
    match length with
    | none => FoundBefore c data
    | some n =>
      position + (s.length - data.length) + n ≥ UInt64.size ∨ (afterLength? n data).isSome ∨
        afterLength? n (data ++ c) = none ∧ FoundBefore c data

theorem endsCommand_append (s : Bytes) : endsCommand (s ++ 0x20 :: c) = endsCommand s := by
  cases s <;> rfl

theorem endWord_eq : endWord = [0x45, 0x49] := by decide

/-- `EI` does not begin before white space and end behind it. -/
theorem endWord_before_blank {b : UInt8} (hb : Byte.isBlank b = true) (s after : Bytes) :
    endWord.isPrefixOf (s ++ b :: after) = endWord.isPrefixOf s := by
  have other (x : UInt8) (hx : Byte.isBlank x = false) : (x == b) = false :=
    beq_eq_false_iff_ne.mpr fun e => by rw [e, hb] at hx; cases hx
  rw [endWord_eq]
  match s with
  | [] => simp [List.isPrefixOf, other 0x45 (by decide)]
  | [x] => simp [List.isPrefixOf, other 0x49 (by decide)]
  | _ :: _ :: _ => rfl

theorem drop_of_endWord {k : Nat} (hk : k ≤ 2) (h : endWord.isPrefixOf s = true) :
    (s ++ c).drop k = s.drop k ++ c := by
  rw [endWord_eq] at h
  match s with
  | [] => cases h
  | [b] => simp [List.isPrefixOf] at h
  | _ :: _ :: r => exact List.drop_append_of_le_length (Nat.le_trans hk (by simp))

theorem looksLikeContent_of_append {s : Bytes} (h : looksLikeContent (s ++ c) = true) : looksLikeContent s = true := by
  unfold looksLikeContent at h ⊢
  rw [List.take_append, List.all_append, Bool.and_eq_true] at h
  exact h.1

theorem searchEnd_append {before data image rest : Bytes} (h : searchEnd before data = some (image, rest))
    (hc : looksLikeContent (rest ++ 0x20 :: c) = true) :
    searchEnd before (data ++ 0x20 :: c) = some (image, rest ++ 0x20 :: c) := by
  induction data generalizing before with
  | nil => cases h
  | cons b r ih =>
    have word := endWord_before_blank (show Byte.isBlank 0x20 = true by decide) (b :: r) c
    rw [List.cons_append] at word
    rw [searchEnd] at h
    rw [List.cons_append, searchEnd, word]
    by_cases hw : endWord.isPrefixOf (b :: r) = true
    · have after : (r ++ 0x20 :: c).drop 1 = r.drop 1 ++ 0x20 :: c := drop_of_endWord (k := 2) (Nat.le_refl 2) hw
      rw [after, endsCommand_append]
      split at h
      · rename_i ends
        cases h
        simp only [Bool.and_eq_true] at ends
        rw [if_pos (by simp only [Bool.and_eq_true]; exact ⟨ends.1, hc⟩)]
      · rename_i goes
        -- what does not look like content does not begin to with more behind it
        rw [if_neg fun ends => goes ?_]
        · exact ih h
        · simp only [Bool.and_eq_true] at ends ⊢
          exact ⟨ends.1, looksLikeContent_of_append ends.2⟩
    · rw [if_neg (by simp [hw])] at h ⊢
      exact ih h

theorem afterLength?_append {n : Nat} {data rest : Bytes} (h : afterLength? n data = some rest) :
    afterLength? n (data ++ 0x20 :: c) = some (rest ++ 0x20 :: c) := by
  unfold afterLength? at h ⊢
  split at h
  case isFalse => cases h
  case isTrue hn =>
    rw [if_pos (Nat.le_trans hn (by simp)), List.drop_append_of_le_length hn, List.dropWhile_append]
    dsimp only at h ⊢
    generalize (data.drop n).dropWhile Byte.isBlank = tail at h ⊢
    cases tail with
    | nil => cases h
    | cons b r =>
      split at h
      case isFalse => cases h
      case isTrue ends =>
        cases h
        rw [Bool.and_eq_true] at ends
        have after : (b :: r ++ 0x20 :: c).drop 2 = (b :: r).drop 2 ++ 0x20 :: c := drop_of_endWord (Nat.le_refl 2) ends.1
        rw [List.isEmpty_cons, if_neg Bool.false_ne_true, endWord_before_blank (by decide), after, endsCommand_append,
          if_pos (by rw [Bool.and_eq_true]; exact ends)]

theorem le_of_afterLength? {n : Nat} {data rest : Bytes} (h : afterLength? n data = some rest) : n ≤ data.length := by
  unfold afterLength? at h
  split at h
  · assumption
  · cases h

theorem dataToEnd_append {data : Bytes} (h : FoundBefore (0x20 :: c) data) :
    dataToEnd (data ++ 0x20 :: c) = ((dataToEnd data).1, (dataToEnd data).2 ++ 0x20 :: c) := by
  obtain ⟨image, rest, hs, hc⟩ := h
  unfold dataToEnd
  rw [hs, searchEnd_append hs hc]

/-- **An inline image that ends is read the same.** -/
theorem imageData_append {position : Nat} {length : Option Nat} (h : ImageEnds position length (0x20 :: c) s) :
    imageData position length (s ++ 0x20 :: c) =
      ((imageData position length s).1, (imageData position length s).2 ++ 0x20 :: c) := by
  obtain ⟨hs, h⟩ := h
  obtain ⟨b, r, rfl⟩ := List.exists_cons_of_ne_nil hs
  have first : (b :: r ++ 0x20 :: c).head? = (b :: r).head? := rfl
  have data : (if (b :: r).head?.any Byte.isBlank then (b :: r ++ 0x20 :: c).drop 1 else b :: r ++ 0x20 :: c) =
      (if (b :: r).head?.any Byte.isBlank then (b :: r).drop 1 else b :: r) ++ 0x20 :: c := by
    split <;> rfl
  unfold imageData
  rw [first, data]
  dsimp only at h ⊢
  generalize (if (b :: r).head?.any Byte.isBlank then (b :: r).drop 1 else b :: r) = data at h ⊢
  rw [List.length_append, List.length_append, Nat.add_sub_add_right]
  cases length with
  | none => exact dataToEnd_append h
  | some n =>
    dsimp only at h ⊢
    split
    · rfl
    · rename_i hp
      rcases h with h | h | ⟨elsewhere, h⟩
      · exact absurd h hp
      · obtain ⟨rest, hr⟩ := Option.isSome_iff_exists.mp h
        rw [hr, afterLength?_append hr]
        dsimp only
        rw [List.take_append_of_le_length (le_of_afterLength? hr)]
      · have nowhere : afterLength? n data = none :=
          Option.eq_none_iff_forall_not_mem.mpr fun rest hr =>
            nomatch (afterLength?_append (c := c) hr).symm.trans elsewhere
        rw [elsewhere, nowhere]
        exact dataToEnd_append h

def imageDict (operands : List Object) : Dict := InlineImage.expand (.ofList (imageEntries operands).1)

/-- An inline image is read the same in longer content, since the positions in it are the same. -/
theorem readImage_append {st : Store} {total : Nat} {data : Bytes} (h : ImageStarts s data)
    (he : ImageEnds (total - data.length) (st.lookup? (imageDict (imageOperands s).1) "Length") (0x20 :: c) data) :
    readImage st (total + (0x20 :: c).length) (s ++ 0x20 :: c) =
      ((readImage st total s).1, (readImage st total s).2 ++ 0x20 :: c) := by
  obtain ⟨operands, faults, hs, hc⟩ := h.append (c := c)
  rw [hs] at he
  have read := imageData_append he
  unfold readImage
  rw [hs, hc]
  dsimp only
  rw [List.length_append, Nat.add_sub_add_right]
  unfold imageDict at read
  rw [read]

/-! ## Content -/

/-- Content of which `c` is read next, after a space, ends outside of strings, containers, comments and inline
images. -/
inductive Outside (st : Store) (total : Nat) (c : Bytes) : Bytes → Prop where
  | filler {s : Bytes} (h : PdfContent.Token.next? s = none) (hc : PdfContent.Token.endsInComment false s = false) :
      Outside st total c s
  | stray {s rest : Bytes} (h : Stray s rest) : Outside st total c rest → Outside st total c s
  | operand {s o rest} (h : Whole s (.operand o) rest) : Outside st total c rest → Outside st total c s
  | command {s name rest} (h : Whole s (.command name) rest) (hn : name ≠ imageWord) :
      Outside st total c rest → Outside st total c s
  | image {s rest data} (h : Whole s (.command imageWord) rest) (hs : ImageStarts rest data)
      (he : ImageEnds (total - data.length) (st.lookup? (imageDict (imageOperands rest).1) "Length") (0x20 :: c) data) :
      Outside st total c (readImage st total rest).2 → Outside st total c s

variable {st : Store} {total : Nat}

/-- **Content that ends outside is read before what follows it.** -/
theorem Outside.items (h : Outside st total c s) :
    itemsFrom st (total + (0x20 :: c).length) (s ++ 0x20 :: c) =
      itemsFrom st total s ++ itemsFrom st (total + (0x20 :: c).length) c := by
  induction h with
  | filler h hc =>
    rw [itemsFrom_end (next?_end h), List.nil_append]
    exact itemsFrom_congr (next?_congr (PdfContent.Token.next?_of_filler h hc))
  | stray h _ ih => rw [itemsFrom_congr h.next, itemsFrom_congr h.append, ih]
  | operand h _ ih =>
    rw [itemsFrom_operand h.next, itemsFrom_operand h.append, ih, List.length_append]
    simp only [Nat.add_sub_add_right, List.cons_append]
  | command h hn _ ih =>
    have other := beq_eq_false_iff_ne.mpr hn
    rw [itemsFrom_command h.next other, itemsFrom_command h.append other, ih, List.cons_append]
  | image h hs he _ ih =>
    rw [itemsFrom_image h.next, itemsFrom_image h.append, readImage_append hs he, ih, List.cons_append]

/-! ## Contents one after the other -/

def joined (contents : List Bytes) : Bytes := (contents.intersperse [0x20]).flatten

/-- Where the next content starts: behind a space, unless nothing stands before it. -/
def nextStart (start : Nat) (d : Bytes) : Nat := if start + d.length = 0 then 0 else start + d.length + 1

/-- The items of each content by itself, of which the first starts at the given offset. -/
def itemsApart (st : Store) (start : Nat) : List Bytes → List (List Item)
  | [] => []
  | d :: ds => itemsFrom st (start + d.length) d :: itemsApart st (nextStart start d) ds

/-- Each of the contents but the last ends outside. -/
def Separate (st : Store) (start : Nat) : List Bytes → Prop
  | [] => True
  | d :: ds => (ds ≠ [] → Outside st (start + d.length) (joined ds) d) ∧ Separate st (nextStart start d) ds

theorem joined_cons (d : Bytes) {ds : List Bytes} (h : ds ≠ []) : joined (d :: ds) = d ++ 0x20 :: joined ds := by
  obtain ⟨e, es, rfl⟩ := List.exists_cons_of_ne_nil h
  rfl

theorem itemsFrom_joined {start : Nat} {d : Bytes} {ds : List Bytes} (hd : start + d.length ≠ 0)
    (h : Separate st start (d :: ds)) :
    itemsFrom st (start + (joined (d :: ds)).length) (joined (d :: ds)) = (itemsApart st start (d :: ds)).flatten := by
  induction ds generalizing start d with
  | nil =>
    have one : joined [d] = d := List.append_nil d
    rw [one]
    exact (List.append_nil _).symm
  | cons e es ih =>
    obtain ⟨outside, separate⟩ := h
    have next : nextStart start d = start + d.length + 1 := if_neg hd
    have total : start + (joined (d :: e :: es)).length = start + d.length + (0x20 :: joined (e :: es)).length := by
      rw [joined_cons d (List.cons_ne_nil e es), List.length_append, Nat.add_assoc]
    have apart : itemsApart st start (d :: e :: es) =
        itemsFrom st (start + d.length) d :: itemsApart st (start + d.length + 1) (e :: es) :=
      congrArg (fun k => itemsFrom st (start + d.length) d :: itemsApart st k (e :: es)) next
    have rest : _ = (itemsApart st (start + d.length + 1) (e :: es)).flatten := ih (by omega) (next ▸ separate)
    rw [total, joined_cons d (List.cons_ne_nil e es), (outside (List.cons_ne_nil e es)).items,
      List.length_cons, Nat.add_comm _ 1, ← Nat.add_assoc, rest, apart]
    rfl

end PdfContent.Content
