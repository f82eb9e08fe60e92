import PdfContent.Proofs.Content.Progress
import PdfContent.Proofs.Content.Whole
/-!
# ImageData — where the data of an inline image end

The length that a dictionary gives is trusted if that many bytes are followed by white space and a whole `EI`
(`Delimited`).  If not, the data end before the first `EI` that is taken for the command (`takenForEnd`).  So a length is
no more than a hint, unless it leads past the last position, where the search is left out (`length_is_hint`), and data
that are written by the rules are found again (`image_delimited`).
-/
namespace PdfContent.Content

variable {s image rest after : Bytes} {c : UInt8} {n position : Nat}

/-- The bytes from the data on: one white-space byte may stand before them. -/
def dataStart (s : Bytes) : Bytes := if s.head?.any Byte.isBlank then s.drop 1 else s

theorem dataStart_blank {b : UInt8} (hb : Byte.isBlank b = true) (s : Bytes) : dataStart (b :: s) = s := if_pos hb

theorem dataStart_suffix (s : Bytes) : dataStart s <:+ s := by
  unfold dataStart
  split
  · exact List.drop_suffix 1 s
  · exact List.suffix_refl s

/-- The bytes are an image, white space and a whole `EI`, and then `rest`. -/
def Delimited (image s rest : Bytes) : Prop :=
  ∃ blanks : Bytes, (∀ b ∈ blanks, Byte.isBlank b = true) ∧ s = image ++ (blanks ++ (endWord ++ rest)) ∧
    endsCommand rest = true

/-- Whether an `EI` between the two is taken for the command: it is at the start or behind white space, and what follows
goes on like content. -/
def takenForEnd (before after : Bytes) : Bool :=
  before.getLast?.all Byte.isBlank && endsCommand after && looksLikeContent after

/-- In front of `after`, no `EI` in the image is taken for the command. -/
def NoEndWithin (image after : Bytes) : Prop :=
  ∀ i < image.length, endWord.isPrefixOf (image.drop i) = true →
    takenForEnd (image.take i) (image.drop (i + 2) ++ after) = false

/-! ## Lengths -/

theorem split_of_endWord (h : endWord.isPrefixOf s = true) : s = endWord ++ s.drop 2 := by
  obtain ⟨r, rfl⟩ := List.isPrefixOf_iff_prefix.mp h
  rfl

theorem dropWhile_blanks {blanks : Bytes} (hb : ∀ b ∈ blanks, Byte.isBlank b = true) (rest : Bytes) :
    (blanks ++ (endWord ++ rest)).dropWhile Byte.isBlank = endWord ++ rest := by
  rw [List.dropWhile_append_of_pos hb, endWord_eq]
  exact List.dropWhile_cons_of_neg (by decide)

theorem afterLength?_eq_some_iff :
    afterLength? n s = some rest ↔ ∃ image, image.length = n ∧ Delimited image s rest := by
  constructor
  · intro h
    have short := le_of_afterLength? h
    unfold afterLength? at h
    rw [if_pos short] at h
    dsimp only at h
    split at h
    case isFalse => cases h
    case isTrue ends =>
      cases h
      rw [Bool.and_eq_true] at ends
      refine ⟨s.take n, List.length_take_of_le short, (s.drop n).takeWhile Byte.isBlank,
        List.all_eq_true.mp List.all_takeWhile, ?_, ends.2⟩
      rw [← split_of_endWord ends.1, List.takeWhile_append_dropWhile, List.take_append_drop]
  · rintro ⟨image, rfl, blanks, hb, rfl, ends⟩
    have short : image.length ≤ (image ++ (blanks ++ (endWord ++ rest))).length := by simp
    have word : endWord.isPrefixOf (endWord ++ rest) = true := List.isPrefixOf_iff_prefix.mpr ⟨rest, rfl⟩
    have behind : (endWord ++ rest).drop 2 = rest := rfl
    unfold afterLength?
    rw [if_pos short, List.drop_left, dropWhile_blanks hb]
    dsimp only
    rw [behind, word, ends]
    rfl

/-! ## The search -/

theorem searchEnd_found {before : Bytes} (hb : before.head?.all Byte.isBlank = true) (he : endsCommand rest = true)
    (hl : looksLikeContent rest = true) :
    searchEnd before (endWord ++ rest) = some ((before.drop 1).reverse, rest) := by
  have word : endWord.isPrefixOf (endWord ++ rest) = true := List.isPrefixOf_iff_prefix.mpr ⟨rest, rfl⟩
  have behind : (0x49 :: rest).drop 1 = rest := rfl
  rw [endWord_eq] at word ⊢
  simp only [List.cons_append, List.nil_append] at word ⊢
  rw [searchEnd, endWord_eq, word, hb, behind, he, hl]
  rfl

theorem searchEnd_next {before : Bytes} {b : UInt8}
    (h : endWord.isPrefixOf (b :: s) = true →
      (before.head?.all Byte.isBlank && endsCommand (s.drop 1) && looksLikeContent (s.drop 1)) = false) :
    searchEnd before (b :: s) = searchEnd (b :: before) s := by
  rw [searchEnd, if_neg]
  rw [Bool.and_assoc, Bool.and_assoc, Bool.and_eq_true, ← Bool.and_assoc]
  rintro ⟨word, ends⟩
  exact Bool.false_ne_true ((h word).symm.trans ends)

/-- The search passes an image in which nothing is taken for the end. -/
theorem searchEnd_pass (hc : Byte.isBlank c = true) {before : Bytes}
    (h : ∀ i < image.length, endWord.isPrefixOf (image.drop i) = true →
      takenForEnd (before.reverse ++ image.take i) (image.drop (i + 2) ++ c :: after) = false) :
    searchEnd before (image ++ c :: after) = searchEnd (image.reverse ++ before) (c :: after) := by
  induction image generalizing before with
  | nil => rfl
  | cons b r ih =>
    have here : searchEnd before (b :: (r ++ c :: after)) = searchEnd (b :: before) (r ++ c :: after) := by
      refine searchEnd_next fun word => ?_
      rw [← List.cons_append, endWord_before_blank hc] at word
      have first := h 0 (Nat.zero_lt_succ _) word
      rw [List.take_zero, List.append_nil, takenForEnd, List.getLast?_reverse] at first
      have behind : (r ++ c :: after).drop 1 = (b :: r).drop (0 + 2) ++ c :: after := by
        -- the image goes on after its `E`
        cases r with
        | nil => rw [endWord_eq] at word; simp [List.isPrefixOf] at word
        | cons => rfl
      rw [behind]
      exact first
    rw [List.cons_append, here, ih, List.reverse_cons, List.append_assoc, List.singleton_append]
    intro i hi word
    have later := h (i + 1) (Nat.succ_lt_succ hi) word
    rwa [List.take_succ_cons, ← List.singleton_append, ← List.append_assoc, ← List.reverse_cons] at later

/-- An image is found if no `EI` in it is taken for its end. -/
theorem searchEnd_image (hc : Byte.isBlank c = true) (he : endsCommand rest = true) (hl : looksLikeContent rest = true)
    (h : NoEndWithin image (c :: (endWord ++ rest))) :
    searchEnd [] (image ++ c :: (endWord ++ rest)) = some (image, rest) := by
  have start : endWord.isPrefixOf (c :: (endWord ++ rest)) = false := endWord_before_blank hc [] _
  have pass : searchEnd [] (image ++ c :: (endWord ++ rest)) = searchEnd (image.reverse ++ []) (c :: (endWord ++ rest)) :=
    searchEnd_pass hc h
  have found : searchEnd (c :: image.reverse) (endWord ++ rest) = some (image.reverse.reverse, rest) :=
    searchEnd_found hc he hl
  rw [pass, List.append_nil, searchEnd_next fun word => absurd (word.symm.trans start) nofun, found,
    List.reverse_reverse]

/-! ## The parser -/

theorem imageData_none (position : Nat) (s : Bytes) : imageData position none s = dataToEnd (dataStart s) := rfl

theorem imageData_some (h : position + (s.length - (dataStart s).length) + n < UInt64.size) :
    imageData position (some n) s =
      match afterLength? n (dataStart s) with
      | some rest => (some ((dataStart s).take n), rest)
      | none => imageData position none s :=
  if_neg (Nat.not_le.mpr h)

theorem imageData_beyond (h : UInt64.size ≤ position + (s.length - (dataStart s).length) + n) :
    imageData position (some n) s = (none, dataStart s) := if_pos h

theorem imageData_trusted (h : position + (s.length - (dataStart s).length) + image.length < UInt64.size)
    (hs : Delimited image (dataStart s) rest) : imageData position (some image.length) s = (some image, rest) := by
  rw [imageData_some h, afterLength?_eq_some_iff.mpr ⟨image, rfl, hs⟩]
  obtain ⟨blanks, -, hs, -⟩ := hs
  rw [hs, List.take_left]

theorem imageData_untrusted (h : position + (s.length - (dataStart s).length) + n < UInt64.size)
    (hs : ∀ image rest, image.length = n → ¬Delimited image (dataStart s) rest) :
    imageData position (some n) s = imageData position none s := by
  have nowhere : afterLength? n (dataStart s) = none := by
    refine Option.eq_none_iff_forall_not_mem.mpr fun rest hr => ?_
    obtain ⟨image, hi, delimited⟩ := afterLength?_eq_some_iff.mp hr
    exact hs image rest hi delimited
  rw [imageData_some h, nowhere]

namespace Parser

theorem imageData_congr {p : Parser} {length length' : Option Nat}
    (h : Content.imageData p.offset length p.rest = Content.imageData p.offset length' p.rest) :
    p.imageData length = p.imageData length' := by
  simp only [imageData, h]

def dataOffset (p : Parser) : Nat := p.offset + (p.rest.length - (dataStart p.rest).length)

theorem dataOffset_add (p : Parser) : p.dataOffset + (dataStart p.rest).length = p.data.length := by
  have whole := p.offset_add
  have part := (dataStart_suffix p.rest).length_le
  unfold dataOffset
  omega

/-- **A length is a hint.**  Asked for `n` bytes, a parser either answers with `n` bytes that white space and a whole
`EI` follow, and stands behind these, or there are no such bytes and it does what it does without a length.  The
exception is a length that leads past the last position: with that it gives up in front of the data. -/
theorem length_is_hint (p : Parser) (n : Nat) :
    let hinted := p.imageData (some n)
    (p.dataOffset + n < UInt64.size →
      (∃ image, image.length = n ∧ hinted.1 = some image ∧ Delimited image (dataStart p.rest) hinted.2.rest) ∨
      (∀ image rest, image.length = n → ¬Delimited image (dataStart p.rest) rest) ∧ hinted = p.imageData none) ∧
    (UInt64.size ≤ p.dataOffset + n →
      hinted.1 = none ∧ hinted.2.rest = dataStart p.rest ∧
        ∀ image rest, image.length = n → p.data.length < UInt64.size → ¬Delimited image (dataStart p.rest) rest) := by
  intro hinted
  refine ⟨fun small => ?_, fun large => ?_⟩
  · by_cases h : ∃ image rest, image.length = n ∧ Delimited image (dataStart p.rest) rest
    · obtain ⟨image, rest, rfl, hs⟩ := h
      have read : Content.imageData p.offset (some image.length) p.rest = (some image, rest) :=
        imageData_trusted small hs
      refine .inl ⟨image, rfl, congrArg Prod.fst read, ?_⟩
      rwa [show hinted.2.rest = rest from congrArg Prod.snd read]
    · have none (image rest) (hi : image.length = n) : ¬Delimited image (dataStart p.rest) rest :=
        fun hs => h ⟨image, rest, hi, hs⟩
      exact .inr ⟨none, imageData_congr (imageData_untrusted small none)⟩
  · have read : Content.imageData p.offset (some n) p.rest = (none, dataStart p.rest) := imageData_beyond large
    refine ⟨congrArg Prod.fst read, congrArg Prod.snd read, ?_⟩
    rintro image rest rfl fits ⟨blanks, -, hs, -⟩
    have whole := p.dataOffset_add
    rw [hs, List.length_append] at whole
    omega

/-- The greatest length there is hides an image that is found without a length. -/
theorem greatest_length_hides :
    let p := Parser.new (Bytes.ofText " abc EI Q")
    (p.imageData (some (UInt64.size - 1))).1 = none ∧
      (p.imageData (some (UInt64.size - 1))).2.rest = Bytes.ofText "abc EI Q" ∧
      (p.imageData none).1 = some (Bytes.ofText "abc") ∧ (p.imageData none).2.rest = Bytes.ofText " Q" := by
  intro p
  obtain ⟨nothing, stays, -⟩ := (p.length_is_hint (UInt64.size - 1)).2 (by decide)
  exact ⟨nothing, stays, rfl, rfl⟩

/-- Asked for the data of an image, the parser answers with the image, and goes on with the items of `rest`. -/
structure Reads (p : Parser) (length : Option Nat) (image rest : Bytes) : Prop where
  data : (p.imageData length).1 = some image
  left : (p.imageData length).2.rest = rest
  goesOn : ∀ n, ((p.imageData length).2.turns (List.replicate n .next)).map (·.answer) =
    (List.range n).map fun i => .item ((tokens rest)[i]?.map (·.1))

theorem Reads.of_eq {p : Parser} {length : Option Nat}
    (h : Content.imageData p.offset length p.rest = (some image, rest)) : p.Reads length image rest := by
  have left : (p.imageData length).2.rest = rest := congrArg Prod.snd h
  exact ⟨congrArg Prod.fst h, left, fun n => left ▸ turns_next _ n⟩

/-- **An image is delimited.**  Behind a white-space byte any bytes are read as the data if white space, a whole `EI` and
`rest` follow them and their number is given.  Without the number they are if `rest` looks like content and no `EI` in
them is taken for the end.  Either way the parser goes on with `rest`. -/
theorem image_delimited {p : Parser} {b c : UInt8} {image rest : Bytes}
    (hp : p.rest = b :: (image ++ c :: (endWord ++ rest))) (hb : Byte.isBlank b = true) (hc : Byte.isBlank c = true)
    (he : endsCommand rest = true) (fits : p.data.length < UInt64.size) :
    p.Reads (some image.length) image rest ∧
      (looksLikeContent rest = true → NoEndWithin image (c :: (endWord ++ rest)) → p.Reads none image rest) := by
  have start : dataStart p.rest = image ++ c :: (endWord ++ rest) := by rw [hp, dataStart_blank hb]
  constructor
  · have small : p.dataOffset + image.length < UInt64.size := by
      have whole := p.dataOffset_add
      rw [start, List.length_append] at whole
      omega
    have delimited : Delimited image (dataStart p.rest) rest :=
      ⟨[c], List.forall_mem_singleton.mpr hc, start, he⟩
    exact .of_eq (imageData_trusted small delimited)
  · intro hl clear
    refine .of_eq ?_
    rw [imageData_none, start, dataToEnd, searchEnd_image hc he hl clear]

/-- The image holds an `EI` behind white space, but no content follows that. -/
theorem image_with_end_word :
    let image : Bytes := [0x10, 0x20, 0x45, 0x49, 0x80, 0x81]
    let rest := Bytes.ofText "\nQ"
    let p := Parser.new (0x20 :: (image ++ 0x20 :: (endWord ++ rest)))
    p.data.length < UInt64.size ∧ endsCommand rest = true ∧ looksLikeContent rest = true ∧
      NoEndWithin image (0x20 :: (endWord ++ rest)) ∧
      p.Reads (some 6) image rest ∧ p.Reads none image rest := by
  intro image rest p
  have fits : p.data.length < UInt64.size := by decide
  have clear : NoEndWithin image (0x20 :: (endWord ++ rest)) := by
    unfold NoEndWithin
    decide
  obtain ⟨counted, searched⟩ := image_delimited (p := p) rfl (by decide) (by decide) (by decide) fits
  exact ⟨fits, by decide, by decide, clear, counted, searched (by decide) clear⟩

end Parser

end PdfContent.Content
