import PdfContent.Syntax.Reading
/-!
# Whole — what is read the same whatever follows

A token is whole if the bytes do not end inside of a string, and a container if its end is among the bytes.  After
something whole a space changes nothing, whatever stands behind it: the same is read, and what follows is left over
(`Token.Whole.append`, `Reading.objectFrom_append`).
-/
namespace PdfContent

/-! ## Tokens -/

namespace Token

def endsInComment (inComment : Bool) (s : Bytes) : Bool :=
  s.foldl (fun c b => if c then !Byte.isEol b else b == 0x25) inComment

def stringCloses (depth : Nat) : Bytes → Bool
  | [] => false
  | b :: r =>
    if b == 0x5c then
      match r with
      | [] => false
      | _ :: r' => stringCloses depth r'
    else if b == 0x28 then stringCloses (depth + 1) r
    else if b == 0x29 then
      match depth with
      | 0 => true
      | depth + 1 => stringCloses depth r
    else stringCloses depth r

def isClosed (s : Bytes) : Bool :=
  match skipFiller false s with
  | [] => true
  | b :: r =>
    if b == 0x28 then stringCloses 0 r else if b == 0x3c && r.head? != some 0x3c then r.any (· == 0x3e) else true

/-- The bytes start with a token that is whole. -/
structure Whole (s : Bytes) (t : Token) (rest : Bytes) : Prop where
  next : next? s = some (t, rest)
  closed : isClosed s = true

variable {s c : Bytes}

theorem head?_space (r : Bytes) {b : UInt8} (hb : b ≠ 0x20) : ((r ++ 0x20 :: c).head? != some b) = (r.head? != some b) := by
  cases r with
  | nil => exact bne_iff_ne.mpr fun h => hb (Option.some.inj h).symm
  | cons x r => rfl

/-- One byte is filler or the start of a token, and of what follows only whether it is another `>` counts. -/
theorem skipFiller_cons (inComment : Bool) (b : UInt8) (s : Bytes) :
    (∀ t : Bytes, (t.head? != some 0x3e) = (s.head? != some 0x3e) →
      skipFiller inComment (b :: t) = skipFiller (if inComment then !Byte.isEol b else b == 0x25) t) ∨
    ∀ t : Bytes, (t.head? != some 0x3e) = (s.head? != some 0x3e) → skipFiller inComment (b :: t) = b :: t := by
  cases inComment with
  | true => exact .inl fun t _ => rfl
  | false =>
    have step (t : Bytes) (ht : (t.head? != some 0x3e) = (s.head? != some 0x3e)) : skipFiller false (b :: t) =
        if Byte.isBlank b then skipFiller false t
        else if b == 0x25 then skipFiller true t
        else if b == 0x29 || b == 0x7b || b == 0x7d then skipFiller false t
        else if b == 0x3e && s.head? != some 0x3e then skipFiller false t
        else b :: t := by
      rw [← ht]
      rfl
    by_cases comment : b = 0x25
    · exact .inl fun t ht => by subst comment; rfl
    · have plain : (b == 0x25) = false := beq_eq_false_iff_ne.mpr comment
      by_cases filler : (Byte.isBlank b || (b == 0x29 || b == 0x7b || b == 0x7d) || (b == 0x3e && s.head? != some 0x3e)) = true
      · refine .inl fun t ht => ?_
        rw [step t ht, plain]
        grind
      · refine .inr fun t ht => ?_
        rw [step t ht, plain]
        grind

theorem skipFiller_append {inComment : Bool} {b : UInt8} {r : Bytes} (h : skipFiller inComment s = b :: r) :
    skipFiller inComment (s ++ 0x20 :: c) = b :: (r ++ 0x20 :: c) := by
  induction s generalizing inComment with
  | nil => cases h
  | cons x s ih =>
    have same : ((s ++ 0x20 :: c).head? != some 0x3e) = (s.head? != some 0x3e) := head?_space s (by decide)
    rcases skipFiller_cons inComment x s with step | step
    · rw [step s rfl] at h
      rw [List.cons_append, step _ same, ih h]
    · rw [step s rfl] at h
      rw [List.cons_append, step _ same, ← List.cons_append, h, List.cons_append]

theorem head?_of_angle {inComment : Bool} {r : Bytes} (h : skipFiller inComment s = 0x3e :: r) :
    r.head? = some 0x3e := by
  fun_induction skipFiller inComment s with
  | case1 => cases h
  | case2 _ _ ih | case3 _ _ _ _ _ ih | case4 _ _ _ _ _ _ ih | case5 _ _ _ _ _ _ _ ih | case6 _ _ _ _ _ _ _ _ ih =>
    exact ih h
  | case7 _ b r' _ _ _ _ hb =>
    cases h
    simpa using hb

theorem skipFiller_filler {inComment : Bool} (h : skipFiller inComment s = []) (hc : endsInComment inComment s = false) :
    skipFiller inComment (s ++ 0x20 :: c) = skipFiller false c := by
  induction s generalizing inComment with
  | nil =>
    have outside : inComment = false := hc
    rw [outside]
    rfl
  | cons x s ih =>
    have same : ((s ++ 0x20 :: c).head? != some 0x3e) = (s.head? != some 0x3e) := head?_space s (by decide)
    rcases skipFiller_cons inComment x s with step | step
    · rw [step s rfl] at h
      rw [List.cons_append, step _ same, ih h hc]
    · rw [step s rfl] at h
      cases h

theorem stringBody_cons (depth : Nat) {b : UInt8} (hb : ¬(b == 0x5c) = true) (r : Bytes) : stringBody depth (b :: r) =
    if b == 0x28 then (b :: (stringBody (depth + 1) r).1, (stringBody (depth + 1) r).2)
    else if b == 0x29 then
      match depth with
      | 0 => ([], r)
      | depth + 1 => (b :: (stringBody depth r).1, (stringBody depth r).2)
    else (b :: (stringBody depth r).1, (stringBody depth r).2) := by
  rw [stringBody.eq_def]
  exact if_neg hb

theorem stringBody_append {depth : Nat} (h : stringCloses depth s = true) :
    stringBody depth (s ++ c) = ((stringBody depth s).1, (stringBody depth s).2 ++ c) := by
  fun_induction stringCloses depth s with
  | case1 | case2 => cases h
  | case3 depth b hb x r ih => simp [stringBody, hb, ih h]
  | case4 depth b r hb hp ih => simp only [List.cons_append, stringBody_cons _ hb, hp, if_true, ih h]
  | case5 b r hb hp hq => simp only [List.cons_append, stringBody_cons _ hb, if_neg hp, hq, if_true]
  | case6 b r hb hp hq depth ih => simp only [List.cons_append, stringBody_cons _ hb, if_neg hp, hq, if_true, ih h]
  | case7 depth b r hb hp hq ih => simp only [List.cons_append, stringBody_cons _ hb, if_neg hp, if_neg hq, ih h]

theorem skipFiller_of_next?_eq_none (h : next? s = none) : skipFiller false s = [] := by
  unfold next? at h
  split at h
  · assumption
  · repeat' split at h
    all_goals cases h

/-- Filler is skipped, unless a comment in it may go on. -/
theorem next?_of_filler (h : next? s = none) (hc : endsInComment false s = false) :
    next? (s ++ 0x20 :: c) = next? c := by
  unfold next?
  rw [skipFiller_filler (skipFiller_of_next?_eq_none h) hc]

theorem takeWhile_space {p : UInt8 → Bool} (hp : p 0x20 = false) (s : Bytes) :
    (s ++ 0x20 :: c).takeWhile p = s.takeWhile p ∧ (s ++ 0x20 :: c).dropWhile p = s.dropWhile p ++ 0x20 :: c := by
  induction s with
  | nil => simp [hp]
  | cons b s ih =>
    simp only [List.cons_append, List.takeWhile_cons, List.dropWhile_cons]
    split
    · exact ⟨congrArg _ ih.1, ih.2⟩
    · exact ⟨rfl, rfl⟩

theorem dropWhile_hex {r : Bytes} (h : r.any (· == 0x3e) = true) :
    (r ++ c).takeWhile (· != 0x3e) = r.takeWhile (· != 0x3e) ∧
      ((r ++ c).dropWhile (· != 0x3e)).drop 1 = (r.dropWhile (· != 0x3e)).drop 1 ++ c := by
  induction r with
  | nil => cases h
  | cons b r ih =>
    simp only [List.cons_append, List.takeWhile_cons, List.dropWhile_cons]
    split
    · rename_i hb
      have tail : r.any (· == 0x3e) = true := by simpa [bne_iff_ne.mp hb] using h
      exact ⟨congrArg _ (ih tail).1, (ih tail).2⟩
    · exact ⟨rfl, rfl⟩

/-- What starts with an angle bracket: a dictionary, or a hexadecimal string, which must be closed. -/
theorem angle_append {t : Token} {r rest : Bytes}
    (h : (match r with
      | 0x3c :: r' => some (dictStart, r')
      | _ => some (string (Literal.hexString (r.takeWhile (· != 0x3e))), (r.dropWhile (· != 0x3e)).drop 1)) =
        some (t, rest))
    (hc : (if r.head? != some 0x3c then r.any (· == 0x3e) else true) = true) :
    (match r ++ 0x20 :: c with
      | 0x3c :: r' => some (dictStart, r')
      | _ => some (string (Literal.hexString ((r ++ 0x20 :: c).takeWhile (· != 0x3e))),
          ((r ++ 0x20 :: c).dropWhile (· != 0x3e)).drop 1)) = some (t, rest ++ 0x20 :: c) := by
  by_cases hd : r.head? = some 0x3c
  case pos =>
    obtain ⟨r, rfl⟩ := List.head?_eq_some_iff.mp hd
    cases h
    rfl
  case neg =>
    have string : (r ++ 0x20 :: c).head? ≠ some 0x3c := by
      rw [← bne_iff_ne, head?_space r (by decide), bne_iff_ne]
      exact hd
    rw [if_pos (bne_iff_ne.mpr hd)] at hc
    obtain ⟨body, after⟩ := dropWhile_hex (c := 0x20 :: c) hc
    split at h
    · exact absurd rfl hd
    cases h
    split
    · rename_i starts
      exact absurd (congrArg List.head? starts) string
    · rw [body, after]

/-- **A whole token is read the same whatever follows.** -/
theorem Whole.append {t : Token} {rest : Bytes} (h : Whole s t rest) :
    next? (s ++ 0x20 :: c) = some (t, rest ++ 0x20 :: c) := by
  obtain ⟨hn, hc⟩ := h
  unfold next? at hn ⊢
  unfold isClosed at hc
  cases hs : skipFiller false s with
  | nil => rw [hs] at hn; cases hn
  | cons b r =>
    obtain ⟨word, left⟩ := takeWhile_space (c := c) (show Byte.isRegular 0x20 = false by decide) r
    rw [hs] at hn hc
    rw [skipFiller_append hs]
    dsimp only at hn hc ⊢
    rw [word, left]
    by_cases name : (b == 0x2f) = true
    · rw [if_pos name] at hn ⊢
      cases hn
      rfl
    by_cases literal : (b == 0x28) = true
    · rw [if_neg name, if_pos literal] at hn ⊢
      rw [if_pos literal] at hc
      cases hn
      rw [stringBody_append hc]
    rw [if_neg name, if_neg literal] at hn ⊢
    rw [if_neg literal] at hc
    by_cases angle : (b == 0x3c) = true
    · rw [if_pos angle] at hn ⊢
      exact angle_append hn (by simpa only [angle, Bool.true_and] using hc)
    rw [if_neg angle] at hn ⊢
    by_cases ends : (b == 0x3e) = true
    · rw [if_pos ends] at hn ⊢
      obtain rfl := eq_of_beq ends
      cases hn
      obtain ⟨r, rfl⟩ := List.head?_eq_some_iff.mp (head?_of_angle hs)
      rfl
    rw [if_neg ends] at hn ⊢
    -- what is left are brackets and words
    split at hn
    · cases hn
      rw [if_pos ‹_›]
    rw [if_neg ‹_›]
    split at hn
    · cases hn
      rw [if_pos ‹_›]
    cases hn
    rw [if_neg ‹_›]

end Token

/-! ## Objects -/

section

open Reading

variable {references : Bool} {outer outer' : List Frame} {top top' : Frame} {t : Token} {s rest rest' : Bytes}

theorem container_done {o : Object} (h : Token.next? s = some (t, rest))
    (hs : step references outer top t rest = .done o rest') : container references outer top s = (o, rest') := by
  rw [container.eq_def]
  split
  case h_1 hn => cases hn.symm.trans h
  case h_2 hn =>
    cases hn.symm.trans h
    split
    case h_1 hd => cases hd.symm.trans hs; rfl
    case h_2 hd => cases hd.symm.trans hs

theorem container_more (h : Token.next? s = some (t, rest))
    (hs : step references outer top t rest = .more outer' top' rest') :
    container references outer top s = container references outer' top' rest' := by
  rw [container.eq_def]
  split
  case h_1 hn => cases hn.symm.trans h
  case h_2 hn =>
    cases hn.symm.trans h
    split
    case h_1 hd => cases hd.symm.trans hs
    case h_2 hd => cases hd.symm.trans hs; rfl

end

namespace Reading

/-- The innermost of the containers that are open, and those around it, are read to their end. -/
inductive Closes : List Frame → Frame → Bytes → Prop where
  | done {outer top s t rest o rest'} (h : Token.Whole s t rest) (hs : step false outer top t rest = .done o rest') :
      Closes outer top s
  | more {outer top s t rest outer' top' rest'} (h : Token.Whole s t rest)
      (hs : step false outer top t rest = .more outer' top' rest') : Closes outer' top' rest' → Closes outer top s

/-- The object that starts with a token is whole. -/
def Ends (t : Token) (rest : Bytes) : Prop :=
  match t with
  | .arrayStart => Closes [] (.array []) rest
  | .dictStart => Closes [] (.dict [] none) rest
  | _ => True

def Step.append (c : Bytes) : Step → Step
  | .more outer top rest => .more outer top (rest ++ c)
  | .done o rest => .done o (rest ++ c)

variable {c : Bytes}

theorem step_append (outer : List Frame) (top : Frame) (t : Token) (rest : Bytes) :
    step false outer top t (rest ++ c) = (step false outer top t rest).append c := by
  have finished : finish outer top (rest ++ c) = (finish outer top rest).append c := by
    cases outer <;> rfl
  have added : element false outer top t (rest ++ c) = (element false outer top t rest).append c := by
    unfold element
    split
    · rfl
    cases t with
    | keyword w =>
      simp only [scalar?]
      cases constant? w <;> rfl
    | _ => rfl
  unfold step
  split
  · exact finished
  · exact finished
  · rfl
  · rfl
  · exact added

/-- Containers that are closed end where they are closed. -/
theorem container_append {outer : List Frame} {top : Frame} {s : Bytes} (h : Closes outer top s) :
    container false outer top (s ++ 0x20 :: c) =
      ((container false outer top s).1, (container false outer top s).2 ++ 0x20 :: c) := by
  induction h with
  | done h hs =>
    have same := (step_append (c := 0x20 :: c) _ _ _ _).trans (congrArg (Step.append (0x20 :: c)) hs)
    rw [container_done h.next hs, container_done h.append same]
  | more h hs _ ih =>
    have same := (step_append (c := 0x20 :: c) _ _ _ _).trans (congrArg (Step.append (0x20 :: c)) hs)
    rw [container_more h.next hs, container_more h.append same, ih]

/-- **A whole object is read the same whatever follows.** -/
theorem objectFrom_append {t : Token} {rest : Bytes} (h : Ends t rest) :
    objectFrom false t (rest ++ 0x20 :: c) = ((objectFrom false t rest).1, (objectFrom false t rest).2 ++ 0x20 :: c) := by
  cases t with
  | arrayStart | dictStart => simp only [objectFrom, container_append h]
  | _ => rfl

end Reading

end PdfContent
