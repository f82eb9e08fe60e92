import PdfContent.Proofs.Syntax.Printing
/-!
# Lookahead — numbers that are not the start of a reference

Behind an integer the reader looks two tokens ahead for the rest of a reference.  A number that is returned itself is
left alone: reading goes on right behind it, as if nothing had been looked at, in every container (`number_left_alone`).
There is one exception.  If an integer and the word of a reference do follow, but the integers are too large for one,
both tokens are lost (`word_lost`).
-/
namespace PdfContent.Reading

variable {n : Number} {after rest : Bytes}

/-- The next two tokens are an integer and the word that ends a reference, and `rest` follows them. -/
def EndsReference (after : Bytes) (gen : Int) (rest : Bytes) : Prop :=
  ∃ s, Token.next? after = some (.number (.int gen), s) ∧ Token.next? s = some (.keyword referenceWord, rest)

/-- A reference can hold the two numbers. -/
def FitReference (num gen : Int) : Prop := (0 ≤ num ∧ num < UInt32.size) ∧ 0 ≤ gen ∧ gen < UInt16.size

/-- What follows the number is not the rest of a reference. -/
def Alone (n : Number) (after : Bytes) : Prop := ∀ num gen rest, n = .int num → ¬EndsReference after gen rest

theorem EndsReference.length_lt {gen : Int} (h : EndsReference after gen rest) : rest.length < after.length := by
  obtain ⟨s, hg, hw⟩ := h
  exact Nat.lt_trans (Token.length_next?_lt hw) (Token.length_next?_lt hg)

theorem numberOrReference_ends {num gen : Int} (h : EndsReference after gen rest) :
    numberOrReference (.int num) after =
      if 0 ≤ num && num < UInt32.size && 0 ≤ gen && gen < UInt16.size then (.ref ⟨num.toNat, gen.toNat⟩, rest)
      else (.num (.int num), rest) := by
  obtain ⟨s, hg, hw⟩ := h
  simp only [numberOrReference, hg, hw, bne_self_eq_false, Bool.false_eq_true, ↓reduceIte]

/-- One step of the lookahead after the other fails without a trace. -/
theorem numberOrReference_alone (h : Alone n after) : numberOrReference n after = (.num n, after) := by
  unfold numberOrReference
  cases n with
  | real x => rfl
  | int num =>
    dsimp only
    split
    · rename_i gen s hg
      split
      · rename_i w rest hw
        have other : w ≠ referenceWord := by
          rintro rfl
          exact h num gen rest rfl ⟨s, hg, hw⟩
        rw [if_pos (bne_iff_ne.mpr other)]
      · rfl
    · rfl

theorem numberOrReference_cases (n : Number) (after : Bytes) :
    Alone n after ∧ numberOrReference n after = (.num n, after) ∨
      ∃ num gen rest, n = .int num ∧ EndsReference after gen rest ∧
        (FitReference num gen ∧ numberOrReference n after = (.ref ⟨num.toNat, gen.toNat⟩, rest) ∨
          ¬FitReference num gen ∧ numberOrReference n after = (.num n, rest)) := by
  by_cases h : Alone n after
  · exact .inl ⟨h, numberOrReference_alone h⟩
  · simp only [Alone, Classical.not_forall, Classical.not_not] at h
    obtain ⟨num, gen, rest, rfl, ends⟩ := h
    refine .inr ⟨num, gen, rest, rfl, ends, ?_⟩
    rw [numberOrReference_ends ends]
    by_cases fit : FitReference num gen
    · exact .inl ⟨fit, if_pos (by simpa [FitReference, and_assoc] using fit)⟩
    · exact .inr ⟨fit, if_neg (by simpa [FitReference, and_assoc] using fit)⟩

/-- What becomes of the innermost container when an object is read in it: one that lies too deep is left out. -/
def receive (outer : List Frame) (top : Frame) (o : Object) : Frame :=
  if outer.length + 1 > maxNesting then top.skip else top.add o

theorem step_number (h : numberOrReference n after = (.num n, after)) (outer : List Frame) (top : Frame) :
    step true outer top (.number n) after = .more outer (receive outer top (.num n)) after := by
  have read : element true outer top (.number n) after = .more outer (receive outer top (.num n)) after := by
    unfold element receive
    split
    · rfl
    · simp only [scalar?, if_true, h]
  cases top with
  | array items => exact read
  | dict entries key =>
    cases key with
    | some k => exact read
    | none =>
      -- in the place of a key a number is ignored, as deep as the dictionary may lie
      have ignored : receive outer (.dict entries none) (.num n) = .dict entries none := ite_self _
      rw [ignored]
      rfl

/-- **A number that is no reference is left alone.**  If the reader returns the number itself, it stands right behind the
number exactly if what follows is not the rest of a reference, and then every container goes on there.  Otherwise it
stands behind the word, and the two integers are such that no reference can hold them. -/
theorem number_left_alone (h : objectFrom true (.number n) after = (some (.num n), rest)) :
    (rest = after ↔ Alone n after) ∧
      (Alone n after → ∀ s, Token.next? s = some (.number n, after) → ∀ outer top,
        container true outer top s = container true outer (receive outer top (.num n)) after) ∧
      (¬Alone n after → ∃ num gen, n = .int num ∧ EndsReference after gen rest ∧ ¬FitReference num gen) := by
  have read : numberOrReference n after = (.num n, rest) := by
    simp only [objectFrom, scalar?, if_true, Prod.mk.injEq, Option.some.injEq] at h
    exact Prod.ext h.1 h.2
  rcases numberOrReference_cases n after with ⟨alone, eq⟩ | ⟨num, gen, rest', rfl, ends, ⟨fit, eq⟩ | ⟨unfit, eq⟩⟩
  · obtain rfl : after = rest := congrArg Prod.snd (eq.symm.trans read)
    refine ⟨iff_of_true rfl alone, fun _ s hs outer top => ?_, absurd alone⟩
    exact PdfContent.container_more hs (step_number eq outer top)
  · cases congrArg Prod.fst (eq.symm.trans read)
  · obtain rfl : rest' = rest := congrArg Prod.snd (eq.symm.trans read)
    have together : ¬Alone (.int num) after := fun alone => alone num gen rest' rfl ends
    have behind : rest' ≠ after := fun e => Nat.lt_irrefl _ (e ▸ ends.length_lt)
    exact ⟨iff_of_false behind together, fun alone => absurd alone together, fun _ => ⟨num, gen, rfl, ends, unfit⟩⟩

set_option maxRecDepth 1024 in
/-- The generation is too large, and is lost with the word. -/
theorem word_lost :
    let after := Bytes.ofText " 70000 R 5"
    objectFrom true (.number (.int 1)) after = (some (.num (.int 1)), Bytes.ofText " 5") ∧
      Bytes.ofText " 5" ≠ after ∧ ¬Alone (.int 1) after ∧
      ∃ gen, EndsReference after gen (Bytes.ofText " 5") ∧ ¬FitReference 1 gen := by
  intro after
  have read : objectFrom true (.number (.int 1)) after = (some (.num (.int 1)), Bytes.ofText " 5") := rfl
  obtain ⟨stays, -, lost⟩ := number_left_alone read
  have moved : Bytes.ofText " 5" ≠ after := by decide
  have together : ¬Alone (.int 1) after := fun alone => moved (stays.mpr alone)
  obtain ⟨num, gen, hn, ends, unfit⟩ := lost together
  cases hn
  exact ⟨read, moved, together, gen, ends, unfit⟩

end PdfContent.Reading
