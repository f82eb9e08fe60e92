import PdfContent.Syntax.Reading
/-!
# Spelling — how tokens are written

What a token may look like in a file, given by rules that mention no reader: names with escapes, strings in both forms,
integers with a sign, and fillers between two tokens.  The lexer gets back the token of every such spelling
(`Written.next?`), so a file is read as the tokens that it spells (`Spelled.reads`).
-/
namespace PdfContent

/-! ## Rules -/

/-- White space and comments in any order, not empty. -/
inductive Filler : Bytes → Prop where
  | blank {b} (h : Byte.isBlank b = true) : Filler [b]
  | comment {body e} (hb : ∀ b ∈ body, Byte.isEol b = false) (he : Byte.isEol e = true) :
      Filler (0x25 :: (body ++ [e]))
  | append {g g'} : Filler g → Filler g' → Filler (g ++ g')

def HexPair (h l b : UInt8) : Prop :=
  ∃ x y, Byte.hexValue? h = some x ∧ Byte.hexValue? l = some y ∧ b.toNat = 16 * x.toNat + y.toNat

inductive NameBody : Bytes → Bytes → Prop where
  | nil : NameBody [] []
  | plain {b s bs} (hb : Byte.isRegular b = true) (hn : b ≠ 0x23) : NameBody s bs → NameBody (b :: s) (b :: bs)
  | escape {h l b s bs} (hb : HexPair h l b) : NameBody s bs → NameBody (0x23 :: h :: l :: s) (b :: bs)

/-- The spelling of a string between angle brackets: pairs of digits, with white space wherever one likes. -/
inductive HexBody : Bytes → Bytes → Prop where
  | nil : HexBody [] []
  | blank {b s bs} (hb : Byte.isBlank b = true) : HexBody s bs → HexBody (b :: s) bs
  | pair {h gap l b s bs} (hb : HexPair h l b) (hg : ∀ c ∈ gap, Byte.isBlank c = true) :
      HexBody s bs → HexBody (h :: (gap ++ l :: s)) (b :: bs)

/-- The spelling of a string between parentheses: bytes as they are, letters after a backslash and octal numbers. -/
inductive LiteralBody : Bytes → Bytes → Prop where
  | nil : LiteralBody [] []
  | plain {b s bs} (h : b ∉ [0x28, 0x29, 0x5c, 0x0d]) : LiteralBody s bs → LiteralBody (b :: s) (b :: bs)
  | escape {c s bs} (h : Literal.isOctal c = false) (hc : Byte.isEol c = false) :
      LiteralBody s bs → LiteralBody (0x5c :: c :: s) (Literal.escaped c :: bs)
  | octal {c d e b s bs} (h : ∀ x ∈ [c, d, e], Literal.isOctal x = true)
      (hb : b.toNat = 64 * (c.toNat - 0x30) + 8 * (d.toNat - 0x30) + (e.toNat - 0x30)) :
      LiteralBody s bs → LiteralBody (0x5c :: c :: d :: e :: s) (b :: bs)

/-- The spelling of an integer: digits, after a sign or not. -/
inductive IntegerWord : Int → Bytes → Prop where
  | plain {ds} (hn : ds ≠ []) (hd : ∀ d ∈ ds, Byte.isDigit d = true) : IntegerWord (Bytes.withDigits 0 ds) ds
  | positive {ds} (hn : ds ≠ []) (hd : ∀ d ∈ ds, Byte.isDigit d = true) :
      IntegerWord (Bytes.withDigits 0 ds) (0x2b :: ds)
  | negative {ds} (hn : ds ≠ []) (hd : ∀ d ∈ ds, Byte.isDigit d = true) :
      IntegerWord (-(Bytes.withDigits 0 ds : Int)) (0x2d :: ds)

inductive Written : Token → Bytes → Prop where
  | integer {i w} : IntegerWord i w → Written (.number (.int i)) w
  | keyword {b w} (hw : ∀ c ∈ b :: w, Byte.isRegular c = true) (hb : Token.startsNumber b = false) :
      Written (.keyword (b :: w)) (b :: w)
  | name {n w} : NameBody w n → Written (.name ⟨n⟩) (0x2f :: w)
  | hex {bs w} : HexBody w bs → Written (.string bs) (0x3c :: (w ++ [0x3e]))
  | literal {bs w} : LiteralBody w bs → Written (.string bs) (0x28 :: (w ++ [0x29]))
  | arrayStart : Written .arrayStart [0x5b]
  | arrayEnd : Written .arrayEnd [0x5d]
  | dictStart : Written .dictStart [0x3c, 0x3c]
  | dictEnd : Written .dictEnd [0x3e, 0x3e]

/-- The spelling of several tokens, with a filler between any two. -/
inductive Spelled : List Token → Bytes → Prop where
  | one {t w} : Written t w → Spelled [t] w
  | cons {t u w g s ts} : Written t w → Filler g → Spelled (u :: ts) s → Spelled (t :: u :: ts) (w ++ (g ++ s))

/-- An integer fits into a signed word of 64 bits, with its sign taken off. -/
def Token.InRange : Token → Prop
  | .number (.int i) => -maxInt64 ≤ i ∧ i ≤ maxInt64
  | _ => True

/-! ## Fillers -/

/-- Nothing follows, or what follows ends a word. -/
def Ended (s : Bytes) : Prop := ∀ b ∈ s.head?, Byte.isRegular b = false

/-- The token ends in front of `s`.  Only words go on as long as they can. -/
def Token.EndsAt (s : Bytes) : Token → Prop
  | .number _ | .name _ | .keyword _ => Ended s
  | _ => True

theorem Ended.endsAt {s : Bytes} (h : Ended s) (t : Token) : t.EndsAt s := by
  cases t <;> first | exact h | trivial

namespace Filler

theorem skip_comment {body : Bytes} (hb : ∀ b ∈ body, Byte.isEol b = false) {e : UInt8} (he : Byte.isEol e = true)
    (s : Bytes) : Token.skipFiller true (body ++ e :: s) = Token.skipFiller false s := by
  induction body with
  | nil => simp [Token.skipFiller, he]
  | cons b body ih =>
    have hb' := hb b (.head _)
    simp only [List.cons_append, Token.skipFiller, if_true, hb', Bool.not_false]
    exact ih fun c hc => hb c (.tail _ hc)

/-- The lexer skips a filler. -/
theorem skip {g : Bytes} (h : Filler g) (s : Bytes) : Token.skipFiller false (g ++ s) = Token.skipFiller false s := by
  induction h generalizing s with
  | blank h => simp [Token.skipFiller, h]
  | @comment body e hb he =>
    have hp : Byte.isBlank 0x25 = false := by decide
    simp only [List.cons_append, List.append_assoc, List.nil_append, Token.skipFiller, hp]
    exact skip_comment hb he s
  | append _ _ ih ih' => rw [List.append_assoc, ih, ih']

theorem next? {g : Bytes} (h : Filler g) (s : Bytes) : Token.next? (g ++ s) = Token.next? s := by
  unfold Token.next?
  rw [h.skip]

/-- A filler ends a word. -/
theorem ended {g : Bytes} (h : Filler g) (s : Bytes) : Ended (g ++ s) := by
  induction h generalizing s with
  | blank h =>
    rintro _ ⟨⟩
    simp [Byte.isRegular, h]
  | comment =>
    rintro _ ⟨⟩
    decide
  | append _ _ ih _ =>
    rw [List.append_assoc]
    exact ih _

end Filler

/-! ## Words -/

theorem Ended.nil : Ended [] := fun _ h => nomatch h

/-- A word of regular bytes ends where it ends. -/
theorem Ended.takeWhile {c : Bytes} (hc : Ended c) {w : Bytes} (hw : ∀ b ∈ w, Byte.isRegular b = true) :
    (w ++ c).takeWhile Byte.isRegular = w ∧ (w ++ c).dropWhile Byte.isRegular = c := by
  rw [List.takeWhile_append_of_pos hw, List.dropWhile_append_of_pos hw]
  cases c with
  | nil => exact ⟨List.append_nil w, rfl⟩
  | cons b c =>
    have hb := hc b rfl
    simp [List.takeWhile, List.dropWhile, hb]

/-- A regular byte starts a word and nothing else. -/
theorem regular_start {b : UInt8} (hb : Byte.isRegular b = true) (r : Bytes) :
    Token.next? (b :: r) = some (Token.ofWord (b :: r.takeWhile Byte.isRegular), r.dropWhile Byte.isRegular) := by
  obtain ⟨hblank, hdelim⟩ : Byte.isBlank b = false ∧ Byte.isDelimiter b = false := by
    simpa [Byte.isRegular] using hb
  simp only [Byte.isDelimiter, Bool.or_eq_false_iff] at hdelim
  unfold Token.next?
  have hs : Token.skipFiller false (b :: r) = b :: r := by
    simp [Token.skipFiller, hblank, hdelim]
  rw [hs]
  simp [hdelim]

/-- What is checked for every value of a byte holds of all bytes. -/
theorem forall_byte {p : UInt8 → Prop} (h : ∀ n : Fin 256, p (UInt8.ofFin n)) (b : UInt8) : p b := h b.toFin

/-- A filler ends with a byte that ends a word. -/
theorem Filler.ended_reverse {g : Bytes} (h : Filler g) (s : Bytes) : Ended (g.reverse ++ s) := by
  have eol (b : UInt8) (h : Byte.isEol b = true) : Byte.isRegular b = false := by
    obtain rfl | rfl : b = 0x0a ∨ b = 0x0d := by simpa [Byte.isEol] using h
    · rfl
    · rfl
  induction h generalizing s with
  | blank h =>
    rintro _ ⟨⟩
    simp [Byte.isRegular, h]
  | comment _ he =>
    rw [List.reverse_cons, List.reverse_append]
    rintro _ ⟨⟩
    exact eol _ he
  | append _ _ _ ih' =>
    rw [List.reverse_append, List.append_assoc]
    exact ih' _

set_option maxRecDepth 2048 in
theorem digit_facts : ∀ d : UInt8, Byte.isDigit d = true →
    Byte.isRegular d = true ∧ Literal.isSign d = false ∧ Token.startsNumber d = true ∧ d ≠ 0x2e :=
  forall_byte (by decide)

namespace IntegerWord

variable {ds : Bytes}

theorem regular {i : Int} {w : Bytes} (h : IntegerWord i w) :
    (∀ c ∈ w, Byte.isRegular c = true) ∧ ∃ b r, w = b :: r ∧ Token.startsNumber b = true := by
  have digits {ds : Bytes} (hd : ∀ d ∈ ds, Byte.isDigit d = true) : ∀ c ∈ ds, Byte.isRegular c = true :=
    fun c hc => (digit_facts c (hd c hc)).1
  cases h with
  | plain hn hd =>
    obtain ⟨d, r, rfl⟩ := List.exists_cons_of_ne_nil hn
    exact ⟨digits hd, d, r, rfl, (digit_facts d (hd d (.head _))).2.2.1⟩
  | positive _ hd =>
    refine ⟨fun c hc => ?_, 0x2b, _, rfl, rfl⟩
    rcases List.mem_cons.mp hc with rfl | hc
    · decide
    · exact digits hd c hc
  | negative _ hd =>
    refine ⟨fun c hc => ?_, 0x2d, _, rfl, rfl⟩
    rcases List.mem_cons.mp hc with rfl | hc
    · decide
    · exact digits hd c hc

/-- The signs in front of digits, and the digits. -/
theorem signs (hn : ds ≠ []) (hd : ∀ d ∈ ds, Byte.isDigit d = true) {sign : Bytes}
    (hs : ∀ b ∈ sign, Literal.isSign b = true) :
    (sign ++ ds).takeWhile Literal.isSign = sign ∧ (sign ++ ds).dropWhile Literal.isSign = ds := by
  obtain ⟨d, r, rfl⟩ := List.exists_cons_of_ne_nil hn
  have hd' := (digit_facts d (hd d (.head _))).2.1
  rw [List.takeWhile_append_of_pos hs, List.dropWhile_append_of_pos hs]
  simp [List.takeWhile, List.dropWhile, hd']

/-- One more digit, of a number that the greatest value of a word holds. -/
theorem toInt_step {v : Int64} {n : Nat} {d : UInt8} (hv : v.toInt = min (n : Int) maxInt64)
    (hd : Byte.isDigit d = true) :
    (Word.saturatingAdd (Word.saturatingMul v 10) (.ofInt (d - 0x30).toNat)).toInt =
      min ((n * 10 + (d.toNat - 0x30) : Nat) : Int) maxInt64 := by
  obtain ⟨low, high⟩ : 0x30 ≤ d.toNat ∧ d.toNat ≤ 0x39 := by
    simpa [Byte.isDigit, UInt8.le_iff_toNat_le] using hd
  have digit : (d - 0x30).toNat = d.toNat - 0x30 := UInt8.toNat_sub_of_le d 0x30 (UInt8.le_iff_toNat_le.mpr low)
  have added : (Int64.ofInt (d - 0x30).toNat).toInt = d.toNat - 0x30 := by
    rw [digit, Int64.toInt_ofInt_of_le (by omega) (by omega)]
    omega
  have ten : (10 : Int64).toInt = 10 := rfl
  rw [Word.saturatingAdd, Word.toInt_saturate, Word.saturatingMul, Word.toInt_saturate, added, hv, ten]
  unfold maxInt64
  omega

/-- The digits so far denote a number that the greatest value of a word holds: what the loop over them preserves. -/
theorem toInt_accumulate : ∀ (ds : Bytes) {v : Int64} {n : Nat}, v.toInt = min (n : Int) maxInt64 →
    (∀ d ∈ ds, Byte.isDigit d = true) →
      (Literal.accumulate v ds).toInt = min (Bytes.withDigits n ds : Int) maxInt64
  | [], _, _, hv, _ => hv
  | d :: ds, _, _, hv, hd => toInt_accumulate ds (toInt_step hv (hd d (.head _))) fun c hc => hd c (.tail _ hc)

/-- No word from 0 on loses its value when its sign is turned. -/
theorem toInt_neg {v : Int64} (h : 0 ≤ v.toInt) : (-v).toInt = -v.toInt := by
  have high := Int64.toInt_lt v
  rw [Int64.toInt_neg, Int.bmod_eq_of_le (by omega) (by omega)]

/-- The greatest value of a word bounds the digits, and then the minus signs count. -/
theorem number?_digits (hn : ds ≠ []) (hd : ∀ d ∈ ds, Byte.isDigit d = true) (sign : Bytes)
    (hs : ∀ b ∈ sign, Literal.isSign b = true) :
    Literal.number? (sign ++ ds) = some (.int (if sign.count 0x2d % 2 == 1 then
      -min (Bytes.withDigits 0 ds : Int) maxInt64 else min (Bytes.withDigits 0 ds : Int) maxInt64)) := by
  obtain ⟨ht, hr⟩ := signs hn hd hs
  have hpoint : ds.contains 0x2e = false := by
    rw [List.contains_eq_any_beq, List.any_eq_false]
    intro d hd' he
    exact (digit_facts d (hd d hd')).2.2.2 (beq_iff_eq.mp he).symm
  have hall : ds.all Byte.isDigit = true := List.all_eq_true.mpr hd
  have hempty : ds.isEmpty = false := by simpa using hn
  have value := toInt_accumulate ds (show (0 : Int64).toInt = min ((0 : Nat) : Int) maxInt64 by decide) hd
  have positive : 0 ≤ (Literal.accumulate 0 ds).toInt := by
    rw [value, maxInt64]
    omega
  unfold Literal.number?
  simp only [ht, hr, hpoint, hall, hempty, Bool.false_eq_true, ↓reduceIte]
  split
  · rw [toInt_neg positive, value]
  · rw [value]

/-- The integer that its spelling is read as. -/
theorem number? {i : Int} {w : Bytes} (h : IntegerWord i w) (hi : -maxInt64 ≤ i ∧ i ≤ maxInt64) :
    Literal.number? w = some (.int i) := by
  cases h with
  | plain hn hd =>
    have read := number?_digits hn hd [] nofun
    rwa [Int.min_eq_left hi.2] at read
  | positive hn hd =>
    have read := number?_digits hn hd [0x2b] (List.forall_mem_singleton.mpr rfl)
    rwa [Int.min_eq_left hi.2] at read
  | negative hn hd =>
    have read := number?_digits hn hd [0x2d] (List.forall_mem_singleton.mpr rfl)
    rwa [Int.min_eq_left (by omega)] at read

end IntegerWord

/-! ## Names -/

namespace HexPair

variable {h l b : UInt8}

set_option maxRecDepth 2048 in
theorem hexValue_facts : ∀ h : UInt8, ∀ x, Byte.hexValue? h = some x →
    x.toNat < 16 ∧ Byte.isRegular h = true ∧ h ≠ 0x3e ∧ h ≠ 0x3c ∧ h ≠ 0x2b := by
  have every : ∀ h : UInt8, (Byte.hexValue? h).all fun x =>
      x.toNat < 16 && Byte.isRegular h && h != 0x3e && h != 0x3c && h != 0x2b :=
    forall_byte (by decide)
  intro h x hx
  simpa [hx, and_assoc] using every h

theorem value (p : HexPair h l b) : Unicode.hexNumber? [h, l] = some b.toNat := by
  obtain ⟨x, y, hx, hy, hb⟩ := p
  have hplus := (hexValue_facts h x hx).2.2.2.2
  have hn : Unicode.hexNumber? [h, l] = some ((0 * 16 + x.toNat) * 16 + y.toNat) := by
    simp [Unicode.hexNumber?, hx, hy, hplus]
  rw [hn, hb]
  congr 1
  omega

theorem shift_or : ∀ n m : Fin 16, ((UInt8.ofNat n) <<< 4 ||| UInt8.ofNat m).toNat = 16 * n.val + m.val := by
  decide

theorem nibbles (p : HexPair h l b) :
    ∃ x y, Byte.hexValue? h = some x ∧ Byte.hexValue? l = some y ∧ (x <<< 4) ||| y = b := by
  obtain ⟨x, y, hx, hy, hb⟩ := p
  have hs := shift_or ⟨x.toNat, (hexValue_facts h x hx).1⟩ ⟨y.toNat, (hexValue_facts l y hy).1⟩
  simp only [UInt8.ofNat_toNat] at hs
  exact ⟨x, y, hx, hy, UInt8.toNat_inj.mp (hs.trans hb.symm)⟩

end HexPair

namespace NameBody

theorem regular {w n : Bytes} (h : NameBody w n) : ∀ b ∈ w, Byte.isRegular b = true := by
  induction h with
  | nil => exact nofun
  | plain hb _ _ ih => exact List.forall_mem_cons.mpr ⟨hb, ih⟩
  | escape hb _ ih =>
    obtain ⟨x, y, hx, hy, -⟩ := hb
    exact List.forall_mem_cons.mpr ⟨by decide, List.forall_mem_cons.mpr ⟨(HexPair.hexValue_facts _ _ hx).2.1,
      List.forall_mem_cons.mpr ⟨(HexPair.hexValue_facts _ _ hy).2.1, ih⟩⟩⟩

theorem name_cons {b : UInt8} (hb : b ≠ 0x23) (s : Bytes) : Literal.name (b :: s) = b :: Literal.name s := by
  match s with
  | [] => rfl
  | [c] => rfl
  | c :: d :: r => simp [Literal.name, hb]

/-- The name that its spelling is read as. -/
theorem decode {w n : Bytes} (h : NameBody w n) : Literal.name w = n := by
  induction h with
  | nil => rfl
  | plain _ hn _ ih => rw [name_cons hn, ih]
  | escape hb _ ih => simp [Literal.name, hb.value, ih]

end NameBody

/-! ## Strings -/

namespace HexBody

theorem hexValue?_of_isBlank (b : UInt8) (h : Byte.isBlank b = true) :
    Byte.hexValue? b = none ∧ b ≠ 0x3e ∧ b ≠ 0x3c := by
  simp only [Byte.isBlank, Bool.or_eq_true, beq_iff_eq] at h
  obtain ((((rfl | rfl) | rfl) | rfl) | rfl) | rfl := h <;> decide

/-- No angle bracket stands between the two of a string. -/
theorem not_angle {w bs : Bytes} (h : HexBody w bs) : ∀ b ∈ w, b ≠ 0x3e ∧ b ≠ 0x3c := by
  induction h with
  | nil => exact nofun
  | blank hb _ ih => exact List.forall_mem_cons.mpr ⟨(hexValue?_of_isBlank _ hb).2, ih⟩
  | pair hb hg _ ih =>
    obtain ⟨x, y, hx, hy, -⟩ := hb
    have hh := (HexPair.hexValue_facts _ _ hx).2.2
    have hl := (HexPair.hexValue_facts _ _ hy).2.2
    refine List.forall_mem_cons.mpr ⟨⟨hh.1, hh.2.1⟩, List.forall_mem_append.mpr ⟨?_, ?_⟩⟩
    · exact fun c hc => (hexValue?_of_isBlank c (hg c hc)).2
    · exact List.forall_mem_cons.mpr ⟨⟨hl.1, hl.2.1⟩, ih⟩

/-- The string that its spelling between angle brackets is read as. -/
theorem decode {w bs : Bytes} (h : HexBody w bs) : Literal.hexString w = bs := by
  induction h with
  | nil => rfl
  | blank hb _ ih =>
    rw [Literal.hexString, List.filterMap_cons_none (hexValue?_of_isBlank _ hb).1]
    exact ih
  | @pair h gap l b s bs hb hg _ ih =>
    obtain ⟨x, y, hx, hy, hv⟩ := hb.nibbles
    have hgap : gap.filterMap Byte.hexValue? = [] :=
      List.filterMap_eq_nil_iff.mpr fun c hc => (hexValue?_of_isBlank c (hg c hc)).1
    rw [Literal.hexString] at ih ⊢
    rw [List.filterMap_cons_some hx, List.filterMap_append, hgap, List.nil_append, List.filterMap_cons_some hy,
      Literal.hexPairs, hv, ih]

end HexBody

namespace LiteralBody

set_option maxRecDepth 2048 in
theorem octal_facts : ∀ d : UInt8, Literal.isOctal d = true →
    d ≠ 0x28 ∧ d ≠ 0x29 ∧ d ≠ 0x5c ∧ Byte.isEol d = false ∧ d.toNat - 0x30 < 8 :=
  forall_byte (by decide)

theorem stringBody_plain {b : UInt8} (hb : b ≠ 0x28 ∧ b ≠ 0x29 ∧ b ≠ 0x5c) (s : Bytes) :
    Token.stringBody 0 (b :: s) = (b :: (Token.stringBody 0 s).1, (Token.stringBody 0 s).2) := by
  rw [Token.stringBody.eq_def]
  simp [hb]

theorem stringBody_escape (b : UInt8) (s : Bytes) :
    Token.stringBody 0 (0x5c :: b :: s) = (0x5c :: b :: (Token.stringBody 0 s).1, (Token.stringBody 0 s).2) := by
  rw [Token.stringBody.eq_def]
  rfl

/-- The string ends at the first parenthesis that follows its spelling. -/
theorem body {w bs : Bytes} (h : LiteralBody w bs) (c : Bytes) : Token.stringBody 0 (w ++ 0x29 :: c) = (w, c) := by
  induction h with
  | nil =>
    rw [List.nil_append, Token.stringBody.eq_def]
    rfl
  | plain hb _ ih =>
    simp only [List.mem_cons, List.not_mem_nil, or_false, not_or] at hb
    rw [List.cons_append, stringBody_plain ⟨hb.1, hb.2.1, hb.2.2.1⟩, ih]
  | escape _ _ _ ih => rw [List.cons_append, List.cons_append, stringBody_escape, ih]
  | @octal x d e _ _ _ h _ _ ih =>
    obtain ⟨hd, hd', hd'', -⟩ := octal_facts d (h d (by simp))
    obtain ⟨he, he', he'', -⟩ := octal_facts e (h e (by simp))
    simp only [List.cons_append]
    rw [stringBody_escape, stringBody_plain ⟨hd, hd', hd''⟩, stringBody_plain ⟨he, he', he''⟩, ih]

theorem string_plain {b : UInt8} (hb : b ≠ 0x5c ∧ b ≠ 0x0d) (s : Bytes) :
    Literal.string (b :: s) = b :: Literal.string s := by
  simp [Literal.string, Literal.stringFrom, Literal.StringMode.read, Literal.StringMode.readPlain, hb]

theorem string_escape {b : UInt8} (h : Literal.isOctal b = false) (hb : Byte.isEol b = false) (s : Bytes) :
    Literal.string (0x5c :: b :: s) = Literal.escaped b :: Literal.string s := by
  simp only [Byte.isEol, Bool.or_eq_false_iff, beq_eq_false_iff_ne] at hb
  simp [Literal.string, Literal.stringFrom, Literal.StringMode.read, Literal.StringMode.readPlain, h, hb]

theorem string_octal {c d e : UInt8} (h : ∀ x ∈ [c, d, e], Literal.isOctal x = true) (s : Bytes) :
    Literal.string (0x5c :: c :: d :: e :: s) =
      (((c.toNat - 0x30) * 8 + (d.toNat - 0x30)) * 8 + (e.toNat - 0x30)).toUInt8 :: Literal.string s := by
  have hc := h c (by simp)
  have hd := h d (by simp)
  have he := h e (by simp)
  have heol := (octal_facts c hc).2.2.2.1
  simp only [Byte.isEol, Bool.or_eq_false_iff, beq_eq_false_iff_ne] at heol
  simp [Literal.string, Literal.stringFrom, Literal.StringMode.read, Literal.StringMode.readPlain, hc, hd, he, heol]

/-- The string that its spelling between parentheses is read as. -/
theorem decode {w bs : Bytes} (h : LiteralBody w bs) : Literal.string w = bs := by
  induction h with
  | nil => rfl
  | plain hb _ ih =>
    simp only [List.mem_cons, List.not_mem_nil, or_false, not_or] at hb
    rw [string_plain hb.2.2, ih]
  | escape h hc _ ih => rw [string_escape h hc, ih]
  | @octal c d e b _ _ h hb _ ih =>
    have hv : ((c.toNat - 0x30) * 8 + (d.toNat - 0x30)) * 8 + (e.toNat - 0x30) = b.toNat := by omega
    rw [string_octal h, ih, hv]
    simp

end LiteralBody

/-! ## Tokens -/

namespace Written

/-- Digits are a number. -/
theorem digits {n : Nat} {w : Bytes} (hn : w ≠ []) (hd : w.all Byte.isDigit = true) (hv : Bytes.withDigits 0 w = n) :
    Written (.number (.int n)) w :=
  hv ▸ .integer (.plain hn (List.all_eq_true.mp hd))

/-- A name without escapes stands for itself. -/
theorem plainName {n : Bytes} (h : n.all (fun b => Byte.isRegular b && b != 0x23) = true) :
    Written (.name ⟨n⟩) (0x2f :: n) := by
  refine .name ?_
  induction n with
  | nil => exact .nil
  | cons b n ih =>
    simp only [List.all_cons, Bool.and_eq_true, bne_iff_ne] at h
    exact .plain h.1.1 h.1.2 (ih (by simpa using h.2))

theorem next?_name (s : Bytes) : Token.next? (0x2f :: s) =
    some (.name ⟨Literal.name (s.takeWhile Byte.isRegular)⟩, s.dropWhile Byte.isRegular) := rfl

theorem next?_literal (s : Bytes) : Token.next? (0x28 :: s) =
    some (.string (Literal.string (Token.stringBody 0 s).1), (Token.stringBody 0 s).2) := rfl

theorem next?_hex {s : Bytes} (hs : s.head? ≠ some 0x3c) : Token.next? (0x3c :: s) =
    some (.string (Literal.hexString (s.takeWhile (· != 0x3e))), (s.dropWhile (· != 0x3e)).drop 1) := by
  match s with
  | [] => rfl
  | b :: r =>
    have hb : b ≠ 0x3c := fun h => hs (by rw [h]; rfl)
    have skip : Token.skipFiller false (0x3c :: b :: r) = 0x3c :: b :: r := rfl
    unfold Token.next?
    simp [skip, hb]

/-- A word of regular bytes, up to where it ends. -/
theorem next?_word {b : UInt8} {r c : Bytes} (hw : ∀ x ∈ b :: r, Byte.isRegular x = true) (hc : Ended c) :
    Token.next? (b :: r ++ c) = some (Token.ofWord (b :: r), c) := by
  obtain ⟨ht, hd⟩ := hc.takeWhile fun x hx => hw x (.tail _ hx)
  rw [List.cons_append, regular_start (hw b (.head _)), ht, hd]

/-- **The lexer reads the token that is spelled.** -/
theorem next? {t : Token} {w c : Bytes} (h : Written t w) (ht : t.InRange) (hc : t.EndsAt c) :
    Token.next? (w ++ c) = some (t, c) := by
  cases h with
  | integer hi =>
    obtain ⟨hw, b, r, rfl, hb⟩ := hi.regular
    rw [next?_word hw hc, Token.ofWord, if_pos hb, hi.number? ht]
    rfl
  | keyword hw hb => rw [next?_word hw hc, Token.ofWord, if_neg (by rw [hb]; decide)]
  | name hn =>
    obtain ⟨ht, hd⟩ := Ended.takeWhile hc hn.regular
    rw [List.cons_append, next?_name, ht, hd, hn.decode]
  | @hex _ w hw =>
    have hne : ∀ x ∈ w, (x != 0x3e) = true := fun x hx => bne_iff_ne.mpr (hw.not_angle x hx).1
    have hhead : (w ++ 0x3e :: c).head? ≠ some 0x3c := by
      cases w with
      | nil => simp
      | cons x w => simpa using (hw.not_angle x (.head _)).2
    rw [List.cons_append, List.append_assoc, List.singleton_append, next?_hex hhead, List.takeWhile_append_of_pos hne,
      List.dropWhile_append_of_pos hne]
    simp [hw.decode]
  | literal hw =>
    rw [List.cons_append, List.append_assoc, List.singleton_append, next?_literal, hw.body, hw.decode]
  | arrayStart | arrayEnd | dictStart | dictEnd => rfl

end Written

/-- The tokens that bytes are read as, up to where `c` is left. -/
inductive ReadsTo (c : Bytes) : Bytes → List Token → Prop where
  | nil : ReadsTo c c []
  | cons {s r t ts} : Token.next? s = some (t, r) → ReadsTo c r ts → ReadsTo c s (t :: ts)

/-- The tokens that bytes are read as, from the first to the last byte. -/
abbrev Reads : Bytes → List Token → Prop := ReadsTo []

theorem ReadsTo.of_nil {c s : Bytes} (h : ReadsTo c s []) : s = c := by
  cases h
  rfl

theorem ReadsTo.of_cons {c s : Bytes} {t : Token} {ts : List Token} (h : ReadsTo c s (t :: ts)) :
    ∃ r, Token.next? s = some (t, r) ∧ ReadsTo c r ts := by
  cases h with
  | cons hn hr => exact ⟨_, hn, hr⟩

/-- **What is spelled is read**, token by token, whatever comes after it. -/
theorem Spelled.readsTo {ts : List Token} {s c : Bytes} (h : Spelled ts s) (ht : ∀ t ∈ ts, t.InRange)
    (hc : ∀ t ∈ ts.getLast?, t.EndsAt c) : ReadsTo c (s ++ c) ts := by
  induction h with
  | one hw => exact .cons (hw.next? (ht _ (.head _)) (hc _ rfl)) .nil
  | @cons t u w g s ts hw hg hs ih =>
    obtain ⟨r, hn, hr⟩ := (ih (fun t h => ht t (.tail _ h)) fun t h => hc t (by rwa [List.getLast?_cons_cons])).of_cons
    rw [List.append_assoc, List.append_assoc]
    exact .cons (hw.next? (ht _ (.head _)) ((hg.ended _).endsAt _)) (.cons ((hg.next? _).trans hn) hr)

theorem Spelled.reads {ts : List Token} {s : Bytes} (h : Spelled ts s) (ht : ∀ t ∈ ts, t.InRange) : Reads s ts := by
  have hr := h.readsTo ht fun t _ => Ended.nil.endsAt t
  rwa [List.append_nil] at hr

end PdfContent
