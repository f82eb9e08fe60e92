import PdfContent.Proofs.Syntax.Spelling
/-!
# Escapes — number signs in names

The raw bytes of a name are scanned from the left: a number sign and two bytes that are an escape stand for one byte,
and every other byte for itself (`Scans`).  Two hexadecimal digits are an escape.  The reader also takes a plus sign and
one digit for an escape, and apart from that it scans exactly so (`name_scanned`, `signed_digit_decoded`).
-/
namespace PdfContent.Literal

variable {h l : UInt8} {raw out : Bytes}

/-- The value of a hexadecimal digit of either case is its place among the digits. -/
def HexDigit (d : UInt8) (v : Nat) : Prop :=
  (Bytes.ofText "0123456789abcdef")[v]? = some d ∨ (Bytes.ofText "0123456789ABCDEF")[v]? = some d

def TwoDigits (h l b : UInt8) : Prop := ∃ x y, HexDigit h x ∧ HexDigit l y ∧ b.toNat = 16 * x + y

/-- A plus sign with one hexadecimal digit, and the byte that this denotes. -/
def SignedDigit (h l b : UInt8) : Prop := h = 0x2b ∧ HexDigit l b.toNat

/-- What the reader takes for an escape. -/
def Escape (h l b : UInt8) : Prop := TwoDigits h l b ∨ SignedDigit h l b

/-- A scan of the raw bytes of a name from the left, and what they stand for.  A number sign is kept if no escape
follows it. -/
inductive Scans (escape : UInt8 → UInt8 → UInt8 → Prop) : Bytes → Bytes → Prop where
  | nil : Scans escape [] []
  | escape {h l b raw out} : escape h l b → Scans escape raw out → Scans escape (0x23 :: h :: l :: raw) (b :: out)
  | keep {b raw out} : (∀ h l after x, b :: raw = 0x23 :: h :: l :: after → ¬escape h l x) → Scans escape raw out →
      Scans escape (b :: raw) (b :: out)

/-- No number sign with a plus sign and a hexadecimal digit behind it. -/
def Unsigned (raw : Bytes) : Prop :=
  ∀ before h l after b, raw = before ++ 0x23 :: h :: l :: after → ¬SignedDigit h l b

/-! ## Digits -/

set_option maxRecDepth 4096 in
theorem HexDigit.value {d : UInt8} {v : Nat} (h : HexDigit d v) : ∃ x, Byte.hexValue? d = some x ∧ x.toNat = v := by
  have each : ∀ text ∈ [Bytes.ofText "0123456789abcdef", Bytes.ofText "0123456789ABCDEF"], text.length = 16 ∧
      ∀ i : Fin 16, (text[i.val]?.bind Byte.hexValue?).map UInt8.toNat = some i.val := by
    decide
  have digit (text : Bytes) (known : text ∈ [Bytes.ofText "0123456789abcdef", Bytes.ofText "0123456789ABCDEF"])
      (hd : text[v]? = some d) : ∃ x, Byte.hexValue? d = some x ∧ x.toNat = v := by
    obtain ⟨length, values⟩ := each text known
    obtain ⟨within, -⟩ := List.getElem?_eq_some_iff.mp hd
    have found := values ⟨v, length ▸ within⟩
    rw [hd] at found
    exact Option.map_eq_some_iff.mp found
  rcases h with h | h
  · exact digit _ (.head _) h
  · exact digit _ (.tail _ (.head _)) h

set_option maxRecDepth 4096 in
theorem hexDigit_iff (d : UInt8) (v : Nat) : HexDigit d v ↔ ∃ x, Byte.hexValue? d = some x ∧ x.toNat = v := by
  have every : ∀ d : UInt8, (Byte.hexValue? d).all fun x =>
      (Bytes.ofText "0123456789abcdef")[x.toNat]? == some d || (Bytes.ofText "0123456789ABCDEF")[x.toNat]? == some d :=
    forall_byte (by decide)
  refine ⟨HexDigit.value, ?_⟩
  rintro ⟨x, hx, rfl⟩
  have known := every d
  rwa [hx, Option.all_some, Bool.or_eq_true, beq_iff_eq, beq_iff_eq] at known

theorem hexNumber?_signed (l : UInt8) : Unicode.hexNumber? [0x2b, l] = (Byte.hexValue? l).map UInt8.toNat := by
  cases hl : Byte.hexValue? l <;> simp [Unicode.hexNumber?, hl]

theorem hexNumber?_pair (hp : h ≠ 0x2b) (l : UInt8) : Unicode.hexNumber? [h, l] =
    (Byte.hexValue? h).bind fun x => (Byte.hexValue? l).map fun y => 16 * x.toNat + y.toNat := by
  cases hh : Byte.hexValue? h <;> cases hl : Byte.hexValue? l <;> simp [Unicode.hexNumber?, hp, hh, hl, Nat.mul_comm]

/-- Two bytes make a number for the reader exactly if they are an escape. -/
theorem hexNumber?_iff (h l : UInt8) (n : Nat) :
    Unicode.hexNumber? [h, l] = some n ↔ ∃ b, Escape h l b ∧ b.toNat = n := by
  simp only [Escape, TwoDigits, SignedDigit, hexDigit_iff]
  constructor
  · intro number
    by_cases plus : h = 0x2b
    · subst plus
      rw [hexNumber?_signed, Option.map_eq_some_iff] at number
      obtain ⟨y, hy, rfl⟩ := number
      exact ⟨y, .inr ⟨rfl, y, hy, rfl⟩, rfl⟩
    · simp only [hexNumber?_pair plus, Option.bind_eq_some_iff, Option.map_eq_some_iff] at number
      obtain ⟨x, hx, y, hy, rfl⟩ := number
      have high := (HexPair.hexValue_facts h x hx).1
      have low := (HexPair.hexValue_facts l y hy).1
      have byte : (16 * x.toNat + y.toNat).toUInt8.toNat = 16 * x.toNat + y.toNat := Nat.mod_eq_of_lt (by omega)
      exact ⟨_, .inl ⟨_, _, ⟨x, hx, rfl⟩, ⟨y, hy, rfl⟩, byte⟩, byte⟩
  · rintro ⟨b, ⟨_, _, ⟨x, hx, rfl⟩, ⟨y, hy, rfl⟩, hb⟩ | ⟨rfl, y, hy, hb⟩, rfl⟩
    · have plus : h ≠ 0x2b := (HexPair.hexValue_facts h x hx).2.2.2.2
      rw [hexNumber?_pair plus, hx, hy, hb]
      rfl
    · rw [hexNumber?_signed, hy, ← hb]
      rfl

/-! ## Scans -/

theorem escape_unique (h l b b' : UInt8) (hb : Escape h l b) (hb' : Escape h l b') : b = b' := by
  have number := (hexNumber?_iff h l b.toNat).mpr ⟨b, hb, rfl⟩
  have number' := (hexNumber?_iff h l b'.toNat).mpr ⟨b', hb', rfl⟩
  exact UInt8.toNat_inj.mp (Option.some.inj (number.symm.trans number'))

namespace Scans

variable {escape escape' : UInt8 → UInt8 → UInt8 → Prop}

/-- There is one scan at most. -/
theorem unique (single : ∀ h l b b', escape h l b → escape h l b' → b = b') {out' : Bytes}
    (s : Scans escape raw out) (s' : Scans escape raw out') : out = out' := by
  induction s generalizing out' with
  | nil =>
    cases s'
    rfl
  | escape hb _ ih =>
    cases s' with
    | escape hb' s' => rw [single _ _ _ _ hb hb', ih s']
    | keep kept _ => exact absurd hb (kept _ _ _ _ rfl)
  | keep kept _ ih =>
    cases s' with
    | escape hb' _ => exact absurd hb' (kept _ _ _ _ rfl)
    | keep _ s' => rw [ih s']

/-- Only the escapes that stand behind a number sign count. -/
theorem congr (s : Scans escape raw out) (same : ∀ before h l after b, raw = before ++ 0x23 :: h :: l :: after →
    (escape h l b ↔ escape' h l b)) : Scans escape' raw out := by
  induction s with
  | nil => exact .nil
  | escape hb _ ih =>
    refine .escape ((same [] _ _ _ _ rfl).mp hb) (ih fun before h l after b hr => ?_)
    exact same (0x23 :: _ :: _ :: before) h l after b (by rw [hr]; rfl)
  | keep kept _ ih =>
    refine .keep (fun h l after x hr hx => kept h l after x hr ((same [] h l after x hr).mpr hx)) ?_
    exact ih fun before h l after b hr => same (_ :: before) h l after b (by rw [hr]; rfl)

end Scans

/-- The reader scans, and goes by its own escapes. -/
theorem scans_name (raw : Bytes) : Scans Escape raw (name raw) := by
  fun_induction name raw with
  | case1 => exact .nil
  | case2 b => exact .keep nofun .nil
  | case3 b c => exact .keep nofun (.keep nofun .nil)
  | case4 b c d r n hn ih =>
    split at hn
    case isTrue sign =>
      obtain ⟨x, hx, rfl⟩ := (hexNumber?_iff c d n).mp hn
      have byte : x.toNat.toUInt8 = x := UInt8.ofNat_toNat
      rw [eq_of_beq sign, byte]
      exact .escape hx ih
    case isFalse => cases hn
  | case5 b c d r hn ih =>
    refine .keep ?_ ih
    rintro h l after x hr hx
    cases hr
    rw [if_pos (beq_self_eq_true _)] at hn
    rw [(hexNumber?_iff c d x.toNat).mpr ⟨x, hx, rfl⟩] at hn
    cases hn

/-- **The escapes of a name are decoded.**  The reader scans the raw bytes of a name from the left, and in the place of
each number sign with two hexadecimal digits behind it there is the byte that they denote, unless there is a number sign
with a plus sign and a digit behind it.  That is taken for an escape too, and there is no further exception. -/
theorem name_scanned (raw : Bytes) :
    (Unsigned raw → ∀ out, Scans TwoDigits raw out ↔ name raw = out) ∧
      ∀ out, Scans Escape raw out ↔ name raw = out := by
  constructor
  · intro unsigned out
    have same (before h l after b) (hr : raw = before ++ 0x23 :: h :: l :: after) : Escape h l b ↔ TwoDigits h l b :=
      or_iff_left (unsigned before h l after b hr)
    constructor
    · intro s
      exact (scans_name raw).unique escape_unique
        (s.congr fun before h l after b hr => (same before h l after b hr).symm)
    · rintro rfl
      exact (scans_name raw).congr same
  · intro out
    constructor
    · exact (scans_name raw).unique escape_unique
    · rintro rfl
      exact scans_name raw

/-- Two number signs are kept in front of an escape, but a plus sign behind one is lost. -/
theorem signed_digit_decoded :
    let raw := Bytes.ofText "A###20#zz"
    let signed := Bytes.ofText "A#+5"
    Unsigned raw ∧ Scans TwoDigits raw (Bytes.ofText "A## #zz") ∧
      Scans Escape signed [0x41, 0x05] ∧ ¬Scans TwoDigits signed [0x41, 0x05] := by
  intro raw signed
  have unsigned : Unsigned raw := by
    rintro before h l after b hr ⟨rfl, -⟩
    have plus : 0x2b ∈ raw := hr ▸ List.mem_append_right before (.tail _ (.head _))
    exact absurd plus (by decide)
  refine ⟨unsigned, ((name_scanned raw).1 unsigned _).mpr (by decide), ((name_scanned signed).2 _).mpr (by decide), ?_⟩
  -- such a scan would have to take the plus sign for a digit
  intro s
  change Scans TwoDigits [0x41, 0x23, 0x2b, 0x35] [0x41, 0x05] at s
  cases s with
  | keep _ s =>
    cases s with
    | escape pair _ =>
      obtain ⟨x, -, plus, -⟩ := pair
      obtain ⟨v, hv, -⟩ := plus.value
      cases hv

end PdfContent.Literal
