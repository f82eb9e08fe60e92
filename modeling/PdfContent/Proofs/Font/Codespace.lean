import Mathlib.Data.List.Forall2
import Mathlib.Data.List.Induction
import PdfContent.Font.CMap
import PdfContent.Proofs.Content.Item
import PdfContent.Proofs.Number.Radix
/-!
# Codespace — which bytes of a string are taken for a code

A program lists ranges of codes by two strings each (`CodeBounds`).  A map compares codes by their numbers (`Spans`), not
byte by byte (`Holds`).  The numbers are in a range whenever all bytes are between its bounds; the other way round this is
so for the bounds of a block of consecutive numbers (`Blockwise`), and for no others.
-/
namespace PdfContent

namespace Bytes

theorem bigEndian_cons (b : UInt8) (s : Bytes) :
    bigEndian (b :: s) = b.toNat * Nat.pow 256 s.length + bigEndian s := by
  have single : bigEndian [b] = b.toNat := Nat.zero_add _
  rw [← List.singleton_append, bigEndian_append, single]

/-- The numbers of strings of one length are compared like the strings: by the first byte in which they differ. -/
theorem bigEndian_cons_le_iff {s t : Bytes} (h : s.length = t.length) (b c : UInt8) :
    bigEndian (b :: s) ≤ bigEndian (c :: t) ↔ b < c ∨ b = c ∧ bigEndian s ≤ bigEndian t := by
  have hs := bigEndian_lt s
  have ht := bigEndian_lt t
  rw [bigEndian_cons, bigEndian_cons, UInt8.lt_iff_toNat_lt, ← UInt8.toNat_inj, h] at *
  generalize Nat.pow 256 t.length = p at *
  constructor
  · intro hle
    rcases Nat.lt_trichotomy b.toNat c.toNat with hlt | heq | hgt
    · exact .inl hlt
    · rw [heq] at hle
      exact .inr ⟨heq, Nat.le_of_add_le_add_left hle⟩
    · have : (c.toNat + 1) * p ≤ b.toNat * p := Nat.mul_le_mul_right p hgt
      rw [Nat.succ_mul] at this
      omega
  · rintro (hlt | ⟨heq, hle⟩)
    · have : (b.toNat + 1) * p ≤ c.toNat * p := Nat.mul_le_mul_right p hlt
      rw [Nat.succ_mul] at this
      omega
    · rw [heq]
      exact Nat.add_le_add_left hle _

end Bytes

open Bytes

theorem CodeRange.contains_iff (r : CodeRange) (code length : Nat) :
    r.contains code length ↔ r.length = length ∧ r.low ≤ code ∧ code ≤ r.high := by
  simp only [contains, Bool.and_eq_true, beq_iff_eq, decide_eq_true_eq, and_assoc]

/-- Two strings as the bounds of a range of codes: of one length, from one to four bytes, and the lower one at most the
upper one in each byte. -/
structure CodeBounds where
  low : Bytes
  high : Bytes
  nonempty : low ≠ []
  short : low.length ≤ 4
  ordered : List.Forall₂ (· ≤ ·) low high

namespace CodeBounds

def range (b : CodeBounds) : CodeRange := ⟨bigEndian b.low, bigEndian b.high, b.low.length⟩

/-- Whether the number of a string is between the numbers of the bounds, which have as many bytes. -/
def Spans (b : CodeBounds) (s : Bytes) : Prop :=
  s.length = b.low.length ∧ bigEndian b.low ≤ bigEndian s ∧ bigEndian s ≤ bigEndian b.high

/-- Whether each byte of a string is between those of the bounds, which have as many bytes. -/
def Holds (b : CodeBounds) (s : Bytes) : Prop := List.Forall₂ (· ≤ ·) b.low s ∧ List.Forall₂ (· ≤ ·) s b.high

/-- Whether two bounds agree up to some byte, after which the lower one has all bits clear and the upper one all bits
set. -/
def Blockwise : Bytes → Bytes → Prop
  | l :: low, h :: high => if l = h then Blockwise low high else (∀ b ∈ low, b = 0x00) ∧ ∀ b ∈ high, b = 0xff
  | _, _ => True

theorem le_of_forall₂ {s t : Bytes} (h : List.Forall₂ (· ≤ ·) s t) : bigEndian s ≤ bigEndian t := by
  induction h with
  | nil => exact Nat.le_refl _
  | @cons b c s t hb ht ih =>
    rw [bigEndian_cons_le_iff ht.length_eq]
    rcases UInt8.lt_or_eq_of_le hb with hlt | heq
    · exact .inl hlt
    · exact .inr ⟨heq, ih⟩

theorem forall₂_zero {low s : Bytes} (hl : low.length = s.length) (hz : ∀ b ∈ low, b = 0x00) :
    List.Forall₂ (· ≤ ·) low s := by
  rw [List.forall₂_iff_zip]
  exact ⟨hl, fun h => by rw [hz _ (List.of_mem_zip h).1]; exact UInt8.zero_le⟩

theorem le_ones (b : UInt8) : b ≤ 0xff := UInt8.le_iff_toNat_le.mpr (Nat.le_of_lt_succ b.toNat_lt)

theorem forall₂_ones {s high : Bytes} (hl : s.length = high.length) (hz : ∀ b ∈ high, b = 0xff) :
    List.Forall₂ (· ≤ ·) s high := by
  rw [List.forall₂_iff_zip]
  exact ⟨hl, fun {b _} h => by rw [hz _ (List.of_mem_zip h).2]; exact le_ones b⟩

theorem Holds.spans {b : CodeBounds} {s : Bytes} (h : b.Holds s) : b.Spans s :=
  ⟨h.1.length_eq.symm, le_of_forall₂ h.1, le_of_forall₂ h.2⟩

/-- A range determines its bounds. -/
theorem range_inj {b c : CodeBounds} (h : b.range = c.range) : b = c := by
  obtain ⟨hlow, hhigh, hlength⟩ := CodeRange.mk.inj h
  have low : b.low = c.low := bigEndian_inj hlength hlow
  have high : b.high = c.high :=
    bigEndian_inj (b.ordered.length_eq.symm.trans (hlength.trans c.ordered.length_eq)) hhigh
  cases b
  cases c
  cases low
  cases high
  rfl

def allOfTwo : CodeBounds where
  low := [0x00, 0x00]
  high := [0xff, 0xff]
  nonempty := nofun
  short := by decide
  ordered := .cons UInt8.zero_le (.cons UInt8.zero_le .nil)

theorem zero_of_forall₂ {low s : Bytes} (h : List.Forall₂ (· ≤ ·) low s) (hz : ∀ b ∈ s, b = 0x00) :
    ∀ b ∈ low, b = 0x00 := by
  induction h with
  | nil => exact hz
  | cons hb _ ih =>
    rw [List.forall_mem_cons] at hz ⊢
    exact ⟨UInt8.le_antisymm (hz.1 ▸ hb) UInt8.zero_le, ih hz.2⟩

theorem ones_of_forall₂ {s high : Bytes} (h : List.Forall₂ (· ≤ ·) s high) (hz : ∀ b ∈ s, b = 0xff) :
    ∀ b ∈ high, b = 0xff := by
  induction h with
  | nil => exact hz
  | cons hb _ ih =>
    rw [List.forall_mem_cons] at hz ⊢
    exact ⟨UInt8.le_antisymm (le_ones _) (hz.1 ▸ hb), ih hz.2⟩

/-- In a block, a string whose number is between those of the bounds is between them in each byte. -/
theorem forall₂_of_blockwise {low high s : Bytes} (ho : List.Forall₂ (· ≤ ·) low high) (hb : Blockwise low high)
    (hl : s.length = low.length) (hlow : bigEndian low ≤ bigEndian s) (hhigh : bigEndian s ≤ bigEndian high) :
    List.Forall₂ (· ≤ ·) low s ∧ List.Forall₂ (· ≤ ·) s high := by
  induction ho generalizing s with
  | nil =>
    rw [List.length_eq_zero_iff.mp hl]
    exact ⟨.nil, .nil⟩
  | @cons l h low high hlh hr ih =>
    cases s with
    | nil => cases hl
    | cons c s =>
      have hn : s.length = low.length := Nat.succ.inj hl
      have hh : s.length = high.length := hn.trans hr.length_eq
      rw [bigEndian_cons_le_iff hn.symm] at hlow
      rw [bigEndian_cons_le_iff hh] at hhigh
      have hlc : l ≤ c := hlow.elim UInt8.le_of_lt fun h => h.1 ▸ UInt8.le_refl _
      have hch : c ≤ h := hhigh.elim UInt8.le_of_lt fun h => h.1 ▸ UInt8.le_refl _
      rw [Blockwise] at hb
      split at hb
      case isTrue heq =>
        subst heq
        have hc : c = l := UInt8.le_antisymm hch hlc
        subst hc
        have inner := ih hb hn (hlow.resolve_left (UInt8.lt_irrefl _)).2 (hhigh.resolve_left (UInt8.lt_irrefl _)).2
        exact ⟨.cons hlc inner.1, .cons hch inner.2⟩
      case isFalse => exact ⟨.cons hlc (forall₂_zero hn.symm hb.1), .cons hch (forall₂_ones hh hb.2)⟩

/-- Of bounds that are no block, the strings `l ff ff ..` and `h 00 00 ..` after the bytes in which they agree show it. -/
theorem blockwise_of_forall₂ {low high : Bytes} (ho : List.Forall₂ (· ≤ ·) low high)
    (hs : ∀ s : Bytes, s.length = low.length → bigEndian low ≤ bigEndian s → bigEndian s ≤ bigEndian high →
      List.Forall₂ (· ≤ ·) low s ∧ List.Forall₂ (· ≤ ·) s high) : Blockwise low high := by
  induction ho with
  | nil => trivial
  | @cons l h low high hlh hr ih =>
    rw [Blockwise]
    split
    case isTrue heq =>
      subst heq
      refine ih fun s hl hlow hhigh => ?_
      have hcons := hs (l :: s) (congrArg (· + 1) hl) ((bigEndian_cons_le_iff hl.symm _ _).mpr (.inr ⟨rfl, hlow⟩))
        ((bigEndian_cons_le_iff (hl.trans hr.length_eq) _ _).mpr (.inr ⟨rfl, hhigh⟩))
      exact ⟨(List.forall₂_cons.mp hcons.1).2, (List.forall₂_cons.mp hcons.2).2⟩
    case isFalse hne =>
      have hlt : l < h := UInt8.lt_of_le_of_ne hlh hne
      have clear : ∀ b ∈ List.replicate low.length (0x00 : UInt8), b = 0x00 := fun _ => List.eq_of_mem_replicate
      have set : ∀ b ∈ List.replicate low.length (0xff : UInt8), b = 0xff := fun _ => List.eq_of_mem_replicate
      have hlen (b : UInt8) : (List.replicate low.length b).length = low.length := List.length_replicate
      constructor
      · have hcons := hs (h :: List.replicate low.length 0x00) (congrArg (· + 1) (hlen _))
          ((bigEndian_cons_le_iff (hlen _).symm _ _).mpr (.inl hlt))
          ((bigEndian_cons_le_iff ((hlen _).trans hr.length_eq) _ _).mpr
            (.inr ⟨rfl, le_of_forall₂ (forall₂_zero ((hlen _).trans hr.length_eq) clear)⟩))
        exact zero_of_forall₂ (List.forall₂_cons.mp hcons.1).2 clear
      · have hcons := hs (l :: List.replicate low.length 0xff) (congrArg (· + 1) (hlen _))
          ((bigEndian_cons_le_iff (hlen _).symm _ _).mpr
            (.inr ⟨rfl, le_of_forall₂ (forall₂_ones (hlen _).symm set)⟩))
          ((bigEndian_cons_le_iff ((hlen _).trans hr.length_eq) _ _).mpr (.inl hlt))
        exact ones_of_forall₂ (List.forall₂_cons.mp hcons.2).2 set

/-- Comparing numbers is comparing byte by byte for the bounds of blocks, and for no others. -/
theorem holds_of_spans_iff (b : CodeBounds) : (∀ s, b.Spans s → b.Holds s) ↔ Blockwise b.low b.high :=
  ⟨fun h => blockwise_of_forall₂ b.ordered fun s hl hlow hhigh => h s ⟨hl, hlow, hhigh⟩,
    fun hb _ h => forall₂_of_blockwise b.ordered hb h.1 h.2.1 h.2.2⟩

end CodeBounds

namespace CMap

/-! ## The ranges of a program -/

def listed : Bytes × List Object → List (Object × Object)
  | (command, operands) => if command == Bytes.ofText "endcodespacerange" then Bytes.pairs operands else []

def listedRanges (data : Bytes) : List (Object × Object) := (commands data).flatMap listed

def Lists (data : Bytes) (b : CodeBounds) : Prop := (.str b.low, .str b.high) ∈ listedRanges data

/-- Whether whatever a program lists that is taken for a range are bounds of one. -/
def WellFormed (data : Bytes) : Prop :=
  ∀ p ∈ listedRanges data, (codeRange? p).isSome → ∃ b : CodeBounds, p = (.str b.low, .str b.high)

theorem predefined?_codespace {n : Name} {m : CMap} (h : predefined? n = some m) : m.codespace = twoBytes := by
  unfold predefined? at h
  split at h
  · cases h; rfl
  · split at h
    · cases h; rfl
    · cases h

/-- A command lists ranges, or uses the codes of two bytes where there are none yet. -/
theorem apply_codespace (m : CMap) (c : Bytes × List Object) :
    (m.apply c).codespace = m.codespace ++ (listed c).filterMap codeRange? ∨
      m.codespace = [] ∧ listed c = [] ∧ (m.apply c).codespace = twoBytes := by
  obtain ⟨command, operands⟩ := c
  unfold apply listed
  dsimp only
  by_cases hc : command == Bytes.ofText "endcodespacerange"
  · rw [if_pos hc, if_pos hc]
    exact .inl rfl
  · rw [if_neg hc, if_neg hc]
    have same : m.codespace = m.codespace ++ [].filterMap codeRange? := (List.append_nil _).symm
    split
    · exact .inl same
    split
    · exact .inl same
    split
    · split <;> (try split) <;> exact .inl same
    split
    · split
      case h_1 parent hp =>
        cases hm : m.codespace with
        | nil =>
          obtain ⟨n, -, hp⟩ := Option.bind_eq_some_iff.mp hp
          have codes : parent.codespace = twoBytes := predefined?_codespace hp
          exact .inr ⟨rfl, rfl, codes⟩
        | cons r rs => exact .inl (List.append_nil _).symm
      case h_2 => exact .inl same
    · exact .inl same

/-- After commands, the ranges are those listed, perhaps after all codes of two bytes. -/
theorem foldl_apply_codespace (cs : List (Bytes × List Object)) :
    ∃ before, (before = [] ∨ before = twoBytes) ∧
      (cs.foldl apply ⟨[], [], false, false⟩).codespace = before ++ (cs.flatMap listed).filterMap codeRange? := by
  induction cs using List.reverseRecOn with
  | nil => exact ⟨[], .inl rfl, rfl⟩
  | append_singleton cs c ih =>
    obtain ⟨before, hb, ih⟩ := ih
    rw [List.foldl_append, List.foldl_cons, List.foldl_nil, List.flatMap_append, List.flatMap_singleton,
      List.filterMap_append]
    rcases apply_codespace (cs.foldl apply ⟨[], [], false, false⟩) c with h | ⟨hnil, hc, h⟩
    · exact ⟨before, hb, by rw [h, ih, List.append_assoc]⟩
    · have nothing := (List.append_eq_nil_iff.mp (ih.symm.trans hnil)).2
      exact ⟨twoBytes, .inr rfl, by rw [h, nothing, hc]; rfl⟩

/-- A program has the ranges that it lists, perhaps after all codes of two bytes, and one range at least. -/
theorem parse_codespace (data : Bytes) :
    ∃ before, (before = [] ∨ before = twoBytes) ∧
      (parse data).codespace = before ++ (listedRanges data).filterMap codeRange? ∧ (parse data).codespace ≠ [] := by
  obtain ⟨before, hb, h⟩ := foldl_apply_codespace (commands data)
  by_cases hnil : ((commands data).foldl apply ⟨[], [], false, false⟩).codespace = []
  · have eq : (parse data).codespace = twoBytes := if_pos (List.isEmpty_iff.mpr hnil)
    have nothing := (List.append_eq_nil_iff.mp (h.symm.trans hnil)).2
    refine ⟨twoBytes, .inr rfl, ?_, eq ▸ nofun⟩
    rw [eq, listedRanges, nothing, List.append_nil]
  · have eq : (parse data).codespace = ((commands data).foldl apply ⟨[], [], false, false⟩).codespace :=
      if_neg fun he => hnil (List.isEmpty_iff.mp he)
    exact ⟨before, hb, eq.trans h, eq ▸ hnil⟩

theorem code?_eq_some {o : Object} {code length : Nat} (h : code? o = some (code, length)) :
    ∃ s : Bytes, o = .str s ∧ s ≠ [] ∧ s.length ≤ 4 ∧ code = bigEndian s ∧ length = s.length := by
  cases o <;> try cases h
  case str s =>
    simp only [code?, Object.string?, Option.filter_some] at h
    split at h
    case isTrue hs =>
      cases h
      rw [Bool.and_eq_true, Bool.not_eq_true', List.isEmpty_eq_false_iff, decide_eq_true_eq] at hs
      exact ⟨s, rfl, hs.1, hs.2, rfl, rfl⟩
    case isFalse => cases h

theorem code?_str {s : Bytes} (hs : s ≠ []) (hl : s.length ≤ 4) : code? (.str s) = some (bigEndian s, s.length) := by
  have ok : (!s.isEmpty && decide (s.length ≤ 4)) = true := by
    rw [List.isEmpty_eq_false_iff.mpr hs, decide_eq_true hl]
    rfl
  simp only [code?, Object.string?, Option.filter_some, ok, ↓reduceIte, Option.map_some]

theorem codeRange?_bounds (b : CodeBounds) : codeRange? (.str b.low, .str b.high) = some b.range := by
  have hh : b.high ≠ [] := fun h => b.nonempty (List.length_eq_zero_iff.mp (b.ordered.length_eq.trans (h ▸ rfl)))
  simp only [codeRange?, code?_str b.nonempty b.short, code?_str hh (b.ordered.length_eq ▸ b.short)]
  rfl

theorem codeRange?_sizes {p : Object × Object} {r : CodeRange} (h : codeRange? p = some r) :
    1 ≤ r.length ∧ r.length ≤ 4 := by
  simp only [codeRange?, Option.bind_eq_bind, Option.bind_eq_some_iff] at h
  obtain ⟨⟨l, length⟩, hl, _, -, hr⟩ := h
  obtain ⟨s, -, hs, hs', -, rfl⟩ := code?_eq_some hl
  cases hr
  exact ⟨List.length_pos_iff.mpr hs, hs'⟩

theorem range_mem_of_lists {data : Bytes} {b : CodeBounds} (h : Lists data b) : b.range ∈ (parse data).codespace := by
  obtain ⟨before, -, hp, -⟩ := parse_codespace data
  rw [hp]
  exact List.mem_append_right _ (List.mem_filterMap.mpr ⟨_, h, codeRange?_bounds b⟩)

theorem listed_of_mem {data : Bytes} {r : CodeRange} (h : r ∈ (parse data).codespace) :
    r ∈ twoBytes ∨ ∃ p ∈ listedRanges data, codeRange? p = some r := by
  obtain ⟨before, hb, hp, -⟩ := parse_codespace data
  rw [hp] at h
  rcases List.mem_append.mp h with h | h
  · rcases hb with rfl | rfl
    · cases h
    · exact .inl h
  · exact .inr (List.mem_filterMap.mp h)

/-- The ranges of a well-formed program are those that it lists, and perhaps that of all codes of two bytes. -/
theorem exists_bounds {data : Bytes} (hw : WellFormed data) {r : CodeRange} (h : r ∈ (parse data).codespace) :
    ∃ b : CodeBounds, b.range = r ∧ (Lists data b ∨ b = .allOfTwo) := by
  rcases listed_of_mem h with h | ⟨p, hp, hr⟩
  · rw [List.mem_singleton.mp h]
    exact ⟨.allOfTwo, rfl, .inr rfl⟩
  · obtain ⟨b, rfl⟩ := hw p hp (hr ▸ rfl)
    exact ⟨b, Option.some.inj ((codeRange?_bounds b).symm.trans hr), .inl hp⟩

theorem lists_of_range_mem {data : Bytes} (hw : WellFormed data) {b : CodeBounds}
    (h : b.range ∈ (parse data).codespace) : Lists data b ∨ b = .allOfTwo := by
  obtain ⟨c, hc, listed⟩ := exists_bounds hw h
  exact CodeBounds.range_inj hc ▸ listed

/-! ## The next code -/

/-- Whether a map has ranges, all of them of codes of one to four bytes. -/
structure Proper (m : CMap) : Prop where
  nonempty : m.codespace ≠ []
  sizes : ∀ r ∈ m.codespace, 1 ≤ r.length ∧ r.length ≤ 4

theorem proper_of_twoBytes {m : CMap} (h : m.codespace = twoBytes) : m.Proper where
  nonempty := h ▸ nofun
  sizes r hr := by
    rw [h] at hr
    rw [List.mem_singleton.mp hr]
    decide

theorem parse_proper (data : Bytes) : (parse data).Proper where
  nonempty := by
    obtain ⟨-, -, -, hn⟩ := parse_codespace data
    exact hn
  sizes r hr := by
    rcases listed_of_mem hr with hr | ⟨p, -, hr⟩
    · exact (proper_of_twoBytes (m := ofIdentity false) rfl).sizes r hr
    · exact codeRange?_sizes hr

/-- Whether a string is a code of one of the ranges. -/
def Admits (m : CMap) (s : Bytes) : Prop := ∃ r ∈ m.codespace, r.contains (bigEndian s) s.length

variable {m : CMap} {s : Bytes}

theorem Proper.length_of_admits (hm : m.Proper) (h : m.Admits s) : 1 ≤ s.length ∧ s.length ≤ 4 := by
  obtain ⟨r, hr, hc⟩ := h
  exact ((r.contains_iff _ _).mp hc).1 ▸ hm.sizes r hr

theorem Proper.bounds_of_admits (hm : m.Proper) {k : Nat} (hk : k ≤ s.length) (h : m.Admits (s.take k)) :
    1 ≤ k ∧ k ≤ 4 :=
  List.length_take_of_le hk ▸ hm.length_of_admits h

theorem admits_take_iff {k : Nat} (hk : k ≤ s.length) :
    m.Admits (s.take k) ↔ m.codespace.any (·.contains (bigEndian (s.take k)) k) = true := by
  rw [Admits, List.any_eq_true, List.length_take_of_le hk]

/-- The code that is taken from a string has at least one byte and at most as many as there are.  It is the shortest one
that is in a range, if any is. -/
theorem Proper.nextCode? (hm : m.Proper) (hs : s ≠ []) :
    ∃ n, m.nextCode? s = some (bigEndian (s.take n), n) ∧ 1 ≤ n ∧ n ≤ s.length ∧
      (m.Admits (s.take n) ∧ (∀ k < n, ¬m.Admits (s.take k)) ∨ ∀ k ≤ s.length, ¬m.Admits (s.take k)) := by
  have hpos := List.length_pos_iff.mpr hs
  rw [CMap.nextCode?, if_neg (mt List.isEmpty_iff.mp hs)]
  cases hf : (List.range' 1 (min s.length 4)).find? fun n => m.codespace.any (·.contains (bigEndian (s.take n)) n) with
  | some n =>
    obtain ⟨hn, hmem, hmin⟩ := List.find?_range'_eq_some.mp hf
    obtain ⟨h1, hlt⟩ := List.mem_range'_1.mp hmem
    have hl : n ≤ s.length := by omega
    refine ⟨n, rfl, h1, hl, .inl ⟨(admits_take_iff hl).mpr hn, fun k hk ha => ?_⟩⟩
    have hkl : k ≤ s.length := by omega
    have unmatched := hmin k (hm.bounds_of_admits hkl ha).1 hk
    rw [(admits_take_iff hkl).mp ha] at unmatched
    cases unmatched
  | none =>
    have unmatched {k : Nat} (hk : k ≤ s.length) : ¬m.Admits (s.take k) := fun ha => by
      have hk4 := hm.bounds_of_admits hk ha
      exact List.find?_eq_none.mp hf k (List.mem_range'_1.mpr ⟨hk4.1, by omega⟩) ((admits_take_iff hk).mp ha)
    obtain ⟨shortest, hshort⟩ : ∃ n, (m.codespace.map (·.length)).min? = some n :=
      Option.ne_none_iff_exists'.mp fun h => hm.nonempty (List.map_eq_nil_iff.mp (List.min?_eq_none_iff.mp h))
    obtain ⟨r, hr, rfl⟩ := List.mem_map.mp (List.min?_mem hshort)
    have h1 := (hm.sizes r hr).1
    refine ⟨min r.length s.length, ?_, by omega, by omega, .inr fun k hk => unmatched hk⟩
    rw [hshort]
    rfl

/-- Whether a map takes the first bytes of a string for a code that is in one of its ranges. -/
def Recognises (m : CMap) (s : Bytes) (n : Nat) : Prop :=
  ∃ code, m.nextCode? s = some (code, n) ∧ ∃ r ∈ m.codespace, r.contains code n

/-- The shortest code at the start of a string is recognised. -/
theorem Proper.recognises_iff (hm : m.Proper) (n : Nat) :
    m.Recognises s n ↔ n ≤ s.length ∧ m.Admits (s.take n) ∧ ∀ k < n, ¬m.Admits (s.take k) := by
  by_cases hs : s = []
  · subst hs
    constructor
    · rintro ⟨code, hc, -⟩
      cases hc
    · rintro ⟨-, ha, -⟩
      rw [List.take_nil] at ha
      exact absurd (hm.length_of_admits ha).1 (by decide)
  · obtain ⟨l, hl, h1, hls, hcases⟩ := hm.nextCode? hs
    constructor
    · rintro ⟨code, hc, r, hr, hcontains⟩
      cases hl.symm.trans hc
      have ha : m.Admits (s.take n) := ⟨r, hr, by rwa [List.length_take_of_le hls]⟩
      rcases hcases with h | h
      · exact ⟨hls, h⟩
      · exact absurd ha (h n hls)
    · rintro ⟨hn, ha, hmin⟩
      rcases hcases with ⟨ha', hmin'⟩ | h
      · have heq : l = n := by
          rcases Nat.lt_trichotomy l n with hlt | heq | hgt
          · exact absurd ha' (hmin l hlt)
          · exact heq
          · exact absurd ha (hmin' n hgt)
        subst heq
        obtain ⟨r, hr, hc⟩ := ha'
        rw [List.length_take_of_le hls] at hc
        exact ⟨_, hl, r, hr, hc⟩
      · exact absurd ha (h n hn)

theorem admits_iff {data : Bytes} (hw : WellFormed data) :
    (parse data).Admits s ↔ ∃ b : CodeBounds, b.range ∈ (parse data).codespace ∧ b.Spans s := by
  have contains_iff (b : CodeBounds) : b.range.contains (bigEndian s) s.length ↔ b.Spans s :=
    (b.range.contains_iff _ _).trans (and_congr_left' eq_comm)
  constructor
  · rintro ⟨r, hr, hc⟩
    obtain ⟨b, rfl, -⟩ := exists_bounds hw hr
    exact ⟨b, hr, (contains_iff b).mp hc⟩
  · rintro ⟨b, hb, hc⟩
    exact ⟨_, hb, (contains_iff b).mpr hc⟩

/-- **A code is recognised by its number.**  For every well-formed program and every string, the first bytes of the string
are recognised as a code if and only if their number is between those of bounds of as many bytes and this is so for no
fewer bytes.  The bounds are those that the program lists, and perhaps those of all codes of two bytes.  Whatever is
between bounds byte by byte is between them as a number, and the converse holds if and only if they are those of a
block. -/
theorem recognised_by_number {data : Bytes} (hw : WellFormed data) (s : Bytes) (n : Nat) :
    ((parse data).Recognises s n ↔ n ≤ s.length ∧
      (∃ b : CodeBounds, b.range ∈ (parse data).codespace ∧ b.Spans (s.take n)) ∧
      ∀ k < n, ∀ b : CodeBounds, b.range ∈ (parse data).codespace → ¬b.Spans (s.take k)) ∧
    ∀ b : CodeBounds, (Lists data b → b.range ∈ (parse data).codespace) ∧
      (b.range ∈ (parse data).codespace → Lists data b ∨ b = .allOfTwo) ∧
      (∀ t, b.Holds t → b.Spans t) ∧ ((∀ t, b.Spans t → b.Holds t) ↔ CodeBounds.Blockwise b.low b.high) := by
  refine ⟨?_, fun b => ⟨range_mem_of_lists, lists_of_range_mem hw, fun t h => h.spans, b.holds_of_spans_iff⟩⟩
  simp only [(parse_proper data).recognises_iff, admits_iff hw, not_exists, not_and]

def mixedRanges : Bytes := Bytes.ofText "2 begincodespacerange <00> <80> <8140> <9FFC> endcodespacerange"

theorem commands_mixedRanges : commands mixedRanges =
    [(Bytes.ofText "begincodespacerange", [.num (.int 2)]),
      (Bytes.ofText "endcodespacerange", [.str [0x00], .str [0x80], .str [0x81, 0x40], .str [0x9f, 0xfc]])] := by
  let bounds := Bytes.ofText " <00>" ++ (Bytes.ofText " <80>" ++ (Bytes.ofText " <8140>" ++ (Bytes.ofText " <9FFC>" ++
    Bytes.ofText " endcodespacerange")))
  have count : Content.next? mixedRanges =
      some (.operand (.num (.int 2)), Bytes.ofText " begincodespacerange" ++ bounds) := Content.next?_number rfl
  have begins (t : Bytes) : Content.next? (Bytes.ofText " begincodespacerange" ++ (Bytes.ofText " <00>" ++ t)) =
      some (.command (Bytes.ofText "begincodespacerange"), Bytes.ofText " <00>" ++ t) := Content.next?_keyword rfl rfl
  have low₁ (t : Bytes) : Content.next? (Bytes.ofText " <00>" ++ t) = some (.operand (.str [0x00]), t) :=
    Content.next?_string rfl
  have high₁ (t : Bytes) : Content.next? (Bytes.ofText " <80>" ++ t) = some (.operand (.str [0x80]), t) :=
    Content.next?_string rfl
  have low₂ (t : Bytes) : Content.next? (Bytes.ofText " <8140>" ++ t) = some (.operand (.str [0x81, 0x40]), t) :=
    Content.next?_string rfl
  have high₂ (t : Bytes) : Content.next? (Bytes.ofText " <9FFC>" ++ t) = some (.operand (.str [0x9f, 0xfc]), t) :=
    Content.next?_string rfl
  have ends : Content.next? (Bytes.ofText " endcodespacerange") =
      some (.command (Bytes.ofText "endcodespacerange"), []) := Content.next?_keyword rfl rfl
  rw [commands, Content.tokens_of_some count, Content.tokens_of_some (begins _),
    Content.tokens_of_some (low₁ _), Content.tokens_of_some (high₁ _), Content.tokens_of_some (low₂ _),
    Content.tokens_of_some (high₂ _), Content.tokens_of_some ends, Content.tokens_of_none (Content.next?_end rfl)]
  rfl

theorem parse_mixedRanges :
    parse mixedRanges = ⟨[⟨0x00, 0x80, 1⟩, ⟨0x8140, 0x9ffc, 2⟩], [], false, false⟩ := by
  have folded : (commands mixedRanges).foldl apply ⟨[], [], false, false⟩ =
      ⟨[⟨0x00, 0x80, 1⟩, ⟨0x8140, 0x9ffc, 2⟩], [], false, false⟩ := by
    rw [commands_mixedRanges]
    rfl
  simp only [parse, folded, List.mergeSort_nil]
  rfl

def doubleByte : CodeBounds where
  low := [0x81, 0x40]
  high := [0x9f, 0xfc]
  nonempty := nofun
  short := by decide
  ordered := .cons (by decide) (.cons (by decide) .nil)

theorem wellFormed_mixedRanges : WellFormed mixedRanges := by
  have listed : listedRanges mixedRanges = [(.str [0x00], .str [0x80]), (.str doubleByte.low, .str doubleByte.high)] := by
    rw [listedRanges, commands_mixedRanges]
    rfl
  intro p hp _
  rw [listed] at hp
  rcases List.mem_pair.mp hp with rfl | rfl
  · exact ⟨⟨[0x00], [0x80], nofun, by decide, .cons (by decide) .nil⟩, rfl⟩
  · exact ⟨doubleByte, rfl⟩

/-- The two bytes `81 41`, which are recognised as a code of two bytes, are met by bounds, and their first byte is not. -/
theorem double_byte_recognised : WellFormed mixedRanges ∧
    (∃ b : CodeBounds, b.range ∈ (parse mixedRanges).codespace ∧ b.Spans [0x81, 0x41]) ∧
    ∀ b : CodeBounds, b.range ∈ (parse mixedRanges).codespace → ¬b.Spans [0x81] := by
  have recognised : (parse mixedRanges).Recognises [0x81, 0x41] 2 := by
    rw [parse_mixedRanges]
    exact ⟨0x8141, rfl, _, .tail _ (.head _), rfl⟩
  have h := (recognised_by_number wellFormed_mixedRanges [0x81, 0x41] 2).1.mp recognised
  exact ⟨wellFormed_mixedRanges, h.2.1, h.2.2 1 (by decide)⟩

/-- The two bytes `81 ff` are recognised as a code, and the second one is between those of no bounds of two bytes. -/
theorem unbounded_byte_recognised : WellFormed mixedRanges ∧ (parse mixedRanges).Recognises [0x81, 0xff] 2 ∧
    ¬∃ b : CodeBounds, b.range ∈ (parse mixedRanges).codespace ∧ b.Holds [0x81, 0xff] := by
  refine ⟨wellFormed_mixedRanges, ?_, ?_⟩
  · rw [parse_mixedRanges]
    exact ⟨0x81ff, rfl, _, .tail _ (.head _), rfl⟩
  · rintro ⟨b, hb, hlow, hhigh⟩
    rw [parse_mixedRanges] at hb
    rcases List.mem_pair.mp hb with h | h
    · have hl : b.low.length = 1 := congrArg CodeRange.length h
      exact absurd (hl.symm.trans hlow.length_eq) (by decide)
    · have bounds : b = doubleByte := CodeBounds.range_inj h
      subst bounds
      cases hhigh with
      | cons _ hrest =>
        cases hrest with
        | cons hle _ => exact absurd hle (by decide)

end CMap
end PdfContent
