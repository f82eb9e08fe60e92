import PdfContent.Proofs.Filter.Bits
/-!
# BitCalls — a bit reader under any calls

Whatever numbers were read and wherever the reader was aligned, it is within its data (`Within.after`), and the next call
does what it should (`calls_exact`): a number is the one whose binary digits come next, and where it cannot be read, the
reader stays.
-/
namespace PdfContent.BitReader

inductive Call where
  | read (n : Nat)
  | align

/-- The answer to a call, and the reader after it.  A reader that cannot read stays where it is. -/
def call (r : BitReader) : Call → Option Nat × BitReader
  | .read n =>
    match r.read? n with
    | some (v, r') => (some v, r')
    | none => (none, r)
  | .align => (none, r.align)

def after (r : BitReader) (calls : List Call) : BitReader := calls.foldl (fun r c => (r.call c).2) r

/-- The reader has come to a bit of the data or to their end. -/
structure Within (s : Bytes) (r : BitReader) : Prop where
  data : r.data.toList = s
  pos : r.pos ≤ s.bits.length

namespace Within

variable {s : Bytes} {r : BitReader}

theorem ofBytes (s : Bytes) : Within s (ofBytes s) := ⟨rfl, Nat.zero_le _⟩

theorem rest_eq (h : Within s r) : r.rest = s.bits.drop r.pos := by rw [rest, h.data]

theorem length_rest (h : Within s r) : r.rest.length = s.bits.length - r.pos := by rw [h.rest_eq, List.length_drop]

theorem size (h : Within s r) : r.data.size * 8 = s.bits.length := by
  rw [Bytes.length_bits, ← h.data, Array.length_toList, Nat.mul_comm]

/-- The reader some bits further on. -/
theorem forward (h : Within s r) {n : Nat} (enough : n ≤ r.rest.length) : Within s { r with pos := r.pos + n } := by
  refine ⟨h.data, ?_⟩
  have := h.length_rest
  have := h.pos
  dsimp only
  omega

theorem hasLessThan_iff (h : Within s r) (n : Nat) : r.hasLessThan n = true ↔ r.rest.length < n := by
  have := h.pos
  rw [hasLessThan, decide_eq_true_iff, h.size, h.length_rest]
  omega

theorem call_read (h : Within s r) {n : Nat} (hn : n ≤ 32) (enough : n ≤ r.rest.length) :
    r.call (.read n) = (some (bitsValue (r.rest.take n)), { r with pos := r.pos + n }) := by
  have possible : ¬(n > 32 || r.hasLessThan n) = true := by
    rw [Bool.or_eq_true, decide_eq_true_iff, h.hasLessThan_iff]
    omega
  rw [BitReader.call, read?_eq, if_neg possible]

theorem call_read_none (h : Within s r) {n : Nat} (impossible : 32 < n ∨ r.rest.length < n) :
    r.call (.read n) = (none, r) := by
  have : (n > 32 || r.hasLessThan n) = true := by
    rwa [Bool.or_eq_true, decide_eq_true_iff, h.hasLessThan_iff]
  rw [BitReader.call, read?_eq, if_pos this]

/-- **A number is read exactly where it can be**, and otherwise the reader stays. -/
theorem call_read_eq_none_iff (h : Within s r) (n : Nat) :
    r.call (.read n) = (none, r) ↔ 32 < n ∨ r.rest.length < n := by
  refine ⟨fun none => ?_, h.call_read_none⟩
  refine Classical.byContradiction fun possible => ?_
  rw [h.call_read (by omega) (by omega)] at none
  cases congrArg Prod.fst none

/-- The next whole byte begins within the data. -/
theorem align (h : Within s r) : ∃ p, r.align = { r with pos := p } ∧ p % 8 = 0 ∧ r.pos ≤ p ∧ p < r.pos + 8 ∧
    p ≤ s.bits.length := by
  have := h.pos
  have := Bytes.length_bits s
  exact ⟨(r.pos + 7) / 8 * 8, rfl, by omega, by omega, by omega, by omega⟩

theorem call (h : Within s r) (c : Call) : Within s (r.call c).2 := by
  cases c with
  | read n =>
    by_cases possible : n ≤ 32 ∧ n ≤ r.rest.length
    · rw [h.call_read possible.1 possible.2]
      exact h.forward possible.2
    · rw [h.call_read_none (by omega)]
      exact h
  | align =>
    obtain ⟨p, aligned, -, -, -, within⟩ := h.align
    rw [BitReader.call, aligned]
    exact ⟨h.data, within⟩

/-- **A reader stays within its data** under any calls. -/
theorem after (h : Within s r) (calls : List Call) : Within s (r.after calls) := by
  induction calls generalizing r with
  | nil => exact h
  | cons c calls ih => exact ih (h.call c)

/-- A number that is read in two parts is cut by its last bits. -/
theorem call_read_add (h : Within s r) {n m : Nat} (hn : n + m ≤ 32) (enough : n + m ≤ r.rest.length) :
    ∃ v, r.call (.read (n + m)) = (some v, { r with pos := r.pos + (n + m) }) ∧
      r.call (.read n) = (some (v / 1 <<< m), { r with pos := r.pos + n }) ∧
      ({ r with pos := r.pos + n } : BitReader).call (.read m) = (some (v % 1 <<< m), { r with pos := r.pos + (n + m) }) := by
  have next : ({ r with pos := r.pos + n } : BitReader).rest = r.rest.drop n := by
    rw [rest, rest, List.drop_drop]
  have length : ((r.rest.drop n).take m).length = m := by
    rw [List.length_take, List.length_drop]
    omega
  have low := bitsValue_lt ((r.rest.drop n).take m)
  rw [length] at low
  have positive : 0 < 1 <<< m := Nat.zero_lt_of_lt low
  have joined : bitsValue (r.rest.take (n + m)) =
      bitsValue (r.rest.take n) * 1 <<< m + bitsValue ((r.rest.drop n).take m) := by
    rw [List.take_add, bitsValue_join, length, Nat.shiftLeft_eq, Nat.one_shiftLeft]
  refine ⟨_, h.call_read hn enough, ?_, ?_⟩
  · rw [h.call_read (by omega) (by omega), joined, Nat.mul_comm, Nat.mul_add_div positive, Nat.div_eq_of_lt low,
      Nat.add_zero]
  · rw [(h.forward (by omega)).call_read (by omega) (by rw [next, List.length_drop]; omega), next, joined,
      Nat.mul_comm, Nat.mul_add_mod, Nat.mod_eq_of_lt low, ← Nat.add_assoc]

end Within

/-- **Every call does what it should**, whatever calls were before.  A number of at most 32 bits is read where there are
as many bits, and it is the one whose binary digits they are, gathered from bytes or bit by bit; otherwise the reader
stays.  Reading in two parts cuts a number in two, and the next whole byte is never beyond the data. -/
theorem calls_exact (s : Bytes) (calls : List Call) :
    let r := (ofBytes s).after calls
    r.pos ≤ s.bits.length ∧ r.rest = s.bits.drop r.pos ∧
    (∀ n, r.call (.read n) = (none, r) ↔ 32 < n ∨ r.rest.length < n) ∧
    (∀ n ≤ 32, n ≤ r.rest.length → ∃ v, r.call (.read n) = (some v, { r with pos := r.pos + n }) ∧
      v < 1 <<< n ∧ lowBits v n = r.rest.take n ∧ r.gathered n = v ∧ r.value r.pos n = v) ∧
    (∀ n m, n + m ≤ 32 → n + m ≤ r.rest.length →
      ∃ v, r.call (.read (n + m)) = (some v, { r with pos := r.pos + (n + m) }) ∧
        r.call (.read n) = (some (v / 1 <<< m), { r with pos := r.pos + n }) ∧
        ({ r with pos := r.pos + n } : BitReader).call (.read m) =
          (some (v % 1 <<< m), { r with pos := r.pos + (n + m) })) ∧
    ∃ p, r.call .align = (none, { r with pos := p }) ∧ p % 8 = 0 ∧ r.pos ≤ p ∧ p < r.pos + 8 ∧
      p ≤ s.bits.length := by
  intro r
  have h : Within s r := (Within.ofBytes s).after calls
  refine ⟨h.pos, h.rest_eq, h.call_read_eq_none_iff, fun n hn enough => ?_, fun n m => h.call_read_add, ?_⟩
  · have length : (r.rest.take n).length = n := by rw [List.length_take, Nat.min_eq_left enough]
    have size : r.pos + n ≤ r.data.size * 8 := h.size ▸ (h.forward enough).pos
    refine ⟨_, h.call_read hn enough, ?_, lowBits_bitsValue _ length, gathered_eq hn size,
      value_eq r length (List.take_prefix n _)⟩
    have bound := bitsValue_lt (r.rest.take n)
    rwa [length] at bound
  · obtain ⟨p, aligned, rest⟩ := h.align
    exact ⟨p, congrArg (Prod.mk none) aligned, rest⟩

/-- A refused call among others, and a number that begins and ends within bytes, at once and in parts. -/
theorem unaligned_number_read :
    let r := (ofBytes [0x80, 0x12, 0x34, 0x56, 0x78]).after [.read 1, .align, .read 33, .read 4]
    r.pos = 12 ∧ r.rest.length = 28 ∧ r.call (.read 29) = (none, r) ∧
      (∃ v, r.call (.read 18) = (some v, { r with pos := 30 }) ∧ v < 1 <<< 18 ∧ lowBits v 18 = r.rest.take 18 ∧
        r.gathered 18 = v ∧ r.value 12 18 = v) ∧
      ∃ v, r.call (.read (5 + 13)) = (some v, { r with pos := 30 }) ∧
        r.call (.read 5) = (some (v / 1 <<< 13), { r with pos := 17 }) ∧
        ({ r with pos := 17 } : BitReader).call (.read 13) = (some (v % 1 <<< 13), { r with pos := 30 }) := by
  intro r
  obtain ⟨-, -, refused, reads, parts, -⟩ := calls_exact [0x80, 0x12, 0x34, 0x56, 0x78] [.read 1, .align, .read 33, .read 4]
  have pos : r.pos = 12 := by decide
  have length : r.rest.length = 28 := by decide
  exact ⟨pos, length, (refused 29).mpr (.inr (by decide)), reads 18 (by decide) (by decide),
    parts 5 13 (by decide) (by decide)⟩

end PdfContent.BitReader
