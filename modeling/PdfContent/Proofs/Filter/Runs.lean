import PdfContent.Filter.Basic
/-!
# Runs — what run-length encoded data say

A run is up to 128 bytes as they are, or one byte that is repeated, and it is written as a length byte with its data.
Written runs are read back one by one (`decode_runs`).  Any data are runs and an ending that begins no run
(`exists_runs`), in one way only (`runs_longest`), so every input has a decoding (`runs_decoded`).
-/
namespace PdfContent.RunLength

/-- What one length byte stands for. -/
inductive Run where
  | literal (bytes : Bytes) (nonempty : 1 ≤ bytes.length) (short : bytes.length ≤ 128)
  | repeated (b : UInt8) (count : Nat) (twice : 2 ≤ count) (short : count ≤ 128)

namespace Run

def bytes : Run → Bytes
  | literal bytes _ _ => bytes
  | repeated b count _ _ => List.replicate count b

def written : Run → Bytes
  | literal bytes _ _ => (bytes.length - 1).toUInt8 :: bytes
  | repeated b count _ _ => [(257 - count).toUInt8, b]

end Run

/-- What can stand behind runs, and what it adds to their bytes: nothing, the end mark and anything behind it, a literal
run that is cut off and keeps its bytes, or a length without the byte to repeat. -/
inductive Ending : Bytes → Bytes → Prop where
  | nothing : Ending [] []
  | mark (rest : Bytes) : Ending (128 :: rest) []
  | cutLiteral {n : UInt8} {data : Bytes} : n < 128 → data.length ≤ n.toNat → Ending (n :: data) data
  | cutRepeated {n : UInt8} : 128 < n → Ending [n] []

variable {n : UInt8} {data rest : Bytes}

theorem decode_mark (rest : Bytes) : decode (128 :: rest) = [] := by
  rw [decode.eq_def]
  rfl

/-- After a length byte below 128. -/
theorem decode_literal (low : n < 128) (r : Bytes) :
    decode (n :: r) = r.take (n.toNat + 1) ++ decode (r.drop (n.toNat + 1)) := by
  have noMark : n ≠ 128 := UInt8.ne_of_lt low
  rw [decode.eq_def]
  simp only [beq_iff_eq, noMark, low, ↓reduceIte]

/-- After a length byte above 128. -/
theorem decode_repetition (high : 128 < n) (b : UInt8) (r : Bytes) :
    decode (n :: b :: r) = List.replicate (257 - n.toNat) b ++ decode r := by
  have noMark : n ≠ 128 := (UInt8.ne_of_lt high).symm
  rw [decode.eq_def]
  simp only [beq_iff_eq, noMark, UInt8.lt_asymm high, ↓reduceIte]

/-! ## Length bytes -/

def dataLength (n : UInt8) : Nat := if n < 128 then n.toNat + 1 else 1

theorem toNat_length {k : Nat} (h : k < 256) : k.toUInt8.toNat = k := by
  rw [Nat.toUInt8, UInt8.toNat_ofNat', Nat.mod_eq_of_lt h]

theorem Run.written_literal {bytes : Bytes} (nonempty : 1 ≤ bytes.length) (short : bytes.length ≤ 128) :
    ∃ n : UInt8, n < 128 ∧ n.toNat + 1 = bytes.length ∧ (literal bytes nonempty short).written = n :: bytes := by
  have length : (bytes.length - 1).toUInt8.toNat = bytes.length - 1 := toNat_length (by omega)
  refine ⟨_, ?_, by omega, rfl⟩
  rw [UInt8.lt_iff_toNat_lt, length]
  exact Nat.lt_of_le_of_lt (Nat.sub_le_sub_right short 1) (by decide)

theorem Run.written_repeated (b : UInt8) {count : Nat} (twice : 2 ≤ count) (short : count ≤ 128) :
    ∃ n : UInt8, 128 < n ∧ 257 - n.toNat = count ∧ (repeated b count twice short).written = [n, b] := by
  have length : (257 - count).toUInt8.toNat = 257 - count := toNat_length (by omega)
  refine ⟨_, ?_, by omega, rfl⟩
  rw [UInt8.lt_iff_toNat_lt, length]
  exact Nat.lt_of_lt_of_le (by decide) (Nat.sub_le_sub_left short 257)

/-- A run is written as a length byte and as many bytes as that asks for. -/
theorem Run.written_eq (run : Run) :
    ∃ n data, run.written = n :: data ∧ n ≠ 128 ∧ data.length = dataLength n := by
  cases run with
  | literal bytes nonempty short =>
    obtain ⟨n, low, length, written⟩ := written_literal nonempty short
    exact ⟨n, bytes, written, UInt8.ne_of_lt low, by rw [dataLength, if_pos low, length]⟩
  | repeated b count twice short =>
    obtain ⟨n, high, -, written⟩ := written_repeated b twice short
    exact ⟨n, [b], written, (UInt8.ne_of_lt high).symm, by rw [dataLength, if_neg (UInt8.lt_asymm high)]; rfl⟩

/-- A length byte and as many bytes as it asks for are a run. -/
theorem exists_run (noMark : n ≠ 128) (length : data.length = dataLength n) : ∃ run : Run, run.written = n :: data := by
  unfold dataLength at length
  split at length
  case isTrue low =>
    have bound : n.toNat < 128 := UInt8.lt_iff_toNat_lt.mp low
    refine ⟨.literal data (by omega) (by omega), ?_⟩
    rw [Run.written, length, Nat.add_sub_cancel, Nat.toUInt8_eq, UInt8.ofNat_toNat]
  case isFalse above =>
    obtain ⟨b, rfl⟩ := List.length_eq_one_iff.mp length
    have bound : 128 < n.toNat :=
      Nat.lt_of_le_of_ne (Nat.not_lt.mp fun low => above (UInt8.lt_iff_toNat_lt.mpr low))
        fun same => noMark (UInt8.toNat_inj.mp same.symm)
    have small := n.toNat_lt
    refine ⟨.repeated b (257 - n.toNat) (by omega) (by omega), ?_⟩
    rw [Run.written, Nat.sub_sub_self (by omega), Nat.toUInt8_eq, UInt8.ofNat_toNat]

/-- The length byte says which kind of run it is. -/
theorem Run.literal_ne_repeated {bytes : Bytes} {nonempty : 1 ≤ bytes.length} {short : bytes.length ≤ 128} {b : UInt8}
    {count : Nat} {twice : 2 ≤ count} {short' : count ≤ 128} :
    (literal bytes nonempty short).written ≠ (repeated b count twice short').written := by
  obtain ⟨n, low, -, written⟩ := written_literal nonempty short
  obtain ⟨n', high, -, written'⟩ := written_repeated b twice short'
  rw [written, written']
  intro h
  obtain ⟨rfl, -⟩ := List.cons.inj h
  exact absurd low (UInt8.lt_asymm high)

/-- What is written says which run it is. -/
theorem Run.written_injective {run run' : Run} (h : run.written = run'.written) : run = run' := by
  cases run with
  | literal bytes nonempty short =>
    cases run' with
    | literal bytes' nonempty' short' =>
      obtain ⟨-, rfl⟩ := List.cons.inj h
      rfl
    | repeated => exact absurd h literal_ne_repeated
  | repeated b count twice short =>
    cases run' with
    | literal => exact absurd h.symm literal_ne_repeated
    | repeated b' count' twice' short' =>
      obtain ⟨n, -, size, written⟩ := written_repeated b twice short
      obtain ⟨n', -, size', written'⟩ := written_repeated b' twice' short'
      rw [written, written'] at h
      obtain ⟨rfl, rest⟩ := List.cons.inj h
      obtain ⟨rfl, -⟩ := List.cons.inj rest
      obtain rfl : count = count' := size.symm.trans size'
      rfl

/-- An ending is no run: it is empty, marked, or too short for its length byte. -/
theorem Ending.short {kept : Bytes} (h : Ending (n :: data) kept) (noMark : n ≠ 128) : data.length < dataLength n := by
  unfold dataLength
  cases h with
  | mark => exact absurd rfl noMark
  | cutLiteral low cut =>
    rw [if_pos low]
    exact Nat.lt_succ_of_le cut
  | cutRepeated high =>
    rw [if_neg (UInt8.lt_asymm high)]
    exact Nat.one_pos

/-! ## Taking data apart -/

theorem decode_run (run : Run) (rest : Bytes) : decode (run.written ++ rest) = run.bytes ++ decode rest := by
  cases run with
  | literal bytes nonempty short =>
    obtain ⟨n, low, length, written⟩ := Run.written_literal nonempty short
    rw [written, List.cons_append, decode_literal low, length, List.take_left, List.drop_left, Run.bytes]
  | repeated b count twice short =>
    obtain ⟨n, high, size, written⟩ := Run.written_repeated b twice short
    rw [written, List.cons_append, List.singleton_append, decode_repetition high, size, Run.bytes]

/-- **Written runs are read back**, whatever follows them. -/
theorem decode_runs (runs : List Run) (rest : Bytes) :
    decode (runs.flatMap Run.written ++ rest) = runs.flatMap Run.bytes ++ decode rest := by
  induction runs with
  | nil => rfl
  | cons run runs ih =>
    rw [List.flatMap_cons, List.append_assoc, decode_run, ih, List.flatMap_cons, List.append_assoc]

theorem Ending.decode_eq {tail kept : Bytes} (h : Ending tail kept) : decode tail = kept := by
  have nil : decode [] = [] := by rw [decode.eq_def]
  cases h with
  | nothing => exact nil
  | mark rest => exact decode_mark rest
  | cutLiteral low cut =>
    rw [decode_literal low, List.take_of_length_le (by omega), List.drop_of_length_le (by omega), nil, List.append_nil]
  | @cutRepeated n high =>
    have noMark : n ≠ 128 := (UInt8.ne_of_lt high).symm
    rw [decode.eq_def]
    simp only [beq_iff_eq, noMark, UInt8.lt_asymm high, ↓reduceIte]

theorem exists_ending (noMark : n ≠ 128) (short : data.length < dataLength n) : ∃ kept, Ending (n :: data) kept := by
  unfold dataLength at short
  split at short
  case isTrue low => exact ⟨data, .cutLiteral low (Nat.le_of_lt_succ short)⟩
  case isFalse above =>
    obtain rfl := List.eq_nil_of_length_eq_zero (Nat.lt_one_iff.mp short)
    exact ⟨[], .cutRepeated (UInt8.lt_of_le_of_ne (UInt8.not_lt.mp above) noMark.symm)⟩

/-- **Any data are runs and an ending.** -/
theorem exists_runs (s : Bytes) :
    ∃ (runs : List Run) (tail kept : Bytes), s = runs.flatMap Run.written ++ tail ∧ Ending tail kept :=
  match s with
  | [] => ⟨[], [], [], rfl, .nothing⟩
  | n :: r => by
    by_cases marked : n = 128
    · exact ⟨[], n :: r, [], rfl, marked ▸ .mark r⟩
    by_cases enough : dataLength n ≤ r.length
    · have length : (r.take (dataLength n)).length = dataLength n := by rw [List.length_take, Nat.min_eq_left enough]
      obtain ⟨run, written⟩ := exists_run marked length
      obtain ⟨runs, tail, kept, rest, ending⟩ := exists_runs (r.drop (dataLength n))
      refine ⟨run :: runs, tail, kept, ?_, ending⟩
      rw [List.flatMap_cons, List.append_assoc, ← rest, written, List.cons_append, List.take_append_drop]
    · obtain ⟨kept, ending⟩ := exists_ending marked (Nat.not_le.mp enough)
      exact ⟨[], n :: r, kept, rfl, ending⟩
termination_by s.length
decreasing_by
  rw [List.length_drop, List.length_cons]
  omega

/-- Where one run is in front, no other is. -/
theorem Run.written_prefix {run run' : Run} (h : run.written <+: run'.written ++ rest) : run = run' := by
  obtain ⟨n, data, written, -, length⟩ := run.written_eq
  obtain ⟨n', data', written', -, length'⟩ := run'.written_eq
  rw [written, written', List.cons_append, List.cons_prefix_cons] at h
  obtain ⟨rfl, front⟩ := h
  have same : data = data' := by
    rw [List.prefix_iff_eq_take] at front
    rwa [length, ← length', List.take_left] at front
  exact written_injective (by rw [written, written', same])

/-- **There are no more runs** in front of data than those up to an ending. -/
theorem runs_longest {tail kept : Bytes} (ending : Ending tail kept) : ∀ {runs runs' : List Run},
    runs'.flatMap Run.written <+: runs.flatMap Run.written ++ tail → runs' <+: runs
  | _, [], _ => List.nil_prefix
  | [], run' :: runs', h => by
    obtain ⟨n, data, written, noMark, length⟩ := run'.written_eq
    have front : n :: data <+: tail := by
      rw [List.flatMap_cons, written] at h
      exact (List.prefix_append _ _).trans h
    obtain ⟨rest, rfl⟩ := front
    have short : (data ++ rest).length < dataLength n := ending.short noMark
    rw [List.length_append] at short
    omega
  | run :: runs, run' :: runs', h => by
    rw [List.flatMap_cons, List.flatMap_cons, List.append_assoc] at h
    obtain rfl := Run.written_prefix ((List.prefix_append _ _).trans h)
    exact List.cons_prefix_cons.mpr ⟨rfl, runs_longest ending ((List.prefix_append_right_inj _).mp h)⟩

/-- **Every input is decoded.**  Runs that end with the data or with the end mark stand for their bytes.  In general the
runs in front are as many as there are, and of what follows them a literal run that is cut off still counts. -/
theorem runs_decoded (st : Store) (params : Option Dict) :
    (∀ (runs : List Run) (tail : Bytes), (tail = [] ∨ ∃ rest, tail = 128 :: rest) →
      Filter.runLength.apply st params (runs.flatMap Run.written ++ tail) = .ok (some (runs.flatMap Run.bytes))) ∧
    ∀ s : Bytes, ∃ (runs : List Run) (tail kept : Bytes),
      s = runs.flatMap Run.written ++ tail ∧ Ending tail kept ∧
      (∀ runs' : List Run, runs'.flatMap Run.written <+: s → runs' <+: runs) ∧
      Filter.runLength.apply st params s = .ok (some (runs.flatMap Run.bytes ++ kept)) := by
  have decoded (runs : List Run) {tail kept : Bytes} (ending : Ending tail kept) :
      Filter.runLength.apply st params (runs.flatMap Run.written ++ tail) = .ok (some (runs.flatMap Run.bytes ++ kept)) :=
    congrArg (Except.ok ∘ some) ((decode_runs runs tail).trans (congrArg _ ending.decode_eq))
  constructor
  · intro runs tail ends
    rw [← List.append_nil (runs.flatMap Run.bytes)]
    rcases ends with rfl | ⟨rest, rfl⟩
    · exact decoded runs .nothing
    · exact decoded runs (.mark rest)
  · intro s
    obtain ⟨runs, tail, kept, rfl, ending⟩ := exists_runs s
    exact ⟨runs, tail, kept, rfl, ending, fun _ => runs_longest ending, decoded runs ending⟩

set_option maxRecDepth 1024 in
/-- The longest runs and the shortest ones, with bytes behind the end mark. -/
theorem extreme_runs_decoded :
    Filter.runLength.apply .empty none
        ((127 :: List.replicate 128 7) ++ [129, 9] ++ [255, 5] ++ [0, 1] ++ [128, 3, 4]) =
      .ok (some (List.replicate 128 7 ++ List.replicate 128 9 ++ [5, 5] ++ [1])) :=
  (runs_decoded .empty none).1
    [.literal (List.replicate 128 7) (by decide) (by decide), .repeated 9 128 (by decide) (by decide),
      .repeated 5 2 (by decide) (by decide), .literal [1] (by decide) (by decide)] [128, 3, 4] (.inr ⟨[3, 4], rfl⟩)

end PdfContent.RunLength
