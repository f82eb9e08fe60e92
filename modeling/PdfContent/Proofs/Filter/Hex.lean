import PdfContent.Filter.Basic
import PdfContent.Proofs.Syntax.Escapes
/-!
# Hex — the filter for hexadecimal data and the strings between angle brackets

The filter pairs digits as they come and fails at a byte that it does not know; a string drops what is no digit and then
pairs the rest.  Up to the first `>` both give the same bytes, if the filter gives any (`hex_decoders_agree`).
-/
namespace PdfContent.AsciiHex

open Literal

/-- What the filter does not refuse: white space and hexadecimal digits. -/
def known (b : UInt8) : Bool := Byte.isBlank b || (Byte.hexValue? b).isSome

theorem known_iff (b : UInt8) : known b = true ↔ Byte.isBlank b = true ∨ ∃ v, HexDigit b v := by
  simp only [known, Bool.or_eq_true, Option.isSome_iff_exists, hexDigit_iff]
  exact or_congr_right ⟨fun ⟨x, hx⟩ => ⟨x.toNat, x, hx, rfl⟩, fun ⟨_, x, hx, _⟩ => ⟨x, hx⟩⟩

/-- The data up to the first `>`. -/
def body (s : Bytes) : Bytes := s.takeWhile (· != 0x3e)

theorem body_cons {b : UInt8} (hb : b ≠ 0x3e) (s : Bytes) : body (b :: s) = b :: body s :=
  List.takeWhile_cons_of_pos (by simpa using hb)

/-- **A digit that waits for its partner counts as the first of the digits to come.** -/
theorem decodeFrom_eq (high : Option UInt8) (s : Bytes) : decodeFrom high s =
    if (body s).all known then some (hexPairs (high.toList ++ (body s).filterMap Byte.hexValue?)) else none := by
  have lone (high : Option UInt8) : loneDigit high = hexPairs (high.toList ++ []) := by cases high <;> rfl
  induction s generalizing high with
  | nil => exact congrArg some (lone high)
  | cons b s ih =>
    rw [decodeFrom.eq_def]
    dsimp only
    by_cases last : b = 0x3e
    · subst last
      exact congrArg some (lone high)
    rw [if_neg (by simpa using last), body_cons last, List.all_cons]
    by_cases blank : Byte.isBlank b = true
    · rw [if_pos blank, ih, known, blank, Bool.true_or, Bool.true_and,
        List.filterMap_cons_none (HexBody.hexValue?_of_isBlank b blank).1]
    rw [if_neg blank]
    cases digit : Byte.hexValue? b with
    | none => simp [known, blank, digit]
    | some d =>
      have accepted : known b = true := by simp [known, digit]
      rw [accepted, Bool.true_and, List.filterMap_cons_some digit]
      cases high with
      | none => exact ih (some d)
      | some h =>
        dsimp only
        rw [ih none, apply_ite (Option.map _)]
        rfl

theorem decode_eq_some_iff (s v : Bytes) :
    decode s = some v ↔ (∀ b ∈ body s, known b = true) ∧ v = hexString (body s) := by
  rw [decode, decodeFrom_eq, Option.toList_none, List.nil_append, ← List.all_eq_true]
  by_cases accepted : (body s).all known = true
  · rw [if_pos accepted, Option.some.injEq]
    exact ⟨fun h => ⟨accepted, h.symm⟩, fun h => h.2.symm⟩
  · rw [if_neg accepted]
    exact ⟨nofun, fun h => absurd h.1 accepted⟩

/-- Nothing but white space and digits spells bytes. -/
theorem known_of_spelled {w v : Bytes} (h : HexBody w v) : ∀ b ∈ w, known b = true := by
  have blank (b : UInt8) (hb : Byte.isBlank b = true) : known b = true := by rw [known, hb, Bool.true_or]
  have digit {b x : UInt8} (hx : Byte.hexValue? b = some x) : known b = true := by simp [known, hx]
  induction h with
  | nil => exact nofun
  | blank hb _ ih => exact List.forall_mem_cons.mpr ⟨blank _ hb, ih⟩
  | pair hb gap _ ih =>
    obtain ⟨x, y, hx, hy, -⟩ := hb
    exact List.forall_mem_cons.mpr ⟨digit hx, List.forall_mem_append.mpr
      ⟨fun c hc => blank c (gap c hc), List.forall_mem_cons.mpr ⟨digit hy, ih⟩⟩⟩

/-- What the filter decodes does not open a dictionary behind an angle bracket. -/
theorem head?_ne_of_known {s : Bytes} (h : ∀ b ∈ body s, known b = true) : s.head? ≠ some 0x3c := by
  intro opened
  obtain ⟨r, rfl⟩ := List.head?_eq_some_iff.mp opened
  rw [body_cons (by decide)] at h
  exact absurd (h 0x3c (.head _)) (by decide)

/-- **The two decoders agree**: the filter gives something exactly if all bytes up to the first `>` are white space or
digits, and then what a string with these bytes stands for, as the lexer reads it between angle brackets.  A spelling of
bytes in pairs of digits stands for them in both. -/
theorem hex_decoders_agree (st : Store) (params : Option Dict) (data : Bytes) :
    (∀ v, Filter.asciiHex.apply st params data = .ok (some v) ↔
      (∀ b ∈ body data, Byte.isBlank b = true ∨ ∃ d, HexDigit b d) ∧ v = hexString (body data)) ∧
    (∀ v, Filter.asciiHex.apply st params data = .ok (some v) →
      Token.next? (0x3c :: data) = some (.string v, (data.dropWhile (· != 0x3e)).drop 1)) ∧
    ∀ v, HexBody (body data) v → Filter.asciiHex.apply st params data = .ok (some v) ∧ hexString (body data) = v := by
  have decoded (v : Bytes) : Filter.asciiHex.apply st params data = .ok (some v) ↔
      (∀ b ∈ body data, known b = true) ∧ v = hexString (body data) :=
    (Except.ok.injEq ..).to_iff.trans (decode_eq_some_iff data v)
  refine ⟨fun v => ?_, fun v h => ?_, fun v h => ?_⟩
  · simp only [← known_iff]
    exact decoded v
  · obtain ⟨accepted, rfl⟩ := (decoded v).mp h
    exact Written.next?_hex (head?_ne_of_known accepted)
  · exact ⟨(decoded v).mpr ⟨known_of_spelled h, h.decode.symm⟩, h.decode⟩

/-- White space inside of a pair, digits of both cases, and a last digit without a partner. -/
theorem lone_digit_decoded :
    let odd := Bytes.ofText "4 8 6c\n7>x"
    let even := Bytes.ofText " 6 C"
    Filter.asciiHex.apply .empty none odd = .ok (some [0x48, 0x6c, 0x70]) ∧
      Token.next? (0x3c :: odd) = some (.string [0x48, 0x6c, 0x70], [0x78]) ∧
      HexBody (body even) [0x6c] ∧ Filter.asciiHex.apply .empty none even = .ok (some [0x6c]) := by
  intro odd even
  have decoded : Filter.asciiHex.apply .empty none odd = .ok (some [0x48, 0x6c, 0x70]) := rfl
  have spelled : HexBody (body even) [0x6c] :=
    .blank rfl (@HexBody.pair 0x36 [0x20] 0x43 0x6c [] [] ⟨6, 12, rfl, rfl, rfl⟩
      (List.forall_mem_singleton.mpr rfl) .nil)
  exact ⟨decoded, (hex_decoders_agree .empty none odd).2.1 _ decoded, spelled,
    ((hex_decoders_agree .empty none even).2.2 _ spelled).1⟩

end PdfContent.AsciiHex
