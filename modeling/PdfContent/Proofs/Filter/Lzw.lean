import PdfContent.Filter.Lzw
import PdfContent.Proofs.Filter.Bits
/-!
# Lzw — the decoder undoes the textbook encoding

The textbook keeps a list of strings that grows by one with every code but the first, says which string a code stands
for (`Textbook.string?`), and writes each code with as many bits as the table of the decoder needs at that moment
(`Textbook.written`).  The decoder keeps entries that extend each other in their place (`Spells`, `Kept`), writes the
string of each code (`take_code`) and gets back what all of them stand for (`decode_written`).
-/
namespace PdfContent.Lzw

/-- The string table of the textbook since the last clear: the strings put in after the single bytes and the two special
codes, and the string of the last code. -/
structure Textbook where
  added : List Bytes
  last : Option Bytes

namespace Textbook

def cleared : Textbook := ⟨[], none⟩

/-- How many codes the table has: 256 bytes, the clear code, the end code and the strings that were put in. -/
def size (t : Textbook) : Nat := 258 + t.added.length

/-- The string of a code.  The first code is a byte.  A later one may be the next to be put in, unless the table is full:
the last string and its own first byte. -/
def string? (t : Textbook) (code : Nat) : Option Bytes :=
  if code < 256 then some [code.toUInt8]
  else
    match t.last with
    | none => none
    | some p =>
      if code < 258 then none
      else if code = t.size ∧ t.size < 4096 then some (p ++ p.take 1)
      else t.added[code - 258]?

/-- The table after a code with the string `s`: the last string and the first byte of `s` are put in, unless the table
is full. -/
def next (t : Textbook) (s : Bytes) : Textbook :=
  match t.last with
  | none => { t with last := some s }
  | some p => ⟨if t.size < 4096 then t.added ++ [p ++ s.take 1] else t.added, some s⟩

/-- What codes stand for, if they are valid.  The code 256 clears the table. -/
def meaning? : Textbook → List Nat → Option Bytes
  | _, [] => some []
  | t, code :: codes =>
    if code = 256 then meaning? cleared codes
    else (t.string? code).bind fun s => (meaning? (t.next s) codes).map (s ++ ·)

/-- Nine bits, and one more for each of three sizes that the table has reached. -/
def bitsFor (size : Nat) : Nat := 9 + [512, 1024, 2048].countP (· ≤ size)

/-- The bits of valid codes and of the end code 257, each as wide as the table asks for.  A table that changes early
counts one string more. -/
def written (early : Bool) : Textbook → List Nat → List Bool
  | t, [] => lowBits 257 (bitsFor (t.size + early.toNat))
  | t, code :: codes =>
    lowBits code (bitsFor (t.size + early.toNat)) ++
      written early (if code = 256 then cleared else t.next ((t.string? code).getD [])) codes

/-! ## Codes and widths -/

theorem width_eq (n : Nat) (early : Bool) : width n early = bitsFor (n + early.toNat) := by
  unfold width bitsFor
  cases early <;> simp only [List.countP_cons, List.countP_nil, decide_eq_true_eq, Bool.toNat_false, Bool.toNat_true,
    Bool.false_eq_true, ↓reduceIte] <;> grind

theorem bitsFor_bounds (n : Nat) : 9 ≤ bitsFor n ∧ bitsFor n ≤ 12 := by
  have := List.countP_le_length (p := fun k => decide (k ≤ n)) (l := [512, 1024, 2048])
  simp only [List.length_cons, List.length_nil] at this
  unfold bitsFor
  omega

/-- Every code of the table, and the one after it, fits into the width. -/
theorem lt_bitsFor {code n : Nat} (early : Bool) (hc : code ≤ n) (hn : code < 4096) :
    code < 1 <<< bitsFor (n + early.toNat) := by
  have steps : ∀ m, code ≤ m → code < 1 <<< bitsFor m := by
    intro m hm
    by_cases h512 : 512 ≤ m
    · by_cases h1024 : 1024 ≤ m
      · by_cases h2048 : 2048 ≤ m
        · simpa [bitsFor, h512, h1024, h2048] using hn
        · simp [bitsFor, h512, h1024, h2048]; omega
      · simp [bitsFor, h512, h1024, show ¬2048 ≤ m by omega]; omega
    · simp [bitsFor, h512, show ¬1024 ≤ m by omega, show ¬2048 ≤ m by omega]; omega
  exact steps _ (by omega)

theorem length_written (early : Bool) (t : Textbook) (codes : List Nat) :
    9 * (codes.length + 1) ≤ (written early t codes).length := by
  induction codes generalizing t with
  | nil =>
    have := (bitsFor_bounds (t.size + early.toNat)).1
    simpa [written, length_lowBits] using this
  | cons code codes ih =>
    have hb := (bitsFor_bounds (t.size + early.toNat)).1
    have hr := ih (if code = 256 then cleared else t.next ((t.string? code).getD []))
    rw [written, List.length_append, length_lowBits, List.length_cons]
    omega

/-! ## Entries and their strings -/

/-- The string of an entry: that of the entry it extends, and its last byte. -/
inductive Spells (table : Array Entry) : Nat → Bytes → Prop where
  | byte {code : Nat} {b : UInt8} (h : table[code]? = some ⟨noParent, b, 1⟩) : Spells table code [b]
  | step {code parent : Nat} {s : Bytes} {b : UInt8} (h : table[code]? = some ⟨parent, b, s.length + 1⟩) :
      Spells table parent s → Spells table code (s ++ [b])

namespace Spells

variable {table : Array Entry} {code : Nat} {s : Bytes}

theorem ne_nil (h : Spells table code s) : s ≠ [] := by
  cases h <;> simp

theorem entry (h : Spells table code s) : ∃ e, table[code]? = some e ∧ e.length = s.length := by
  cases h with
  | byte h => exact ⟨_, h, rfl⟩
  | step h _ => exact ⟨_, h, by simp⟩

theorem lt_size (h : Spells table code s) : code < table.size := by
  obtain ⟨e, he, -⟩ := h.entry
  exact (Array.getElem?_eq_some_iff.mp he).1

/-- What is put in later changes no string. -/
theorem push (h : Spells table code s) (e : Entry) : Spells (table.push e) code s := by
  have kept {c : Nat} {x : Entry} (hx : table[c]? = some x) : (table.push e)[c]? = some x := by
    rw [Array.getElem?_push, if_neg (Nat.ne_of_lt (Array.getElem?_eq_some_iff.mp hx).1), hx]
  induction h with
  | byte h => exact .byte (kept h)
  | step h _ ih => exact .step (kept h) ih

/-- The bytes are written from the last one to the first, each in its own place. -/
theorem writeFrom (h : Spells table code s) : ∀ {out : Array UInt8} {front room back : Bytes},
    out.toList = front ++ room ++ back → room.length = s.length →
      ∃ out', Lzw.writeFrom table front.length s.length code out = some out' ∧ out'.toList = front ++ s ++ back := by
  induction h with
  | @byte code b h =>
    intro out front room back hout hroom
    obtain ⟨old, rfl⟩ := List.length_eq_one_iff.mp hroom
    refine ⟨_, by rw [List.length_singleton, Lzw.writeFrom, h]; rfl, ?_⟩
    rw [Array.toList_setIfInBounds, hout]
    simp
  | @step code parent s b h _ ih =>
    intro out front room back hout hroom
    obtain ⟨room, old, rfl⟩ : ∃ init last, room = init ++ [last] :=
      ⟨_, _, (List.dropLast_concat_getLast (by rintro rfl; simp at hroom)).symm⟩
    have hroom : room.length = s.length := by simpa using hroom
    have set : (out.setIfInBounds (front.length + s.length) b).toList = front ++ room ++ b :: back := by
      rw [Array.toList_setIfInBounds, hout, ← hroom]
      simp
    obtain ⟨out', hw, hout'⟩ := ih set hroom
    refine ⟨out', ?_, by rw [hout']; simp⟩
    rw [List.length_append, List.length_singleton, Lzw.writeFrom, h]
    exact hw

/-- **The string of an entry is what is written for it.** -/
theorem writeEntry (h : Spells table code s) (out : Array UInt8) :
    ∃ out', Lzw.writeEntry table code out = some out' ∧ out'.toList = out.toList ++ s := by
  obtain ⟨e, he, length⟩ := h.entry
  have room : (out ++ Array.replicate e.length 0).toList = out.toList ++ List.replicate e.length 0 ++ [] := by simp
  obtain ⟨out', hw, hout⟩ := h.writeFrom room (by simp [length])
  refine ⟨out', ?_, by simpa using hout⟩
  rw [Array.length_toList, ← length] at hw
  rw [Lzw.writeEntry, he]
  exact hw

/-- The byte that is looked at behind the output so far is the first one of the string. -/
theorem first {out out' : Array UInt8} (hs : s ≠ []) (hout : out'.toList = out.toList ++ s) :
    s.take 1 = [out'.getD out.size 0] := by
  obtain ⟨b, r, rfl⟩ := List.exists_cons_of_ne_nil hs
  have here : out'[out.size]? = some b := by
    rw [← Array.getElem?_toList, hout, List.getElem?_append_right (by simp)]
    simp
  rw [Array.getD_eq_getD_getElem?, here]
  rfl

end Spells

/-! ## The table of the decoder -/

/-- What the decoder keeps of the table of the textbook: an entry for every string, and the code of the last one. -/
structure Kept (t : Textbook) (d : Decoder) : Prop where
  base : d.table.take firstFree = initial
  size : d.table.size = t.size
  byte : ∀ code < 256, Spells d.table code [code.toUInt8]
  added : ∀ i s, t.added[i]? = some s → Spells d.table (258 + i) s
  last : (t.last = none ∧ d.prev = none) ∨ ∃ c p, t.last = some p ∧ d.prev = some c ∧ Spells d.table c p
  full : t.size ≤ 4096

theorem size_initial : initial.size = 258 := by
  simp [initial]

namespace Kept

variable {t : Textbook} {d : Decoder}

theorem cleared (out : Array UInt8) : Kept cleared ⟨initial, none, out⟩ where
  base := by rw [Array.take_eq_extract, firstFree, ← size_initial]; exact Array.extract_size
  size := size_initial
  byte code h := .byte (by simp [initial, List.getElem?_append, h])
  added := nofun
  last := .inl ⟨rfl, rfl⟩
  full := by decide

theorem clear (h : Kept t d) : Kept Textbook.cleared d.clear := by
  rw [Decoder.clear, h.base]
  exact cleared d.out

/-- With the first byte of `s` the last string becomes an entry, unless the table is full. -/
theorem push (h : Kept t d) {c : Nat} {p s : Bytes} (hp : t.last = some p) (hc : Spells d.table c p) {b : UInt8}
    (hb : s.take 1 = [b]) (out : Array UInt8) {code : Nat}
    (hcode : Spells (pushEntry d.table c b) code s) : Kept (t.next s) ⟨pushEntry d.table c b, some code, out⟩ := by
  obtain ⟨e, he, length⟩ := hc.entry
  have entry : (d.table[c]?.map (·.length)).getD 0 = p.length := by rw [he, Option.map_some, Option.getD_some, length]
  have last : (t.next s).last = some s := by rw [Textbook.next, hp]
  by_cases room : t.size < 4096
  · have pushed : pushEntry d.table c b = d.table.push ⟨c, b, p.length + 1⟩ := by
      rw [pushEntry, h.size, maxEntries, if_pos room, entry]
    have added : (t.next s).added = t.added ++ [p ++ [b]] := by rw [Textbook.next, hp, hb]; exact if_pos room
    have size : (t.next s).size = t.size + 1 := by
      rw [Textbook.size, added, List.length_append, Textbook.size, List.length_singleton]
      rfl
    have large := size_initial
    refine ⟨?_, ?_, ?_, ?_, .inr ⟨code, s, last, rfl, hcode⟩, by omega⟩
    · have base := h.base
      rw [← base] at large
      simp only [pushed, Array.take_eq_extract, firstFree, Array.size_extract] at base large ⊢
      rw [Array.extract_push_of_le (by omega), base]
    · simp only [pushed, Array.size_push, h.size, size]
    · simp only [pushed]
      exact fun code hlt => (h.byte code hlt).push _
    · simp only [pushed]
      intro i x hx
      rw [added, List.getElem?_append] at hx
      split at hx
      case isTrue => exact (h.added i x hx).push _
      case isFalse old =>
        obtain ⟨here, rfl⟩ := List.getElem?_eq_some_iff.mp hx
        have place : 258 + i = d.table.size := by
          rw [h.size, Textbook.size]
          simp only [List.length_singleton] at here
          omega
        rw [List.getElem_singleton, place]
        exact .step (by simp) (hc.push _)
  · have same : pushEntry d.table c b = d.table := by rw [pushEntry, h.size, maxEntries, if_neg room]
    have added : (t.next s).added = t.added := by rw [Textbook.next, hp]; exact if_neg room
    rw [same] at hcode ⊢
    have size : (t.next s).size = t.size := by rw [Textbook.size, added, Textbook.size]
    exact ⟨h.base, h.size.trans size.symm, h.byte, added ▸ h.added, .inr ⟨code, s, last, rfl, hcode⟩, size ▸ h.full⟩

/-- The decoder has an entry for a code that the textbook knows, or is about to put it in. -/
theorem string? (h : Kept t d) {code : Nat} {s : Bytes} (hs : t.string? code = some s) :
    code ≠ 256 ∧ code ≠ 257 ∧
      (Spells d.table code s ∨ code = t.size ∧ t.size < 4096 ∧ ∃ p, t.last = some p ∧ s = p ++ p.take 1) := by
  unfold Textbook.string? at hs
  split at hs
  case isTrue low =>
    cases hs
    exact ⟨by omega, by omega, .inl (h.byte code low)⟩
  case isFalse =>
  cases hp : t.last with
  | none => rw [hp] at hs; cases hs
  | some p =>
    rw [hp] at hs
    dsimp only at hs
    split at hs
    · cases hs
    split at hs
    case isTrue next =>
      cases hs
      exact ⟨by omega, by omega, .inr ⟨next.1, next.2, p, rfl, rfl⟩⟩
    case isFalse =>
      have spells := h.added _ s hs
      rw [show 258 + (code - 258) = code by omega] at spells
      exact ⟨by omega, by omega, .inl spells⟩

end Kept

/-! ## Decoding -/

variable {early : Bool} {t : Textbook} {d : Decoder}

/-- **One code**: the decoder puts out its string and goes on with the table of the textbook. -/
theorem take_code (h : Kept t d) {code : Nat} {s : Bytes} (hs : t.string? code = some s) :
    ∃ d', d.take code = some d' ∧ Kept (t.next s) d' ∧ d'.out.toList = d.out.toList ++ s := by
  obtain ⟨-, -, known | ⟨rfl, room, p, hp, rfl⟩⟩ := h.string? hs
  · obtain ⟨out, written, hout⟩ := known.writeEntry d.out
    have first := Spells.first known.ne_nil hout
    refine ⟨_, by rw [Decoder.take, if_pos known.lt_size, written]; rfl, ?_, hout⟩
    rcases h.last with ⟨hl, hprev⟩ | ⟨c, p, hl, hprev, hc⟩
    · have next : t.next s = { t with last := some s } := by rw [Textbook.next, hl]
      rw [next, hprev]
      exact ⟨h.base, h.size, h.byte, h.added, .inr ⟨code, s, rfl, rfl, known⟩, h.full⟩
    · rw [hprev]
      refine h.push hl hc first out ?_
      rw [pushEntry]
      split
      · exact known.push _
      · exact known
  · -- the entry is put in by the code that stands for it
    rcases h.last with ⟨hl, -⟩ | ⟨c, p', hl, hprev, hc⟩
    · rw [hl] at hp
      cases hp
    obtain rfl : p' = p := Option.some.inj (hl.symm.trans hp)
    obtain ⟨out, written, hout⟩ := hc.writeEntry d.out
    have first := Spells.first hc.ne_nil hout
    have beyond : ¬t.size < d.table.size := by rw [h.size]; exact Nat.lt_irrefl _
    refine ⟨_, by rw [Decoder.take, if_neg beyond, hprev, Option.bind_some, written]; rfl, ?_, ?_⟩
    · have start : (p' ++ p'.take 1).take 1 = p'.take 1 := by
        obtain ⟨b, r, rfl⟩ := List.exists_cons_of_ne_nil hc.ne_nil
        rfl
      obtain ⟨e, he, length⟩ := hc.entry
      refine h.push hl hc (start.trans first) _ ?_
      rw [first, pushEntry, if_pos (by rw [h.size]; exact room), he, Option.map_some, Option.getD_some, length, ← h.size]
      exact .step (by simp) (hc.push _)
    · rw [Array.toList_push, hout, first, List.append_assoc]

/-- The next code is read, with the width that the table asks for. -/
theorem read?_code (h : Kept t d) {code : Nat} (hc : code ≤ t.size) (hm : code < 4096) {r : BitReader}
    {bits : List Bool} (hr : r.rest = lowBits code (bitsFor (t.size + early.toNat)) ++ bits) :
    ∃ r', r.read? (width d.table.size early) = some (code, r') ∧ r'.rest = bits := by
  obtain ⟨h9, h12⟩ := bitsFor_bounds (t.size + early.toNat)
  rw [width_eq, h.size]
  exact BitReader.read?_of_rest (by omega) (by omega) (lt_bitsFor early hc hm) hr

/-- **The decoder reads valid codes as the textbook does**, up to the end code and whatever follows it. -/
theorem decodeFrom_written (codes : List Nat) :
    ∀ {t : Textbook} {d : Decoder} {r : BitReader} {tail : List Bool} {result : Bytes} (fuel : Nat), Kept t d →
      meaning? t codes = some result → r.rest = written early t codes ++ tail → codes.length < fuel →
      decodeFrom early fuel r d = some (d.out.toList ++ result) := by
  induction codes with
  | nil =>
    intro t d r tail result fuel h hm hr hf
    obtain ⟨fuel, rfl⟩ : ∃ n, fuel = n + 1 := ⟨fuel - 1, by omega⟩
    obtain rfl := Option.some.inj hm
    obtain ⟨r', hread, -⟩ := read?_code h (by rw [size]; omega) (by decide) hr
    rw [decodeFrom, hread]
    simp [clearCode, endCode]
  | cons code codes ih =>
    intro t d r tail result fuel h hm hr hf
    obtain ⟨fuel, rfl⟩ : ∃ n, fuel = n + 1 := ⟨fuel - 1, by omega⟩
    have hlen : codes.length < fuel := by rw [List.length_cons] at hf; omega
    rw [meaning?] at hm
    rw [written, List.append_assoc] at hr
    by_cases hclear : code = 256
    · subst hclear
      rw [if_pos rfl] at hm hr
      obtain ⟨r', hread, hr'⟩ := read?_code h (by rw [size]; omega) (by decide) hr
      rw [decodeFrom, hread]
      exact ih fuel h.clear hm hr' hlen
    · rw [if_neg hclear] at hm hr
      obtain ⟨s, hs, hm⟩ := Option.bind_eq_some_iff.mp hm
      obtain ⟨rest, hrest, rfl⟩ := Option.map_eq_some_iff.mp hm
      rw [hs, Option.getD_some] at hr
      have hend : code ≠ 257 := (h.string? hs).2.1
      have hc : code ≤ t.size ∧ code < 4096 := by
        obtain ⟨-, -, known | ⟨rfl, room, -⟩⟩ := h.string? hs
        · have := known.lt_size
          have := h.size
          have := h.full
          omega
        · omega
      obtain ⟨r', hread, hr'⟩ := read?_code h hc.1 hc.2 hr
      obtain ⟨d', htake, h', hout⟩ := take_code h hs
      have inside : ¬code > d.table.size := by rw [h.size]; omega
      rw [decodeFrom, hread]
      simp only [beq_iff_eq, clearCode, endCode, hclear, hend, inside, htake, ↓reduceIte]
      rw [ih fuel h' hrest hr' hlen, hout, List.append_assoc]

/-- **Decoding undoes the textbook encoding**: whatever valid codes stand for is what the decoder makes of their bits,
whether the widths change early or not, and whatever bits and bytes come after the end code. -/
theorem decode_written (early : Bool) (codes : List Nat) (result : Bytes) (hm : meaning? cleared codes = some result)
    (data : Bytes) (tail : List Bool) (hd : data.bits = written early cleared codes ++ tail) :
    decode early data = some result := by
  have hl : codes.length < data.length + 1 := by
    have hw := length_written early cleared codes
    have hb := Bytes.length_bits data
    rw [hd, List.length_append] at hb
    omega
  exact decodeFrom_written codes (data.length + 1) (.cleared #[]) hm ((BitReader.rest_ofBytes data).trans hd) hl

/-- The example of the file format, with two bytes after it: the third code is the one that is put in only then. -/
theorem decode_repeated :
    meaning? cleared [256, 45, 258, 258, 65, 259, 66] = some [45, 45, 45, 45, 45, 65, 45, 45, 45, 66] ∧
      decode true [0x80, 0x0b, 0x60, 0x50, 0x22, 0x0c, 0x0c, 0x85, 0x01, 0xff, 0x00] =
        some [45, 45, 45, 45, 45, 65, 45, 45, 45, 66] := by
  have hm : meaning? cleared [256, 45, 258, 258, 65, 259, 66] = some [45, 45, 45, 45, 45, 65, 45, 45, 45, 66] := by
    decide
  exact ⟨hm, decode_written true _ _ hm _ (Bytes.bits [0xff, 0x00]) (by decide)⟩

end Textbook

end PdfContent.Lzw
