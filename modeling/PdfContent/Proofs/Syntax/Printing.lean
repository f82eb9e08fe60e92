import PdfContent.Proofs.Object.Dict
import PdfContent.Proofs.Syntax.Spelling
import PdfContent.Proofs.Syntax.Whole
/-!
# Printing — an object is read back from every way to print it

An object is printed as a row of tokens, its containers between their marks and the entries of a dictionary in any order
(`Prints`); the tokens are spelled as bytes.  The reader keeps a stack of open containers, and reading the tokens of an
element adds that element to the innermost of them (`Prints.leads`).  Only numbers look ahead, and what follows an
element is never taken for the end of a reference (`Clear`).
-/
namespace PdfContent

open Reading

/-! ## Rules -/

/-- An object without other objects inside.  Reals do not count, since their spelling does not determine them, and
neither do streams. -/
def Object.IsScalar : Object → Prop
  | .null | .bool _ | .str _ | .name _ => True
  | .num (.int i) => -maxInt64 ≤ i ∧ i ≤ maxInt64
  | .ref r => r.num < UInt32.size ∧ r.gen < UInt16.size
  | _ => False

/-- An object that lies inside of `depth` containers, none of its parts in more than the reader follows. -/
inductive Printable : Nat → Object → Prop where
  | scalar {depth o} (hd : depth ≤ maxNesting) (h : o.IsScalar) : Printable depth o
  | array {depth items} (hd : depth ≤ maxNesting) (h : ∀ o ∈ items, Printable (depth + 1) o) :
      Printable depth (.array items)
  | dict {depth d} (hd : depth ≤ maxNesting) (ho : Dict.Ordered d.entries)
      (h : ∀ e ∈ d.entries, Printable (depth + 1) e.2) : Printable depth (.dict d)

/-- What a row of tokens can stand for: an object, or the inside of a container. -/
inductive Piece where
  | object (o : Object)
  | items (l : List Object)
  | entries (es : List (Name × Object))

def Piece.Printable (depth : Nat) : Piece → Prop
  | object o => PdfContent.Printable depth o
  | items l => ∀ o ∈ l, PdfContent.Printable depth o
  | entries es => ∀ e ∈ es, PdfContent.Printable depth e.2

inductive PrintsScalar : Object → List Token → Prop where
  | null : PrintsScalar .null [.keyword (Bytes.ofText "null")]
  | bool (b : Bool) : PrintsScalar (.bool b) [.keyword (Bytes.ofText (toString b))]
  | int (i : Int) : PrintsScalar (.num (.int i)) [.number (.int i)]
  | str (bs : Bytes) : PrintsScalar (.str bs) [.string bs]
  | name (n : Name) : PrintsScalar (.name n) [.name n]
  | ref (r : ObjRef) :
      PrintsScalar (.ref r) [.number (.int r.num), .number (.int r.gen), .keyword referenceWord]

inductive Prints : Piece → List Token → Prop where
  | scalar {o ts} : PrintsScalar o ts → Prints (.object o) ts
  | array {l ts} : Prints (.items l) ts → Prints (.object (.array l)) (.arrayStart :: (ts ++ [.arrayEnd]))
  | dict {d es ts} (hp : es.Perm d.entries) :
      Prints (.entries es) ts → Prints (.object (.dict d)) (.dictStart :: (ts ++ [.dictEnd]))
  | noItems : Prints (.items []) []
  | item {o l ts us} : Prints (.object o) ts → Prints (.items l) us → Prints (.items (o :: l)) (ts ++ us)
  | noEntries : Prints (.entries []) []
  | entry {k o es ts us} : Prints (.object o) ts → Prints (.entries es) us →
      Prints (.entries ((k, o) :: es)) (.name k :: (ts ++ us))

/-- The bytes are a way to print the object. -/
def Spells (o : Object) (s : Bytes) : Prop := ∃ ts, Prints (.object o) ts ∧ Spelled ts s

/-- The bytes do not start with what can be part of a reference. -/
def Harmless (c : Bytes) : Prop :=
  match Token.next? c with
  | some (.number (.int _), _) => False
  | some (.keyword w, _) => w ≠ referenceWord
  | _ => True

/-- The tokens, and `c` after them, do not go on with what makes a reference of the numbers before them. -/
def Clear (c : Bytes) : List Token → Prop
  | [] | [.number (.int _)] => Harmless c
  | .keyword w :: _ | .number (.int _) :: .keyword w :: _ => w ≠ referenceWord
  | _ => True

/-! ## Tokens of objects -/

namespace Printable

variable {depth : Nat}

theorem depth_le {o : Object} (h : Printable depth o) : depth ≤ maxNesting := by
  cases h <;> assumption

theorem isScalar {o : Object} {ts : List Token} (h : Printable depth o) (hp : PrintsScalar o ts) : o.IsScalar := by
  cases h with
  | scalar _ h => exact h
  | array | dict => nomatch hp

theorem items {l : List Object} (h : Printable depth (.array l)) : ∀ o ∈ l, Printable (depth + 1) o := by
  cases h with
  | scalar _ h => exact h.elim
  | array _ h => exact h

theorem entries {d : Dict} (h : Printable depth (.dict d)) :
    Dict.Ordered d.entries ∧ ∀ e ∈ d.entries, Printable (depth + 1) e.2 := by
  cases h with
  | scalar _ h => exact h.elim
  | dict _ ho h => exact ⟨ho, h⟩

end Printable

theorem PrintsScalar.inRange {o : Object} {ts : List Token} (h : PrintsScalar o ts) (ho : o.IsScalar) :
    ∀ t ∈ ts, t.InRange := by
  cases h with
  | int => exact List.forall_mem_singleton.mpr ho
  | ref r =>
    have h₁ : (UInt32.size : Int) ≤ maxInt64 := by decide
    have h₂ : (UInt16.size : Int) ≤ maxInt64 := by decide
    have h₀ : 0 ≤ maxInt64 := by decide
    obtain ⟨hn, hg⟩ := ho
    simp only [List.forall_mem_cons, Token.InRange]
    refine ⟨⟨by omega, by omega⟩, ⟨by omega, by omega⟩, trivial, nofun⟩
  | _ => exact List.forall_mem_singleton.mpr trivial

/-- The numbers that are printed can be read. -/
theorem Prints.inRange {p : Piece} {ts : List Token} (h : Prints p ts) :
    ∀ {depth}, p.Printable depth → ∀ t ∈ ts, t.InRange := by
  induction h with
  | scalar h => exact fun hp => h.inRange (hp.isScalar h)
  | array _ ih =>
    intro depth hp
    have hi := ih hp.items
    simp only [List.forall_mem_cons, List.forall_mem_append]
    exact ⟨trivial, hi, trivial, nofun⟩
  | dict hperm _ ih =>
    intro depth hp
    have hi := ih fun e he => hp.entries.2 e (hperm.mem_iff.mp he)
    simp only [List.forall_mem_cons, List.forall_mem_append]
    exact ⟨trivial, hi, trivial, nofun⟩
  | noItems | noEntries => exact fun _ => nofun
  | item _ _ ih ih' =>
    intro depth hp
    obtain ⟨ho, hl⟩ := List.forall_mem_cons.mp hp
    exact List.forall_mem_append.mpr ⟨ih ho, ih' hl⟩
  | entry _ _ ih ih' =>
    intro depth hp
    obtain ⟨ho, hes⟩ := List.forall_mem_cons.mp hp
    exact List.forall_mem_cons.mpr ⟨trivial, List.forall_mem_append.mpr ⟨ih ho, ih' hes⟩⟩

theorem Clear.int {c : Bytes} {more : List Token} (i : Int) (h : Clear c more) :
    Clear c (.number (.int i) :: more) := by
  match more, h with
  | [], h => exact h
  | .keyword _ :: _, h => exact h
  | .number _ :: _, _ | .name _ :: _, _ | .string _ :: _, _ | .arrayStart :: _, _ | .arrayEnd :: _, _
  | .dictStart :: _, _ | .dictEnd :: _, _ => trivial

/-- What is printed never looks like the end of a reference. -/
theorem Prints.clear {p : Piece} {ts more : List Token} {c : Bytes} (h : Prints p ts) (hm : Clear c more) :
    Clear c (ts ++ more) := by
  induction h generalizing more with
  | scalar h =>
    cases h with
    | null => exact show Bytes.ofText "null" ≠ referenceWord by decide
    | bool b => exact show Bytes.ofText (toString b) ≠ referenceWord by cases b <;> decide
    | int i => exact hm.int i
    | str | name | ref => trivial
  | array | dict | entry => trivial
  | noItems | noEntries => exact hm
  | item _ _ ih ih' =>
    rw [List.append_assoc]
    exact ih (ih' hm)

/-! ## Reading -/

namespace ReadsTo

variable {c s : Bytes} {more : List Token}

/-- An integer stays a number in front of tokens that end no reference. -/
theorem numberOrReference (h : ReadsTo c s more) (hm : Clear c more) (i : Int) :
    Reading.numberOrReference (.int i) s = (.num (.int i), s) := by
  unfold Reading.numberOrReference
  split
  case h_1 => rfl
  case h_2 =>
  split
  case h_2 => rfl
  case h_1 g s₁ hg =>
  split
  case h_2 => rfl
  case h_1 w s₂ hw =>
  -- the two tokens after the number are the first ones of `more` and `c`, which are clear
  have hne : w ≠ referenceWord := by
    cases h with
    | nil =>
      simp only [Clear, Harmless, hg] at hm
    | cons hn hr =>
      cases hn.symm.trans hg
      cases hr with
      | nil =>
        simp only [Clear, Harmless, hw] at hm
        exact hm
      | cons hn' _ =>
        cases hn'.symm.trans hw
        exact hm
  rw [if_pos (bne_iff_ne.mpr hne)]

/-- A reference is read from its three tokens. -/
theorem reference {r : ObjRef}
    (h : ReadsTo c s (.number (.int r.gen) :: .keyword referenceWord :: more)) (hr : (Object.ref r).IsScalar) :
    ∃ rest, ReadsTo c rest more ∧ Reading.numberOrReference (.int r.num) s = (.ref r, rest) := by
  obtain ⟨s₁, hg, h⟩ := h.of_cons
  obtain ⟨rest, hw, h⟩ := h.of_cons
  refine ⟨rest, h, ?_⟩
  have hb : (decide (0 ≤ (r.num : Int)) && decide ((r.num : Int) < UInt32.size) &&
      decide (0 ≤ (r.gen : Int)) && decide ((r.gen : Int) < UInt16.size)) = true := by
    obtain ⟨hn, hg⟩ := hr
    simp only [Bool.and_eq_true, decide_eq_true_eq]
    omega
  simp only [Reading.numberOrReference, hg, hw, bne_self_eq_false, hb, Bool.false_eq_true, ↓reduceIte,
    Int.toNat_natCast]

end ReadsTo

def Token.IsMark : Token → Prop
  | .arrayStart | .arrayEnd | .dictStart | .dictEnd => True
  | _ => False

/-- **An object without other objects inside is read from its tokens.** -/
theorem PrintsScalar.reads {o : Object} {ts more : List Token} {c s : Bytes} (h : PrintsScalar o ts) (ho : o.IsScalar)
    (hs : ReadsTo c s (ts ++ more)) (hm : Clear c more) :
    ∃ t rest r, Token.next? s = some (t, rest) ∧ ¬t.IsMark ∧ scalar? true t rest = (some o, r) ∧ ReadsTo c r more := by
  cases h with
  | null | str | name =>
    obtain ⟨rest, hn, hr⟩ := hs.of_cons
    exact ⟨_, rest, rest, hn, id, rfl, hr⟩
  | bool b =>
    obtain ⟨rest, hn, hr⟩ := hs.of_cons
    exact ⟨_, rest, rest, hn, id, by cases b <;> rfl, hr⟩
  | int i =>
    obtain ⟨rest, hn, hr⟩ := hs.of_cons
    refine ⟨_, rest, rest, hn, id, ?_, hr⟩
    rw [scalar?, if_pos rfl, hr.numberOrReference hm]
  | ref r =>
    obtain ⟨s₁, hn, hs⟩ := hs.of_cons
    obtain ⟨rest, hr, href⟩ := hs.reference ho
    refine ⟨_, s₁, rest, hn, id, ?_, hr⟩
    rw [scalar?, if_pos rfl, href]

/-- What a container becomes when a piece is put into it. -/
inductive Frame.Grows : Frame → Piece → Frame → Prop where
  | element {items o} : Grows (.array items) (.object o) (.array (o :: items))
  | value {entries k o} : Grows (.dict entries (some k)) (.object o) (.dict ((k, o) :: entries) none)
  | items {items l} : Grows (.array items) (.items l) (.array (l.reverse ++ items))
  | entries {entries es} : Grows (.dict entries none) (.entries es) (.dict (es.reverse ++ entries) none)

theorem Frame.close_items (l : List Object) : (Frame.array (l.reverse ++ [])).close = .array l := by
  simp only [close, List.append_nil, List.reverse_reverse]

theorem Frame.close_entries {d : Dict} {es : List (Name × Object)} (ho : Dict.Ordered d.entries)
    (hp : es.Perm d.entries) : (Frame.dict (es.reverse ++ []) none).close = .dict d := by
  simp only [close, List.append_nil, List.reverse_reverse, Dict.ofList_of_perm ho hp]

/-- Reading on in the container `top` comes to what reading on in `top'` comes to, with the tokens `more` and then `c`
to go. -/
def LeadsTo (c : Bytes) (outer : List Frame) (top : Frame) (s : Bytes) (top' : Frame) (more : List Token) : Prop :=
  ∃ r, ReadsTo c r more ∧ container true outer top s = container true outer top' r

abbrev Leads : List Frame → Frame → Bytes → Frame → List Token → Prop := LeadsTo []

section

variable {outer : List Frame} {top top' : Frame} {t : Token} {rest rest' : Bytes}

/-- Where an object can be put, its first token is read as one. -/
theorem step_object {o : Object} (h : top.Grows (.object o) top') (ha : t ≠ .arrayEnd) (hd : t ≠ .dictEnd) :
    step true outer top t rest = element true outer top t rest := by
  cases h <;> cases t <;> first | rfl | contradiction

theorem add_object {o : Object} (h : top.Grows (.object o) top') : top.add o = top' := by
  cases h <;> rfl

theorem step_scalar {o : Object} (h : top.Grows (.object o) top') (hd : outer.length + 1 ≤ maxNesting) (ht : ¬t.IsMark)
    (hs : scalar? true t rest = (some o, rest')) : step true outer top t rest = .more outer top' rest' := by
  have ha : t ≠ .arrayEnd := by
    rintro rfl
    exact ht trivial
  have hd' : t ≠ .dictEnd := by
    rintro rfl
    exact ht trivial
  rw [step_object h ha hd']
  unfold element
  rw [if_neg (Nat.not_lt.mpr hd)]
  cases t with
  | arrayStart | arrayEnd | dictStart | dictEnd => exact (ht trivial).elim
  | _ => simp only [hs, add_object h]

/-- Opens a container in which an object can be put. -/
theorem step_open {o : Object} (h : top.Grows (.object o) top') (hd : outer.length + 1 ≤ maxNesting) :
    step true outer top .arrayStart rest = .more (top :: outer) (.array []) rest ∧
      step true outer top .dictStart rest = .more (top :: outer) (.dict [] none) rest := by
  constructor
  · rw [step_object (t := .arrayStart) h nofun nofun, element, if_neg (Nat.not_lt.mpr hd)]
  · rw [step_object (t := .dictStart) h nofun nofun, element, if_neg (Nat.not_lt.mpr hd)]

end

/-- **Reading the tokens of a piece puts the piece into the innermost container.** -/
theorem Prints.leads {p : Piece} {ts : List Token} {c : Bytes} (h : Prints p ts) :
    ∀ outer {top top' s more}, p.Printable (outer.length + 1) → top.Grows p top' → ReadsTo c s (ts ++ more) →
      Clear c more → LeadsTo c outer top s top' more := by
  induction h with
  | scalar h =>
    intro outer top top' s more hp hg hs hm
    obtain ⟨t, rest, r, hn, ht, hsc, hr⟩ := h.reads (hp.isScalar h) hs hm
    exact ⟨r, hr, container_more hn (step_scalar hg hp.depth_le ht hsc)⟩
  | @array l ts _ ih =>
    intro outer top top' s more hp hg hs hm
    -- the inside is read with `top` pushed on the stack, one container deeper
    rw [List.cons_append, List.append_assoc] at hs
    obtain ⟨s₁, hn, hs⟩ := hs.of_cons
    obtain ⟨s₂, hs, hl⟩ := ih (top :: outer) hp.items .items hs trivial
    obtain ⟨r, hn', hr⟩ := hs.of_cons
    refine ⟨r, hr, ?_⟩
    rw [container_more hn (step_open hg hp.depth_le).1, hl, container_more hn' rfl, ← add_object hg, Frame.close_items]
  | @dict d es ts hperm _ ih =>
    intro outer top top' s more hp hg hs hm
    rw [List.cons_append, List.append_assoc] at hs
    obtain ⟨s₁, hn, hs⟩ := hs.of_cons
    obtain ⟨ho, hes⟩ := hp.entries
    obtain ⟨s₂, hs, hl⟩ := ih (top :: outer) (fun e he => hes e (hperm.mem_iff.mp he)) .entries hs trivial
    obtain ⟨r, hn', hr⟩ := hs.of_cons
    refine ⟨r, hr, ?_⟩
    rw [container_more hn (step_open hg hp.depth_le).2, hl, container_more hn' rfl, ← add_object hg,
      Frame.close_entries ho hperm]
  | noItems =>
    intro outer top top' s more _ hg hs _
    cases hg with
    | items => exact ⟨s, hs, rfl⟩
  | @item o l ts us _ hus ih ih' =>
    intro outer top top' s more hp hg hs hm
    obtain ⟨ho, hl⟩ := List.forall_mem_cons.mp hp
    rw [List.append_assoc] at hs
    cases hg with
    | items =>
      obtain ⟨s₁, hs, h₁⟩ := ih outer ho .element hs (hus.clear hm)
      obtain ⟨r, hr, h₂⟩ := ih' outer hl .items hs hm
      refine ⟨r, hr, ?_⟩
      rw [h₁, h₂, List.reverse_cons, List.append_assoc, List.singleton_append]
  | noEntries =>
    intro outer top top' s more _ hg hs _
    cases hg with
    | entries => exact ⟨s, hs, rfl⟩
  | @entry k o es ts us _ hus ih ih' =>
    intro outer top top' s more hp hg hs hm
    obtain ⟨ho, hes⟩ := List.forall_mem_cons.mp hp
    rw [List.cons_append, List.append_assoc] at hs
    obtain ⟨s₁, hn, hs⟩ := hs.of_cons
    cases hg with
    | entries =>
      obtain ⟨s₂, hs, h₁⟩ := ih outer ho .value hs (hus.clear hm)
      obtain ⟨r, hr, h₂⟩ := ih' outer hes .entries hs hm
      refine ⟨r, hr, ?_⟩
      rw [container_more hn rfl, h₁, h₂, List.reverse_cons, List.append_assoc, List.singleton_append]

/-- **The reader undoes printing.**  However an object is printed, with its dictionaries in any order, its names and
strings escaped in any way and any filler between two tokens, the reader returns this object and leaves
nothing of the bytes. -/
theorem object?_of_spells {o : Object} {s : Bytes} (ho : Printable 0 o) (hs : Spells o s) :
    Reading.object? s = some (o, []) := by
  obtain ⟨ts, hp, hs⟩ := hs
  have hr : Reads s (ts ++ []) := by
    rw [List.append_nil]
    exact hs.reads (hp.inRange (p := .object o) ho)
  cases hp with
  | scalar h =>
    obtain ⟨t, rest, r, hn, ht, hsc, hr⟩ := h.reads (ho.isScalar h) hr trivial
    rw [Reading.object?, hn]
    have hf : objectFrom true t rest = (some o, r) := by
      cases t with
      | arrayStart | arrayEnd | dictStart | dictEnd => exact (ht trivial).elim
      | _ => exact hsc
    simp only [hf, hr.of_nil]
  | @array l ts h =>
    rw [List.cons_append, List.append_assoc] at hr
    obtain ⟨s₁, hn, hr⟩ := hr.of_cons
    obtain ⟨s₂, hr, hl⟩ : Leads [] (.array []) s₁ (.array (l.reverse ++ [])) [.arrayEnd] :=
      h.leads [] ho.items .items hr trivial
    obtain ⟨r, hn', hr⟩ := hr.of_cons
    have hd := container_done hn' (show step true [] (.array (l.reverse ++ [])) .arrayEnd r = _ from rfl)
    simp only [Reading.object?, hn, objectFrom]
    rw [hl, hd, hr.of_nil, Frame.close_items]
  | @dict d es ts hperm h =>
    rw [List.cons_append, List.append_assoc] at hr
    obtain ⟨s₁, hn, hr⟩ := hr.of_cons
    obtain ⟨hord, hes⟩ := ho.entries
    obtain ⟨s₂, hr, hl⟩ : Leads [] (.dict [] none) s₁ (.dict (es.reverse ++ []) none) [.dictEnd] :=
      h.leads [] (fun e he => hes e (hperm.mem_iff.mp he)) .entries hr trivial
    obtain ⟨r, hn', hr⟩ := hr.of_cons
    have hd := container_done hn' (show step true [] (.dict (es.reverse ++ []) none) .dictEnd r = _ from rfl)
    simp only [Reading.object?, hn, objectFrom]
    rw [hl, hd, hr.of_nil, Frame.close_entries hord hperm]

/-- The first number is kept apart from the two that follow it, which make a reference. -/
theorem reference_spelled :
    Printable 0 (.array [.num (.int 7), .ref ⟨12, 0⟩]) ∧
      Spells (.array [.num (.int 7), .ref ⟨12, 0⟩]) (Bytes.ofText "[ 7 %\n12 0 R ]") ∧
      Reading.object? (Bytes.ofText "[ 7 %\n12 0 R ]") = some (.array [.num (.int 7), .ref ⟨12, 0⟩], []) := by
  have ho : Printable 0 (.array [.num (.int 7), .ref ⟨12, 0⟩]) := by
    refine .array (by decide) (List.forall_mem_cons.mpr ⟨.scalar (by decide) ?_, List.forall_mem_singleton.mpr ?_⟩)
    · exact show -maxInt64 ≤ 7 ∧ (7 : Int) ≤ maxInt64 by decide
    · exact .scalar (by decide) (show 12 < UInt32.size ∧ 0 < UInt16.size by decide)
  have blank : Filler [0x20] := .blank (by decide)
  have number (w : Bytes) (hn : w ≠ []) (hd : w.all Byte.isDigit = true) :
      Written (.number (.int (Bytes.withDigits 0 w))) w :=
    .integer (.plain hn (List.all_eq_true.mp hd))
  have word : Written (.keyword referenceWord) [0x52] := .keyword (List.forall_mem_singleton.mpr rfl) rfl
  have hs : Spells (.array [.num (.int 7), .ref ⟨12, 0⟩]) (Bytes.ofText "[ 7 %\n12 0 R ]") := by
    refine ⟨_, .array (.item (.scalar (.int 7)) (.item (.scalar (.ref ⟨12, 0⟩)) .noItems)), ?_⟩
    have comment : Filler ([0x20] ++ (0x25 :: ([] ++ [0x0a]))) := .append blank (.comment nofun (by decide))
    exact .cons .arrayStart blank <| .cons (number [0x37] nofun rfl) comment <|
      .cons (number [0x31, 0x32] nofun rfl) blank <| .cons (number [0x30] nofun rfl) blank <|
      .cons word blank <| .one .arrayEnd
  exact ⟨ho, hs, object?_of_spells ho hs⟩

/-! ## Objects with more bytes after them -/

/-- The object ends in front of `c`.  A container has a mark at its end, a string at least looks like one. -/
def Object.EndsAt (c : Bytes) : Object → Prop
  | .array _ | .dict _ => True
  | .str _ => Harmless c
  | _ => Ended c ∧ Harmless c

theorem PrintsScalar.endsAt {o : Object} {ts : List Token} {c : Bytes} (h : PrintsScalar o ts) (hc : o.EndsAt c) :
    Harmless c ∧ ∀ t ∈ ts.getLast?, t.EndsAt c := by
  cases h with
  | str => exact ⟨hc, fun t ht => by cases ht; trivial⟩
  | null | bool | int | name | ref => exact ⟨hc.2, fun t _ => hc.1.endsAt t⟩

theorem Prints.endsAt {o : Object} {ts : List Token} {c : Bytes} (h : Prints (.object o) ts) (hc : o.EndsAt c) :
    ∀ t ∈ ts.getLast?, t.EndsAt c := by
  cases h with
  | scalar h => exact (h.endsAt hc).2
  | array | dict =>
    rw [← List.cons_append, List.getLast?_concat]
    rintro t ⟨⟩
    trivial

/-- **The reader stops where the object ends.** -/
theorem object?_append {o : Object} {w c : Bytes} (ho : Printable 0 o) (hw : Spells o w) (hc : o.EndsAt c) :
    Reading.object? (w ++ c) = some (o, c) := by
  obtain ⟨ts, hp, hw⟩ := hw
  have hr : ReadsTo c (w ++ c) (ts ++ []) := by
    rw [List.append_nil]
    exact hw.readsTo (hp.inRange (p := .object o) ho) (hp.endsAt hc)
  cases hp with
  | scalar h =>
    obtain ⟨t, rest, r, hn, ht, hsc, hr⟩ := h.reads (ho.isScalar h) hr (h.endsAt hc).1
    have hf : objectFrom true t rest = (some o, r) := by
      cases t with
      | arrayStart | arrayEnd | dictStart | dictEnd => exact (ht trivial).elim
      | _ => exact hsc
    simp only [Reading.object?, hn, hf, hr.of_nil]
  | @array l ts h =>
    rw [List.cons_append, List.append_assoc] at hr
    obtain ⟨s₁, hn, hr⟩ := hr.of_cons
    obtain ⟨s₂, hr, hl⟩ : LeadsTo c [] (.array []) s₁ (.array (l.reverse ++ [])) [.arrayEnd] :=
      h.leads [] ho.items .items hr trivial
    obtain ⟨r, hn', hr⟩ := hr.of_cons
    have hd := container_done hn' (show step true [] (.array (l.reverse ++ [])) .arrayEnd r = _ from rfl)
    simp only [Reading.object?, hn, objectFrom]
    rw [hl, hd, hr.of_nil, Frame.close_items]
  | @dict d es ts hperm h =>
    rw [List.cons_append, List.append_assoc] at hr
    obtain ⟨s₁, hn, hr⟩ := hr.of_cons
    obtain ⟨hord, hes⟩ := ho.entries
    obtain ⟨s₂, hr, hl⟩ : LeadsTo c [] (.dict [] none) s₁ (.dict (es.reverse ++ []) none) [.dictEnd] :=
      h.leads [] (fun e he => hes e (hperm.mem_iff.mp he)) .entries hr trivial
    obtain ⟨r, hn', hr⟩ := hr.of_cons
    have hd := container_done hn' (show step true [] (.dict (es.reverse ++ []) none) .dictEnd r = _ from rfl)
    simp only [Reading.object?, hn, objectFrom]
    rw [hl, hd, hr.of_nil, Frame.close_entries hord hperm]

end PdfContent
