import PdfContent.Proofs.Content.Steps
import PdfContent.Proofs.Font.Codespace
/-!
# Glyph ranges — which entry of a program gives the glyph of a code

A map holds its ranges in the order of their lower bounds and looks a code up by halving.  The sort keeps the order of
ranges with one lower bound (`filter_mergeSort`), and halving leaves out only ranges that begin after the code
(`boundary_append`).  So the glyph is that of a plain search among the entries of the program (`Selected`): of the ranges
that hold the code those with the greatest lower bound, and of these the last one.
-/
namespace PdfContent

namespace GlyphRange

def Holds (r : GlyphRange) (code : Nat) : Prop := r.low ≤ code ∧ code ≤ r.high

instance (r : GlyphRange) (code : Nat) : Decidable (r.Holds code) := inferInstanceAs (Decidable (_ ∧ _))

def notAfter (r s : GlyphRange) : Bool := r.low ≤ s.low

/-- Whether a range is the last of those that begin last among the entries that hold a code. -/
def Selected (entries : List GlyphRange) (code : Nat) (r : GlyphRange) : Prop :=
  r.Holds code ∧ ∃ before after, entries = before ++ r :: after ∧
    (∀ e ∈ before, e.Holds code → e.low ≤ r.low) ∧ ∀ e ∈ after, e.Holds code → e.low < r.low

variable {entries : List GlyphRange} {code : Nat} {r : GlyphRange}

/-! ## Selection does not depend on the sort -/

def beginning (code low : Nat) (entries : List GlyphRange) : List GlyphRange :=
  entries.filter fun e => decide (e.Holds code ∧ e.low = low)

theorem mem_beginning {low : Nat} {e : GlyphRange} :
    e ∈ beginning code low entries ↔ e ∈ entries ∧ e.Holds code ∧ e.low = low := by
  simp [beginning]

theorem Selected.mem (h : Selected entries code r) : r ∈ entries := by
  obtain ⟨-, before, after, rfl, -⟩ := h
  simp

theorem Selected.greatest (h : Selected entries code r) : ∀ e ∈ entries, e.Holds code → e.low ≤ r.low := by
  obtain ⟨-, before, after, rfl, hbefore, hafter⟩ := h
  intro e he hold
  rcases List.mem_append.1 he with he | he
  · exact hbefore e he hold
  · rcases List.mem_cons.1 he with rfl | he
    · exact Nat.le_refl _
    · exact Nat.le_of_lt (hafter e he hold)

theorem selected_iff : Selected entries code r ↔
    (∀ e ∈ entries, e.Holds code → e.low ≤ r.low) ∧ (beginning code r.low entries).getLast? = some r := by
  constructor
  · intro h
    refine ⟨h.greatest, ?_⟩
    obtain ⟨hold, before, after, rfl, -, hafter⟩ := h
    have rest : beginning code r.low after = [] := List.filter_eq_nil_iff.2 fun e he hp => by
      simp only [decide_eq_true_eq] at hp
      have := hafter e he hp.1
      omega
    have split : beginning code r.low (before ++ r :: after) = beginning code r.low before ++ [r] := by
      rw [← rest]
      simp [beginning, hold]
    rw [split, List.getLast?_concat]
  · rintro ⟨greatest, last⟩
    obtain ⟨others, split⟩ := List.getLast?_eq_some_iff.1 last
    obtain ⟨before, found, rfl, -, hfound⟩ := List.filter_eq_append_iff.1 split
    obtain ⟨skipped, after, rfl, -, hr, hafter⟩ := List.filter_eq_cons_iff.1 hfound
    simp only [decide_eq_true_eq] at hr
    refine ⟨hr.1, before ++ skipped, after, (List.append_assoc ..).symm, ?_, ?_⟩
    · intro e he
      exact greatest e (by simp only [List.mem_append] at he ⊢; tauto)
    · intro e he hold
      have le : e.low ≤ r.low := greatest e (by simp [he]) hold
      have ne : e.low ≠ r.low := fun heq => List.filter_eq_nil_iff.1 hafter e he (by simp [hold, heq])
      omega

theorem notAfter_trans (r s t : GlyphRange) : r.notAfter s = true → s.notAfter t = true → r.notAfter t = true := by
  simp only [notAfter, decide_eq_true_eq]
  exact Nat.le_trans

theorem notAfter_total (r s : GlyphRange) : (r.notAfter s || s.notAfter r) = true := by
  simp only [notAfter, Bool.or_eq_true, decide_eq_true_eq]
  exact Nat.le_total _ _

theorem pairwise_mergeSort (entries : List GlyphRange) :
    (entries.mergeSort notAfter).Pairwise fun r s => r.low ≤ s.low :=
  (List.pairwise_mergeSort notAfter_trans notAfter_total entries).imp fun h => of_decide_eq_true h

/-- Sorting keeps the order of the entries that begin at one place. -/
theorem filter_mergeSort (entries : List GlyphRange) (code low : Nat) :
    beginning code low (entries.mergeSort notAfter) = beginning code low entries := by
  have same : (beginning code low entries).Pairwise fun r s => r.notAfter s = true := by
    refine List.pairwise_of_forall_mem_list fun r hr s hs => ?_
    rw [notAfter, (mem_beginning.1 hr).2.2, (mem_beginning.1 hs).2.2]
    exact decide_eq_true (Nat.le_refl low)
  have kept : (beginning code low entries).Sublist (entries.mergeSort notAfter) :=
    List.sublist_mergeSort notAfter_trans notAfter_total same List.filter_sublist
  have inside := kept.filter fun e => decide (e.Holds code ∧ e.low = low)
  rw [beginning, List.filter_filter] at inside
  simp only [Bool.and_self] at inside
  exact (inside.eq_of_length ((List.mergeSort_perm entries notAfter).filter _).length_eq.symm).symm

theorem selected_mergeSort : Selected (entries.mergeSort notAfter) code r ↔ Selected entries code r := by
  rw [selected_iff, selected_iff, filter_mergeSort]
  simp only [List.mem_mergeSort]

/-! ## Among sorted ranges -/

/-- Among sorted ranges, the one that is selected is the last one that holds the code. -/
theorem find?_sorted (sorted : entries.Pairwise fun r s => r.low ≤ s.low) :
    entries.reverse.find? (fun e => decide (e.Holds code)) = some r ↔ Selected entries code r := by
  rw [List.find?_eq_some_iff_append]
  simp only [decide_eq_true_eq, Bool.not_eq_true', decide_eq_false_iff_not]
  constructor
  · rintro ⟨hold, after, before, split, hafter⟩
    have split : entries = before.reverse ++ r :: after.reverse := by
      rw [← List.reverse_reverse entries, split]
      simp
    rw [split] at sorted
    refine ⟨hold, before.reverse, after.reverse, split, fun e he _ => ?_, fun e he h => ?_⟩
    · exact (List.pairwise_append.1 sorted).2.2 e he r (by simp)
    · exact absurd h (hafter e (List.mem_reverse.1 he))
  · rintro ⟨hold, before, after, rfl, -, hafter⟩
    refine ⟨hold, after.reverse, before.reverse, by simp, fun e he h => ?_⟩
    rw [List.mem_reverse] at he
    have lt : e.low < r.low := hafter e he h
    have le : r.low ≤ e.low := (List.pairwise_cons.1 (List.pairwise_append.1 sorted).2.1).1 e he
    omega

/-- A code that is in some range has one that is selected, and no other. -/
theorem exists_selected (h : ∃ e ∈ entries, e.Holds code) : ∃! r, Selected entries code r := by
  have found (r : GlyphRange) :
      (entries.mergeSort notAfter).reverse.find? (fun e => decide (e.Holds code)) = some r ↔ Selected entries code r :=
    (find?_sorted (pairwise_mergeSort entries)).trans selected_mergeSort
  obtain ⟨e, he, hold⟩ := h
  have isSome : ((entries.mergeSort notAfter).reverse.find? fun e => decide (e.Holds code)).isSome = true := by
    rw [List.find?_isSome]
    exact ⟨e, by simpa using he, decide_eq_true hold⟩
  obtain ⟨r, hr⟩ := Option.isSome_iff_exists.1 isSome
  refine ⟨r, (found r).1 hr, fun s hs => ?_⟩
  exact Option.some.inj (((found s).2 hs).symm.trans hr)

end GlyphRange

namespace CMap

open GlyphRange

/-! ## Halving -/

section

variable {β : Type} {xs ys back : List β} {x : β} {middle : Nat}

/-- What is found among the elements before the boundary. -/
theorem drop_before (h : middle < xs.length) (found : (xs ++ ys).drop middle = x :: back) :
    x ∈ xs ∧ back = xs.drop (middle + 1) ++ ys := by
  rw [List.drop_append_of_le_length (Nat.le_of_lt h), List.drop_eq_getElem_cons h, List.cons_append] at found
  obtain ⟨rfl, rfl⟩ := List.cons.inj found
  exact ⟨List.getElem_mem h, rfl⟩

/-- What is found among the elements behind it. -/
theorem drop_behind (h : xs.length ≤ middle) (found : (xs ++ ys).drop middle = x :: back) : x ∈ ys := by
  rw [List.drop_append, List.drop_eq_nil_of_le h, List.nil_append] at found
  exact List.mem_of_mem_drop (found ▸ List.mem_cons_self)

theorem lt_length_of_drop (found : xs.drop middle = x :: back) : middle < xs.length := by
  have := congrArg List.length found
  rw [List.length_drop, List.length_cons] at this
  omega

/-- Halving finds the end of the elements with a property if they stand before all others: it goes on behind the middle
element if that has the property, and before it if not. -/
theorem boundary_go_append {p : β → Bool} : ∀ (fuel : Nat) (xs ys : List β), (xs ++ ys).length ≤ fuel →
    (∀ x ∈ xs, p x = true) → (∀ y ∈ ys, p y = false) → boundary.go p fuel (xs ++ ys) = xs.length
  | 0, xs, ys, hl, _, _ => by
    rw [List.length_append] at hl
    rw [boundary.go]
    omega
  | fuel + 1, xs, ys, hl, hx, hy => by
    rw [boundary.go]
    split
    case h_1 nothing =>
      have := List.drop_eq_nil_iff.1 nothing
      rw [List.length_append] at this
      omega
    case h_2 x back found =>
      have total : (xs ++ ys).length = xs.length + ys.length := List.length_append
      have inside := lt_length_of_drop found
      by_cases h : (xs ++ ys).length / 2 < xs.length
      · obtain ⟨hmem, rfl⟩ := drop_before h found
        have rest : (xs.drop ((xs ++ ys).length / 2 + 1) ++ ys).length ≤ fuel := by
          rw [List.length_append, List.length_drop]
          omega
        rw [if_pos (hx x hmem), boundary_go_append fuel _ _ rest (fun x h => hx x (List.mem_of_mem_drop h)) hy,
          List.length_drop]
        omega
      · have behind : xs.length ≤ (xs ++ ys).length / 2 := Nat.le_of_not_lt h
        have rest : (xs ++ ys.take ((xs ++ ys).length / 2 - xs.length)).length ≤ fuel := by
          rw [List.length_append, List.length_take]
          omega
        rw [hy x (drop_behind behind found), if_neg Bool.false_ne_true, List.take_append, List.take_of_length_le behind]
        exact boundary_go_append fuel _ _ rest hx fun y h => hy y (List.mem_of_mem_take h)

theorem boundary_append {p : β → Bool} (hx : ∀ x ∈ xs, p x = true) (hy : ∀ y ∈ ys, p y = false) :
    boundary p (xs ++ ys) = xs.length :=
  boundary_go_append _ xs ys (Nat.le_refl _) hx hy

end

/-- Sorted ranges are those that begin at a code or before it, followed by the others. -/
theorem sorted_split (code : Nat) : ∀ (ranges : List GlyphRange), ranges.Pairwise (fun r s => r.low ≤ s.low) →
    ∃ begun late, ranges = begun ++ late ∧ (∀ r ∈ begun, r.low ≤ code) ∧ ∀ r ∈ late, code < r.low
  | [], _ => ⟨[], [], rfl, by simp, by simp⟩
  | r :: ranges, sorted => by
    obtain ⟨hr, rest⟩ := List.pairwise_cons.1 sorted
    by_cases h : r.low ≤ code
    · obtain ⟨begun, late, rfl, hbegun, hlate⟩ := sorted_split code ranges rest
      exact ⟨r :: begun, late, rfl, List.forall_mem_cons.2 ⟨h, hbegun⟩, hlate⟩
    · have first : code < r.low := Nat.lt_of_not_le h
      exact ⟨[], r :: ranges, rfl, by simp, List.forall_mem_cons.2 ⟨first, fun s hs => Nat.lt_of_lt_of_le first (hr s hs)⟩⟩

/-- Leaving out what begins after the code does not change what is found. -/
theorem glyph_sorted {m : CMap} (sorted : m.ranges.Pairwise fun r s => r.low ≤ s.low) (code : Nat) :
    (∀ r, Selected m.ranges code r → m.glyph code = Word.add32 r.glyph (code - r.low)) ∧
      ((∀ e ∈ m.ranges, ¬e.Holds code) → m.glyph code = .ok (if m.identity then code else 0)) := by
  obtain ⟨begun, late, split, hbegun, hlate⟩ := sorted_split code m.ranges sorted
  have count : boundary (fun r => decide (r.low ≤ code)) m.ranges = begun.length := by
    rw [split]
    exact boundary_append (fun r hr => decide_eq_true (hbegun r hr))
      fun r hr => decide_eq_false (Nat.not_le.2 (hlate r hr))
  have taken : m.ranges.take begun.length = begun := by rw [split, List.take_left]
  have test (r : GlyphRange) : (r.low ≤ code && code ≤ r.high : Bool) = decide (r.Holds code) :=
    (Bool.decide_and ..).symm
  have skipped : late.reverse.find? (fun e => decide (e.Holds code)) = none := by
    rw [List.find?_eq_none]
    intro r hr hold
    exact Nat.not_le.2 (hlate r (List.mem_reverse.1 hr)) (of_decide_eq_true hold).1
  have found : begun.reverse.find? (fun e => decide (e.Holds code)) =
      m.ranges.reverse.find? fun e => decide (e.Holds code) := by
    rw [split, List.reverse_append, List.find?_append, skipped, Option.none_or]
  simp only [glyph, test, count, taken, found]
  constructor
  · intro r hr
    rw [(find?_sorted sorted).2 hr]
  · intro unheld
    have absent : m.ranges.reverse.find? (fun e => decide (e.Holds code)) = none := by
      rw [List.find?_eq_none]
      intro e he hold
      exact unheld e (List.mem_reverse.1 he) (of_decide_eq_true hold)
    rw [absent]

/-! ## The entries of a program -/

/-- The commands among the items of content, each with the operands that stand before it; some are waiting already, the
last one first. -/
def gather (waiting : List Object) : List Content.Token → List (Bytes × List Object)
  | [] => []
  | .operand o :: items => gather (o :: waiting) items
  | .command c :: items => (c, waiting.reverse) :: gather [] items

theorem commands_eq (data : Bytes) : commands data = gather [] ((Content.tokens data).map Prod.fst) := by
  unfold commands
  generalize Content.tokens data = items
  suffices ∀ waiting, commands.go waiting items = gather waiting (items.map Prod.fst) from this []
  induction items with
  | nil => exact fun _ => rfl
  | cons item items ih =>
    obtain ⟨t, rest⟩ := item
    cases t with
    | operand o => exact fun waiting => ih (o :: waiting)
    | command c => exact fun waiting => congrArg ((c, waiting.reverse) :: ·) (ih [])

def listedGlyphs : Bytes × List Object → List GlyphRange
  | (command, operands) =>
    if command == Bytes.ofText "endcidchar" then (Bytes.pairs operands).filterMap glyphChar?
    else if command == Bytes.ofText "endcidrange" then (Bytes.triples operands).filterMap glyphRange?
    else []

def glyphEntries (data : Bytes) : List GlyphRange := (commands data).flatMap listedGlyphs

def UsesIdentity : Bytes × List Object → Prop
  | (command, operands) => command = Bytes.ofText "usecmap" ∧
    (operands.getLast? = some (.name "Identity-H") ∨ operands.getLast? = some (.name "Identity-V"))

def IdentityFirst (cs : List (Bytes × List Object)) : Prop :=
  ∃ before c after, cs = before ++ c :: after ∧ UsesIdentity c ∧ before.flatMap listedGlyphs = [] ∧
    ∀ d ∈ after, ¬UsesIdentity d

theorem apply_ranges (m : CMap) (c : Bytes × List Object) : (m.apply c).ranges = m.ranges ++ listedGlyphs c := by
  obtain ⟨command, operands⟩ := c
  unfold apply
  dsimp only
  split
  case isTrue h =>
    rw [eq_of_beq h]
    exact (List.append_nil _).symm
  split
  case isTrue h => rw [listedGlyphs, if_pos h]
  split
  case isFalse.isTrue char h => rw [listedGlyphs, if_neg char, if_pos h]
  case isFalse.isFalse char range =>
    have nothing : listedGlyphs (command, operands) = [] := by rw [listedGlyphs, if_neg char, if_neg range]
    rw [nothing, List.append_nil]
    split
    · split <;> (try split) <;> rfl
    · split
      · split <;> rfl
      · rfl

theorem predefined?_isSome (n : Name) :
    (predefined? n).isSome = true ↔ n = Name.ofText "Identity-H" ∨ n = Name.ofText "Identity-V" := by
  unfold predefined?
  by_cases hh : n = Name.ofText "Identity-H"
  · simp [hh]
  · by_cases hv : n = Name.ofText "Identity-V"
    · have apart : Name.ofText "Identity-V" ≠ Name.ofText "Identity-H" := fun h => hh (hv.trans h)
      simp [hv, apart]
    · simp [hh, hv]

theorem usesIdentity_iff (command : Bytes) (operands : List Object) : UsesIdentity (command, operands) ↔
    command = Bytes.ofText "usecmap" ∧ ((operands.getLast?.bind Object.name?).bind predefined?).isSome = true := by
  unfold UsesIdentity
  refine and_congr_right fun _ => ?_
  cases operands.getLast? with
  | none => simp
  | some o => cases o <;> simp [Object.name?, predefined?_isSome]

/-- Using an identity counts if there are no ranges yet. -/
theorem apply_identity (m : CMap) (c : Bytes × List Object) :
    (UsesIdentity c → (m.apply c).identity = m.ranges.isEmpty) ∧ (¬UsesIdentity c → (m.apply c).identity = m.identity) := by
  obtain ⟨command, operands⟩ := c
  rw [usesIdentity_iff]
  by_cases h : command = Bytes.ofText "usecmap"
  · subst h
    have step : (m.apply (Bytes.ofText "usecmap", operands)).identity =
        ((operands.getLast?.bind Object.name?).bind predefined?).elim m.identity fun _ => m.ranges.isEmpty := by
      unfold apply
      dsimp only
      iterate 4 rw [if_neg (by decide)]
      rw [if_pos (by decide)]
      cases (operands.getLast?.bind Object.name?).bind predefined? <;> rfl
    rw [step]
    cases (operands.getLast?.bind Object.name?).bind predefined? <;> simp
  · refine ⟨fun hu => absurd hu.1 h, fun _ => ?_⟩
    unfold apply
    dsimp only
    split
    · rfl
    split
    · rfl
    split
    · rfl
    split
    · split <;> (try split) <;> rfl
    · rw [if_neg fun hb => h (eq_of_beq hb)]

theorem identityFirst_concat (cs : List (Bytes × List Object)) (c : Bytes × List Object) : IdentityFirst (cs ++ [c]) ↔
    UsesIdentity c ∧ cs.flatMap listedGlyphs = [] ∨ ¬UsesIdentity c ∧ IdentityFirst cs := by
  constructor
  · rintro ⟨before, u, after, split, hu, hbefore, hafter⟩
    rcases List.eq_nil_or_concat after with rfl | ⟨after, d, rfl⟩
    · obtain ⟨rfl, hc⟩ := List.append_inj' split rfl
      cases hc
      exact .inl ⟨hu, hbefore⟩
    · rw [List.concat_eq_append, ← List.cons_append, ← List.append_assoc] at split
      obtain ⟨rfl, hc⟩ := List.append_inj' split rfl
      cases hc
      exact .inr ⟨hafter c (by simp), before, u, after, rfl, hu, hbefore, fun d hd => hafter d (by simp [hd])⟩
  · rintro (⟨hc, hnil⟩ | ⟨hc, before, u, after, rfl, hu, hbefore, hafter⟩)
    · exact ⟨cs, c, [], rfl, hc, hnil, by simp⟩
    · refine ⟨before, u, after ++ [c], by simp, hu, hbefore, fun d hd => ?_⟩
      rcases List.mem_append.1 hd with hd | hd
      · exact hafter d hd
      · exact List.mem_singleton.1 hd ▸ hc

theorem foldl_apply_ranges (cs : List (Bytes × List Object)) (m : CMap) :
    (cs.foldl apply m).ranges = m.ranges ++ cs.flatMap listedGlyphs := by
  induction cs generalizing m with
  | nil => simp
  | cons c cs ih => rw [List.foldl_cons, ih, apply_ranges, List.flatMap_cons, List.append_assoc]

theorem foldl_apply_identity (cs : List (Bytes × List Object)) :
    (cs.foldl apply ⟨[], [], false, false⟩).identity = true ↔ IdentityFirst cs := by
  induction cs using List.reverseRecOn with
  | nil =>
    refine ⟨nofun, ?_⟩
    rintro ⟨before, c, after, split, -⟩
    cases before <;> cases split
  | append_singleton cs c ih =>
    rw [List.foldl_append, List.foldl_cons, List.foldl_nil, identityFirst_concat]
    have step := apply_identity (cs.foldl apply ⟨[], [], false, false⟩) c
    by_cases h : UsesIdentity c
    · rw [step.1 h, foldl_apply_ranges]
      simp [h]
    · rw [step.2 h, ih]
      simp [h]

theorem parse_ranges (data : Bytes) : (parse data).ranges = (glyphEntries data).mergeSort notAfter := by
  have ranges := foldl_apply_ranges (commands data) ⟨[], [], false, false⟩
  exact congrArg (List.mergeSort · notAfter) ranges

/-- **Looking a code up by halving is a plain search among the entries of the program.**  For every program and every
code, of the entries that hold the code those with the greatest lower bound count, and of these the last one: it gives
the number of its glyph and how far the code is behind its lower bound, if their sum has 32 bits.  A code that is in no
entry is its own glyph if an identity is used before all entries, and else glyph 0. -/
theorem glyph_of_entries (data : Bytes) (code : Nat) :
    (∀ r, Selected (glyphEntries data) code r → r.glyph + (code - r.low) < UInt32.size →
      (parse data).glyph code = .ok (r.glyph + (code - r.low))) ∧
    ((∃ e ∈ glyphEntries data, e.Holds code) → ∃! r, Selected (glyphEntries data) code r) ∧
    ((∀ e ∈ glyphEntries data, ¬e.Holds code) →
      (parse data).glyph code = .ok (if (parse data).identity then code else 0)) ∧
    ((parse data).identity = true ↔ IdentityFirst (commands data)) := by
  have sorted : (parse data).ranges.Pairwise fun r s => r.low ≤ s.low :=
    parse_ranges data ▸ pairwise_mergeSort (glyphEntries data)
  have found := glyph_sorted sorted code
  rw [parse_ranges] at found
  refine ⟨fun r hr fits => ?_, exists_selected, fun unheld => ?_, foldl_apply_identity (commands data)⟩
  · exact (found.1 r (selected_mergeSort.2 hr)).trans (Word.fit_eq_ok_iff.2 ⟨fits, rfl⟩)
  · exact found.2 fun e he => unheld e (List.mem_mergeSort.1 he)

/-- Two ranges, of which one lies within the other, and a code at the lower bound of the inner one. -/
def nestedRanges : Bytes :=
  Bytes.ofText "2 begincidrange <00> <FF> 100 <10> <30> 500 endcidrange 1 begincidchar <10> 7 endcidchar"

theorem glyphEntries_nestedRanges :
    glyphEntries nestedRanges = [⟨0x00, 0xff, 100⟩, ⟨0x10, 0x30, 500⟩, ⟨0x10, 0x10, 7⟩] := by
  have items : Content.itemsIn? 20 nestedRanges = some
      [.operand (.num (.int 2)), .command (Bytes.ofText "begincidrange"), .operand (.str [0x00]), .operand (.str [0xff]),
        .operand (.num (.int 100)), .operand (.str [0x10]), .operand (.str [0x30]), .operand (.num (.int 500)),
        .command (Bytes.ofText "endcidrange"), .operand (.num (.int 1)), .command (Bytes.ofText "begincidchar"),
        .operand (.str [0x10]), .operand (.num (.int 7)), .command (Bytes.ofText "endcidchar")] := by
    rw [show nestedRanges = _ from Bytes.ofText_ofList _]
    rfl
  rw [glyphEntries, commands_eq, Content.items_of_steps items]
  rfl

/-- The code 18 is in both ranges; the inner one begins last and gives glyph 508. -/
theorem inner_range_counts : Selected (glyphEntries nestedRanges) 0x18 ⟨0x10, 0x30, 500⟩ ∧
    500 + (0x18 - 0x10) < UInt32.size ∧ (parse nestedRanges).glyph 0x18 = .ok 508 := by
  have selected : Selected (glyphEntries nestedRanges) 0x18 ⟨0x10, 0x30, 500⟩ := by
    rw [glyphEntries_nestedRanges]
    refine ⟨by decide, [⟨0x00, 0xff, 100⟩], [⟨0x10, 0x10, 7⟩], rfl, by decide, by decide⟩
  exact ⟨selected, by decide, (glyph_of_entries nestedRanges 0x18).1 _ selected (by decide)⟩

end CMap
end PdfContent
