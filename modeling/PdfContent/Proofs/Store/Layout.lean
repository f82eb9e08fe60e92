import PdfContent.Proofs.Store.Scan
import PdfContent.Proofs.Syntax.Printing
/-!
# Layout — how a file is written, and what is read at its markers

A file is a row of definitions and a trailer (`IsFile`).  Nothing but its definitions may contain the word `obj`, so its
markers are those of its definitions, one for each (`Definitions.markers`), and what stands after a marker is read as the
object that was written there (`Body.definition?`).
-/
namespace PdfContent

open Reading

/-- The spelling of the object ends with a delimiter, so what follows needs no filler. -/
def Object.IsClosed : Object → Prop
  | .array _ | .dict _ | .str _ => True
  | _ => False

namespace Store

/-! ## Rules -/

/-- Nothing, or a filler. -/
def Gap (g : Bytes) : Prop := g = [] ∨ Filler g

def endWord : Bytes := Bytes.ofText "endobj"

def lineEnds : List Bytes := [[0x0a], [0x0d, 0x0a]]

/-- What stands between the words of a definition: an object, or a stream with its length. -/
inductive Body : Object → Bytes → Prop where
  | spaced {o w g} (ho : Printable 0 o) (hw : Spells o w) (hg : Filler g) : Body o (w ++ g)
  | closed {o w} (ho : Printable 0 o) (hw : Spells o w) (hc : o.IsClosed) : Body o w
  | stream {d data w g eol eol' g'} (hd : Printable 0 (.dict d)) (hw : Spells (.dict d) w) (hg : Gap g)
      (hl : d.get? "Length" = some (.num (.int data.length))) (he : eol ∈ lineEnds)
      (he' : eol' ∈ [0x0d] :: lineEnds) (hg' : Gap g') :
      Body (.stream ⟨d, data⟩) (w ++ (g ++ (streamWord ++ (eol ++ (data ++ (eol' ++ (endStreamWord ++ g')))))))

inductive Definition : ObjRef → Object → Bytes → Prop where
  | mk {r o nd b₁ gd b₂ g body} (hn : Digits r.num nd) (h₁ : Blanks b₁) (hg : Digits r.gen gd) (h₂ : Blanks b₂)
      (hr : r.num < UInt32.size ∧ r.gen < UInt16.size) (hgap : Gap g) (hb : Body o body)
      (he : Ended (g ++ (body ++ endWord))) :
      Definition r o (nd ++ (b₁ ++ (gd ++ b₂)) ++ (markerWord ++ (g ++ (body ++ endWord))))

inductive Definitions : List (ObjRef × Object) → Bytes → Prop where
  | nil : Definitions [] []
  | cons {r o es s g s'} : Definition r o s → Filler g → Definitions es s' → Definitions ((r, o) :: es) (s ++ (g ++ s'))

/-- A file: definitions and a trailer, without any other `obj` or `trailer` anywhere in it. -/
inductive IsFile (es : List (ObjRef × Object)) (d : Dict) : Bytes → Prop where
  | mk {head defs g w tail} (hh : Gap head) (hd : Definitions es defs) (hg : Gap g) (hp : Printable 0 (.dict d))
      (hw : Spells (.dict d) w)
      (ho : occurrences markerWord (head ++ (defs ++ (trailerWord ++ (g ++ (w ++ tail))))) ≤ 2 * es.length)
      (ht : occurrences trailerWord (head ++ (defs ++ (trailerWord ++ (g ++ (w ++ tail))))) ≤ 1) :
      IsFile es d (head ++ (defs ++ (trailerWord ++ (g ++ (w ++ tail)))))

/-! ## Gaps -/

namespace Gap

variable {g : Bytes}

theorem next? (h : Gap g) (s : Bytes) : Token.next? (g ++ s) = Token.next? s := by
  rcases h with rfl | h
  · rfl
  · exact h.next? s

theorem object? (h : Gap g) (s : Bytes) : Reading.object? (g ++ s) = Reading.object? s := by
  unfold Reading.object?
  rw [h.next? s]

end Gap

/-! ## Words after an object -/

/-- A word that is no number and not the end of a reference. -/
structure IsWord (w : Bytes) : Prop where
  regular : ∀ b ∈ w, Byte.isRegular b = true
  start : ∃ b r, w = b :: r ∧ Token.startsNumber b = false

theorem IsWord.next? {w c : Bytes} (h : IsWord w) (hc : Ended c) : Token.next? (w ++ c) = some (.keyword w, c) := by
  obtain ⟨b, r, rfl, hb⟩ := h.start
  exact (Written.keyword h.regular hb).next? trivial hc

theorem endWord_isWord : IsWord endWord := ⟨List.all_eq_true.mp (by decide), _, _, rfl, by decide⟩

theorem streamWord_isWord : IsWord streamWord := ⟨List.all_eq_true.mp (by decide), _, _, rfl, by decide⟩

/-- A word other than the one of references ends the object before it. -/
theorem IsWord.endsAt {w c g : Bytes} {o : Object} (h : IsWord w) (hw : w ≠ referenceWord) (hc : Ended c) (hg : Gap g)
    (ho : Filler g ∨ o.IsClosed) : o.EndsAt (g ++ (w ++ c)) := by
  have harmless : Harmless (g ++ (w ++ c)) := by
    unfold Harmless
    rw [hg.next?, h.next? hc]
    exact hw
  rcases ho with ho | ho
  · cases o with
    | array | dict => trivial
    | str => exact harmless
    | _ => exact ⟨ho.ended _, harmless⟩
  · cases o with
    | array | dict => trivial
    | str => exact harmless
    | _ => exact ho.elim

/-! ## Definitions -/

theorem dropEol_append {eol : Bytes} (h : eol ∈ lineEnds) (s : Bytes) : dropEol (eol ++ s) = s := by
  rcases List.mem_cons.mp h with rfl | h
  · rfl
  · rcases List.mem_singleton.mp h with rfl
    rfl

/-- **Data are cut off by their length**, whatever they contain. -/
theorem streamData?_of_length {d : Dict} {data eol c : Bytes} (hl : d.get? "Length" = some (.num (.int data.length)))
    (he : ∀ b ∈ eol, Byte.isBlank b = true) :
    streamData? d (data ++ (eol ++ (endStreamWord ++ c))) = some data := by
  have blanks : (eol ++ (endStreamWord ++ c)).dropWhile Byte.isBlank = endStreamWord ++ c := by
    have word : endStreamWord = 0x65 :: endStreamWord.tail := by decide
    refine (takeWhile_append he ?_).2
    rw [word]
    rintro _ ⟨⟩
    decide
  have follows : endStreamWord.isPrefixOf (endStreamWord ++ c) = true :=
    List.isPrefixOf_iff_prefix.mpr (List.prefix_append _ _)
  unfold streamData?
  simp [hl, Number.toInt, blanks, follows]

theorem definition?_of_word {s rest rest' w : Bytes} {o : Object} (h : Reading.object? s = some (o, rest))
    (hn : Token.next? rest = some (.keyword w, rest')) (hw : w ≠ streamWord) : definition? s = some o := by
  have other : (w == streamWord) = false := beq_false_of_ne hw
  unfold definition?
  rw [h]
  cases o with
  | dict d => simp [hn, other]
  | _ => rfl

theorem definition?_of_stream {s rest rest' data : Bytes} {d : Dict} (h : Reading.object? s = some (.dict d, rest))
    (hn : Token.next? rest = some (.keyword streamWord, rest')) (hd : streamData? d (dropEol rest') = some data) :
    definition? s = some (.stream ⟨d, data⟩) := by
  unfold definition?
  simp [h, hn, hd]

/-- **What was written after a marker is read there.** -/
theorem Body.definition? {o : Object} {body g c : Bytes} (h : Body o body) (hg : Gap g) (hc : Ended c) :
    definition? (g ++ (body ++ (endWord ++ c))) = some o := by
  have other : endWord ≠ referenceWord := by decide
  have noStream : endWord ≠ streamWord := by decide
  cases h with
  | @spaced _ w g' ho hw hg' =>
    have gap : Gap g' := .inr hg'
    have read := object?_append ho hw (endWord_isWord.endsAt other hc gap (.inl hg'))
    have next : Token.next? (g' ++ (endWord ++ c)) = some (.keyword endWord, c) := by
      rw [gap.next?, endWord_isWord.next? hc]
    rw [List.append_assoc]
    exact definition?_of_word ((hg.object? _).trans read) next noStream
  | closed ho hw hclosed =>
    have read := object?_append ho hw (endWord_isWord.endsAt other hc (.inl rfl) (.inr hclosed))
    exact definition?_of_word ((hg.object? _).trans read) (endWord_isWord.next? hc) noStream
  | @stream d data w g' eol eol' g'' hd hw hg' hl he he' _ =>
    have ended (s : Bytes) : Ended (eol ++ s) := by
      rcases List.mem_cons.mp he with rfl | he
      · rintro _ ⟨⟩
        decide
      · rcases List.mem_singleton.mp he with rfl
        rintro _ ⟨⟩
        decide
    have blank : ∀ b ∈ eol', Byte.isBlank b = true := by
      have all : ([0x0d] :: lineEnds).all fun eol => eol.all Byte.isBlank := by decide
      exact List.all_eq_true.mp (List.all_eq_true.mp all eol' he')
    simp only [List.append_assoc]
    have read := object?_append (c := g' ++ (streamWord ++ (eol ++ (data ++ (eol' ++ (endStreamWord ++
      (g'' ++ (endWord ++ c)))))))) hd hw trivial
    have next := (hg'.next? _).trans (streamWord_isWord.next? (ended (data ++ (eol' ++ (endStreamWord ++
      (g'' ++ (endWord ++ c)))))))
    refine definition?_of_stream ((hg.object? _).trans read) next ?_
    rw [dropEol_append he]
    exact streamData?_of_length hl blank

/-! ## The markers of a file -/

theorem endWord_eq : endWord = Bytes.ofText "end" ++ markerWord := by decide

/-- A definition has two parts: its marker gives the identifier, and what follows gives the object. -/
theorem Definition.parts {r : ObjRef} {o : Object} {s : Bytes} (h : Definition r o s) :
    ∃ front inside, s = front ++ (markerWord ++ (inside ++ endWord)) ∧
      (∀ before, Ended before → markerRef? (front.reverse ++ before) = some r) ∧
      ∀ c, Ended c → Ended (inside ++ (endWord ++ c)) ∧ Store.definition? (inside ++ (endWord ++ c)) = some o := by
  cases h with
  | @mk nd b₁ gd b₂ g body hn h₁ hg h₂ hr hgap hb he =>
    refine ⟨nd ++ (b₁ ++ (gd ++ b₂)), g ++ body, by rw [List.append_assoc g],
      fun before => markerRef?_marker hn h₁ hg h₂.blank hr, fun c hc => ⟨?_, ?_⟩⟩
    · -- the part is not empty, so what follows it does not count
      have word : endWord = 0x65 :: endWord.tail := by decide
      intro b hb
      refine he b ?_
      rw [word] at hb ⊢
      cases g <;> cases body <;> exact hb
    · rw [List.append_assoc]
      exact hb.definition? hgap hc

namespace Definitions

variable {es : List (ObjRef × Object)} {defs : Bytes}

/-- Every definition has the word twice, once in the word at its end. -/
theorem le_occurrences (h : Definitions es defs) (c : Bytes) :
    2 * es.length + occurrences markerWord c ≤ occurrences markerWord (defs ++ c) := by
  induction h with
  | nil => simp
  | @cons r o es s g s' hs _ _ ih =>
    obtain ⟨front, inside, rfl, -⟩ := hs.parts
    rw [endWord_eq]
    simp only [List.append_assoc, List.length_cons]
    have front_le := le_occurrences_append markerWord front
      (markerWord ++ (inside ++ (Bytes.ofText "end" ++ (markerWord ++ (g ++ (s' ++ c))))))
    have inside_le := le_occurrences_append markerWord (inside ++ Bytes.ofText "end")
      (markerWord ++ (g ++ (s' ++ c)))
    have filler_le := le_occurrences_append markerWord g (s' ++ c)
    rw [List.append_assoc] at inside_le
    rw [occurrences_marker] at front_le inside_le
    omega

/-- **The markers of a file are those of its definitions**, and each leads to the object that was written there. -/
theorem markers (h : Definitions es defs) {c : Bytes} :
    ∀ {before}, Ended before → occurrences markerWord (defs ++ c) ≤ 2 * es.length →
      (markersFrom before (defs ++ c)).map (fun m => (m.1, Store.definition? m.2)) =
        es.map fun e => (e.1, some e.2) := by
  induction h with
  | nil =>
    intro before _ ho
    have none : occurrences markerWord c = 0 := Nat.le_zero.mp ho
    rw [List.nil_append, markersFrom_nil before none]
    rfl
  | @cons r o es s g s' hs hg hes ih =>
    intro before hb ho
    obtain ⟨front, inside, rfl, href, hdef⟩ := hs.parts
    rw [List.length_cons] at ho
    simp only [List.append_assoc] at ho ⊢
    -- the count leaves no room for the word but in the two places of each definition
    have rest_le := hes.le_occurrences c
    have filler_le := le_occurrences_append markerWord g (s' ++ c)
    have inside_le := le_occurrences_append markerWord (inside ++ Bytes.ofText "end") (markerWord ++ (g ++ (s' ++ c)))
    have front_le := le_occurrences_append markerWord front
      (markerWord ++ (inside ++ (endWord ++ (g ++ (s' ++ c)))))
    have last := occurrences_marker (g ++ (s' ++ c))
    have first := occurrences_marker (inside ++ (endWord ++ (g ++ (s' ++ c))))
    have whole : inside ++ (endWord ++ (g ++ (s' ++ c))) =
        (inside ++ Bytes.ofText "end") ++ (markerWord ++ (g ++ (s' ++ c))) := by
      rw [endWord_eq]
      simp only [List.append_assoc]
    rw [← whole] at inside_le
    obtain ⟨ended, read⟩ := hdef (g ++ (s' ++ c)) (hg.ended _)
    have noRef (before : Bytes) : markerRef? ((inside ++ Bytes.ofText "end").reverse ++ before) = none := by
      rw [List.reverse_append, List.append_assoc]
      exact markerRef?_end _
    rw [markersFrom_skip before (by omega), markersFrom_word _ ended, href before hb]
    rw [whole, markersFrom_skip _ (by rw [← whole]; omega), markersFrom_word _ (hg.ended _), noRef,
      markersFrom_skip _ (by omega), ← whole]
    have others := ih (hg.ended_reverse (markerWord.reverse ++ ((inside ++ Bytes.ofText "end").reverse ++
      (markerWord.reverse ++ (front.reverse ++ before))))) (by omega)
    simp only [Option.map_some, Option.map_none, Option.toList_some, Option.toList_none, List.nil_append,
      List.singleton_append, List.map_cons, read, others]

end Definitions

end Store

end PdfContent
