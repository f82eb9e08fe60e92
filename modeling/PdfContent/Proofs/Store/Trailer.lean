import Mathlib.Data.List.Nodup
import Mathlib.Data.Nat.Find
import PdfContent.Proofs.Store.Load
import PdfContent.Proofs.Store.Markers
/-!
# Trailer — which dictionary of a file is its trailer

Two scans find dictionaries that may be the trailer of a file: one those after the word `trailer`, the other those of
cross-reference streams.  A dictionary is the later, the less of the file follows its word (`Last`).  The dictionaries of
the first scan come before all those of the second, so the last section with a root is taken, and the last dictionary
with a root only if no cross-reference stream with a root follows that section (`load_trailer`).
-/
namespace PdfContent.Store

/-! ## Where a dictionary stands -/

def dictAt? (s : Bytes) : Option Dict := (Reading.object? s).bind fun p => p.1.dict?

/-- The dictionary that is read after the word `trailer`, with `rest` after the word. -/
def TrailerSection (file rest : Bytes) (d : Dict) : Prop := trailerWord ++ rest <:+ file ∧ dictAt? rest = some d

def define (st : Store) (m : ObjRef × Bytes) : Store :=
  match definition? m.2 with
  | some o => st.insert m.1 o
  | none => st

def definedBefore (file rest : Bytes) : Store :=
  ((markers file).filter fun m => rest.length < m.2.length).foldl define empty

def xrefDict? (st : Store) (s : Bytes) : Option Dict :=
  match definition? s with
  | some (.stream x) => if st.lookup? x.dict "Type" = some (Name.ofText "XRef") then some x.dict else none
  | _ => none

/-- The dictionary of a cross-reference stream, with `rest` after its marker.  Its type is that which the objects in front
of it give. -/
def XRefStream (file rest : Bytes) (d : Dict) : Prop :=
  (∃ r, Marker file r rest) ∧ xrefDict? (definedBefore file rest) rest = some d

def Candidate (file rest : Bytes) (d : Dict) : Prop := TrailerSection file rest d ∨ XRefStream file rest d

/-- The dictionary with a root that stands last among those of a kind. -/
structure Last (kind : Bytes → Dict → Prop) (rest : Bytes) (d : Dict) : Prop where
  found : kind rest d
  root : d.contains "Root" = true
  least : ∀ rest' d', kind rest' d' → d'.contains "Root" = true → rest.length ≤ rest'.length

/-! ## The two scans -/

/-- The dictionaries after the word `trailer`, each with what follows the word, the last one first. -/
def sections : Bytes → List (Bytes × Dict)
  | [] => []
  | b :: r => sections r ++
    (if trailerWord.isPrefixOf (b :: r) then (dictAt? (r.drop 6)).map fun d => (r.drop 6, d) else none).toList

def xrefStreams (st : Store) : List (ObjRef × Bytes) → List (Bytes × Dict)
  | [] => []
  | m :: ms => xrefStreams (st.define m) ms ++ ((xrefDict? st m.2).map fun d => (m.2, d)).toList

theorem trailerDicts_eq (found : List Dict) (s : Bytes) :
    trailerDicts found s = (sections s).map Prod.snd ++ found := by
  induction s generalizing found with
  | nil => rfl
  | cons b r ih =>
    rw [trailerDicts, sections, dictAt?]
    split
    · cases Reading.object? (r.drop 6) with
      | none => simp [ih]
      | some p =>
        obtain ⟨o, tail⟩ := p
        cases o <;> simp [ih, Object.dict?]
    · simp [ih]

theorem addDefinitions_scan (st : Store) (found : List Dict) (ms : List (ObjRef × Bytes)) :
    addDefinitions st found ms = (ms.foldl define st, (xrefStreams st ms).map Prod.snd ++ found) := by
  induction ms generalizing st found with
  | nil => rfl
  | cons m ms ih =>
    obtain ⟨r, s⟩ := m
    rw [addDefinitions, xrefStreams, List.foldl_cons, define, xrefDict?]
    cases definition? s with
    | none => simp [ih]
    | some o =>
      cases o with
      | stream x =>
        by_cases h : st.lookup? x.dict "Type" = some (Name.ofText "XRef") <;> simp [ih, h]
      | _ => simp [ih]

/-! ## What they find -/

theorem mem_sections {s rest : Bytes} {d : Dict} : (rest, d) ∈ sections s ↔ TrailerSection s rest d := by
  induction s with
  | nil => simp [sections, TrailerSection, show trailerWord ≠ [] by decide]
  | cons b r ih =>
    rw [sections, List.mem_append, ih, TrailerSection, TrailerSection, List.suffix_cons_iff, or_and_right, or_comm]
    refine or_congr ⟨fun h => ?_, fun ⟨h, hd⟩ => ?_⟩ Iff.rfl
    · split at h
      · rename_i word
        obtain ⟨t, ht⟩ := List.isPrefixOf_iff_prefix.mp word
        have drop : r.drop 6 = t := drop_word ht rfl
        simp only [drop, Option.mem_toList, Option.map_eq_some_iff, Prod.mk.injEq] at h
        obtain ⟨_, hd, rfl, rfl⟩ := h
        exact ⟨ht, hd⟩
      · cases h
    · have word : trailerWord.isPrefixOf (b :: r) = true := List.isPrefixOf_iff_prefix.mpr ⟨rest, h⟩
      have drop : r.drop 6 = rest := drop_word h rfl
      simp [word, drop, hd]

theorem pairwise_toList {α : Type} {R : α → α → Prop} (o : Option α) : o.toList.Pairwise R := by
  cases o with
  | none => exact .nil
  | some a => exact List.pairwise_singleton R a

theorem sections_sorted (s : Bytes) : (sections s).Pairwise fun p q => p.1.length < q.1.length := by
  induction s with
  | nil => exact .nil
  | cons b r ih =>
    refine List.pairwise_append.mpr ⟨ih, pairwise_toList _, fun p hp q hq => ?_⟩
    have behind : 7 + p.1.length ≤ r.length := by
      have le := (mem_sections.mp hp).1.length_le
      rwa [List.length_append] at le
    have here : q.1 = r.drop 6 := by
      split at hq
      · obtain ⟨d, -, rfl⟩ := Option.map_eq_some_iff.mp (Option.mem_toList.mp hq)
        rfl
      · cases hq
    rw [here, List.length_drop]
    omega

theorem mem_xrefStreams {st : Store} {ms : List (ObjRef × Bytes)} {rest : Bytes} {d : Dict} :
    (rest, d) ∈ xrefStreams st ms ↔
      ∃ earlier r later, ms = earlier ++ (r, rest) :: later ∧ xrefDict? (earlier.foldl define st) rest = some d := by
  induction ms generalizing st with
  | nil => simp [xrefStreams]
  | cons m ms ih =>
    rw [xrefStreams, List.mem_append, ih]
    constructor
    · rintro (⟨earlier, r, later, rfl, hd⟩ | h)
      · exact ⟨m :: earlier, r, later, rfl, hd⟩
      · obtain ⟨d', hd, he⟩ := Option.map_eq_some_iff.mp (Option.mem_toList.mp h)
        cases he
        exact ⟨[], m.1, ms, rfl, hd⟩
    · rintro ⟨earlier, r, later, hm, hd⟩
      cases earlier with
      | nil =>
        obtain ⟨rfl, rfl⟩ := List.cons.inj hm
        exact .inr (Option.mem_toList.mpr (Option.map_eq_some_iff.mpr ⟨d, hd, rfl⟩))
      | cons m' earlier =>
        obtain ⟨rfl, rfl⟩ := List.cons.inj hm
        exact .inl ⟨earlier, r, later, rfl, hd⟩

theorem xrefStreams_sorted (st : Store) {ms : List (ObjRef × Bytes)}
    (sorted : ms.Pairwise fun m n => n.2.length < m.2.length) :
    (xrefStreams st ms).Pairwise fun p q => p.1.length < q.1.length := by
  induction ms generalizing st with
  | nil => exact .nil
  | cons m ms ih =>
    obtain ⟨later, sorted⟩ := List.pairwise_cons.mp sorted
    refine List.pairwise_append.mpr ⟨ih _ sorted, pairwise_toList _, fun p hp q hq => ?_⟩
    obtain ⟨earlier, r, rest, hm, -⟩ := mem_xrefStreams.mp hp
    obtain ⟨d, -, rfl⟩ := Option.map_eq_some_iff.mp (Option.mem_toList.mp hq)
    exact later (r, p.1) (hm ▸ List.mem_append_right _ (.head _))

theorem filter_earlier {m : ObjRef × Bytes} {earlier later : List (ObjRef × Bytes)}
    (sorted : (earlier ++ m :: later).Pairwise fun m n => n.2.length < m.2.length) :
    (earlier ++ m :: later).filter (fun n => m.2.length < n.2.length) = earlier := by
  obtain ⟨-, behind, before⟩ := List.pairwise_append.mp sorted
  have all : earlier.filter (fun n => m.2.length < n.2.length) = earlier :=
    List.filter_eq_self.mpr fun n hn => decide_eq_true (before n hn m (.head _))
  have none : (m :: later).filter (fun n => m.2.length < n.2.length) = [] := by
    refine List.filter_eq_nil_iff.mpr fun n hn h => ?_
    have longer := of_decide_eq_true h
    rcases List.mem_cons.mp hn with rfl | hn
    · exact Nat.lt_irrefl _ longer
    · exact Nat.lt_asymm longer ((List.pairwise_cons.mp behind).1 n hn)
  rw [List.filter_append, all, none, List.append_nil]

theorem mem_xrefStreams_markers {file rest : Bytes} {d : Dict} :
    (rest, d) ∈ xrefStreams empty (markers file) ↔ XRefStream file rest d := by
  have sorted : (markers file).Pairwise fun m n => n.2.length < m.2.length := markersFrom_sorted [] file
  rw [mem_xrefStreams, XRefStream, definedBefore]
  constructor
  · rintro ⟨earlier, r, later, hm, hd⟩
    refine ⟨⟨r, mem_markers.mp (hm ▸ List.mem_append_right _ (.head _))⟩, ?_⟩
    rw [hm] at sorted ⊢
    rwa [filter_earlier sorted]
  · rintro ⟨⟨r, hr⟩, hd⟩
    obtain ⟨earlier, later, hm⟩ := List.append_of_mem (mem_markers.mpr hr)
    refine ⟨earlier, r, later, hm, ?_⟩
    rw [hm] at sorted hd
    rwa [filter_earlier sorted] at hd

/-! ## The one that is taken -/

section

variable {kind : Bytes → Dict → Prop} {found : List (Bytes × Dict)} {c : Bytes × Dict}

theorem exists_last (h : ∃ rest d, kind rest d ∧ d.contains "Root" = true) : ∃ rest d, Last kind rest d := by
  classical
  have length : ∃ n rest d, (kind rest d ∧ d.contains "Root" = true) ∧ rest.length = n := by
    obtain ⟨rest, d, hk⟩ := h
    exact ⟨_, rest, d, hk, rfl⟩
  obtain ⟨rest, d, ⟨found, root⟩, hn⟩ := Nat.find_spec length
  exact ⟨rest, d, found, root, fun rest' d' hk hr => hn ▸ Nat.find_min' length ⟨rest', d', ⟨hk, hr⟩, rfl⟩⟩

section

variable (sorted : found.Pairwise fun p q => p.1.length < q.1.length) (mem : ∀ {rest d}, (rest, d) ∈ found ↔ kind rest d)
include sorted mem

/-- Of dictionaries in order, the last one first, the first with a root is the last of its kind. -/
theorem last_of_find? (h : found.find? (fun p => p.2.contains "Root") = some c) : Last kind c.1 c.2 := by
  obtain ⟨root, as, bs, rfl, before⟩ := List.find?_eq_some_iff_append.mp h
  refine ⟨mem.mp (List.mem_append_right _ (.head _)), root, fun rest d hk root' => ?_⟩
  rcases List.mem_append.mp (mem.mpr hk) with ha | hb
  · have rootless := before _ ha
    rw [root'] at rootless
    cases rootless
  · rcases List.mem_cons.mp hb with rfl | hb
    · exact Nat.le_refl _
    · exact Nat.le_of_lt (List.rel_of_pairwise_cons (List.pairwise_append.mp sorted).2.1 hb)

theorem find?_root_iff : found.find? (fun p => p.2.contains "Root") = some c ↔ Last kind c.1 c.2 := by
  refine ⟨last_of_find? sorted mem, fun last => ?_⟩
  obtain ⟨c', h⟩ := Option.isSome_iff_exists.mp
    (List.find?_isSome (p := fun p : Bytes × Dict => p.2.contains "Root").mpr ⟨c, mem.mpr last.found, last.root⟩)
  -- two that are last have as much behind them, and no two of those in order have
  have last' := last_of_find? sorted mem h
  have length : c'.1.length = c.1.length := Nat.le_antisymm (last'.least c.1 c.2 last.found last.root)
    (last.least c'.1 c'.2 last'.found last'.root)
  have distinct : (found.map fun p => p.1.length).Nodup := (List.pairwise_map.mpr sorted).imp Nat.ne_of_lt
  have same : c' = c := List.inj_on_of_nodup_map distinct (mem.mpr last'.found) (mem.mpr last.found) length
  rw [h, same]

end

end

section

variable {z : Decompressor} {file rest : Bytes} {d : Dict} {c : Bytes × Dict}

theorem find?_sections_iff :
    (sections file).find? (fun p => p.2.contains "Root") = some c ↔ Last (TrailerSection file) c.1 c.2 :=
  find?_root_iff (sections_sorted file) mem_sections

theorem find?_xrefStreams_iff :
    (xrefStreams empty (markers file)).find? (fun p => p.2.contains "Root") = some c ↔
      Last (XRefStream file) c.1 c.2 :=
  find?_root_iff (xrefStreams_sorted empty (markersFrom_sorted [] file)) mem_xrefStreams_markers

/-- What a file with a root is loaded to: its trailer is the last section with a root, else the last cross-reference
stream with one. -/
theorem load_eq (found : ((sections file).find? (fun p => p.2.contains "Root")).or
      ((xrefStreams empty (markers file)).find? fun p => p.2.contains "Root") = some c) :
    load z file =
      if ((markers file).foldl define empty).objects.isEmpty then .error .noObjects
      else
        match { (markers file).foldl define empty with decompressor := z }.addObjectStreams with
        | .error p => .error (.panic p)
        | .ok st => if c.2.contains "Encrypt" then .error .encrypted else .ok { st with trailer := c.2 } := by
  have candidate : (trailerDicts ((xrefStreams empty (markers file)).map Prod.snd) file).find? (·.contains "Root") =
      some c.2 := by
    rw [trailerDicts_eq, ← List.map_append, List.find?_map, List.find?_append]
    exact congrArg (Option.map Prod.snd) found
  unfold load
  rw [show emptyWith z = { empty with decompressor := z } from rfl, addDefinitions_decompressor, addDefinitions_scan,
    List.append_nil]
  dsimp only
  rw [candidate]
  rfl

theorem trailer_of_load {st : Store} (h : load z file = .ok st)
    (found : ((sections file).find? (fun p => p.2.contains "Root")).or
      ((xrefStreams empty (markers file)).find? fun p => p.2.contains "Root") = some c) : st.trailer = c.2 := by
  rw [load_eq found] at h
  split at h
  · cases h
  split at h
  · cases h
  split at h
  · cases h
  · cases h
    rfl

theorem Last.of_candidate (last : Last (Candidate file) rest d) :
    Last (TrailerSection file) rest d ∨ Last (XRefStream file) rest d :=
  last.found.imp (fun h => ⟨h, last.root, fun rest' d' h' => last.least rest' d' (.inl h')⟩)
    fun h => ⟨h, last.root, fun rest' d' h' => last.least rest' d' (.inr h')⟩

end

/-- **The last section with a root is the trailer**, and without one the last cross-reference stream with a root is.  So
let a file be loaded that has a dictionary with a root among the two kinds: there is one that stands last, and it is the
trailer if and only if no section has a root or the last one with a root is the same dictionary. -/
theorem load_trailer {z : Decompressor} {file : Bytes} {st : Store} (h : load z file = .ok st)
    (rooted : ∃ rest d, Candidate file rest d ∧ d.contains "Root" = true) :
    (∀ rest d, Last (TrailerSection file) rest d → st.trailer = d) ∧
      (∃ rest d, Last (Candidate file) rest d) ∧
      ∀ rest d, Last (Candidate file) rest d →
        (st.trailer = d ↔ ∀ rest' d', Last (TrailerSection file) rest' d' → d' = d) := by
  have section_wins (rest d) (last : Last (TrailerSection file) rest d) : st.trailer = d := by
    have found := find?_sections_iff (c := (rest, d)).mpr last
    exact trailer_of_load h (by rw [found]; rfl)
  refine ⟨section_wins, exists_last rooted, fun rest d last => ⟨fun hd rest' d' last' => ?_, fun all => ?_⟩⟩
  · exact (section_wins rest' d' last').symm.trans hd
  · cases found : (sections file).find? fun p => p.2.contains "Root" with
    | some c =>
      have last' := find?_sections_iff.mp found
      exact (section_wins _ _ last').trans (all _ _ last')
    | none =>
      rcases last.of_candidate with last | last
      · exact section_wins rest d last
      · have found' := find?_xrefStreams_iff (c := (rest, d)).mpr last
        exact trailer_of_load (c := (rest, d)) h (by rw [found, found', Option.none_or])

theorem stream_read : definition? (Bytes.ofText " << /Type /XRef /Root 1 0 R >> stream\nendstream") =
    some (.stream ⟨⟨[(.ofText "Root", .ref ⟨1, 0⟩), (.ofText "Type", .name (.ofText "XRef"))]⟩, []⟩) := by
  let d : Dict := ⟨[(.ofText "Root", .ref ⟨1, 0⟩), (.ofText "Type", .name (.ofText "XRef"))]⟩
  have printable : Printable 0 (.dict d) := by
    have ordered : Dict.Ordered d.entries := by
      refine .cons (fun e he => ?_) (List.pairwise_singleton _ _)
      rw [List.mem_singleton.mp he]
      decide
    have reference : Printable 1 (.ref ⟨1, 0⟩) :=
      .scalar (by decide) (show 1 < UInt32.size ∧ 0 < UInt16.size by decide)
    have name : Printable 1 (.name (.ofText "XRef")) := .scalar (by decide) trivial
    exact .dict (by decide) ordered (List.forall_mem_cons.mpr ⟨reference, List.forall_mem_singleton.mpr name⟩)
  have word : Written (.keyword Reading.referenceWord) [0x52] := .keyword (List.forall_mem_singleton.mpr rfl) rfl
  have spelled : Spells (.dict d) (Bytes.ofText "<< /Type /XRef /Root 1 0 R >>") := by
    rw [show Bytes.ofText "<< /Type /XRef /Root 1 0 R >>" = _ from Bytes.ofText_ofList _]
    exact ⟨_, .dict (.swap _ _ _) (.entry (.scalar (.name (.ofText "XRef"))) (.entry (.scalar (.ref ⟨1, 0⟩)) .noEntries)),
      .cons .dictStart blank <| .cons (Written.plainName (n := Bytes.ofText "Type") (by decide)) blank <|
      .cons (Written.plainName (n := Bytes.ofText "XRef") (by decide)) blank <|
      .cons (Written.plainName (n := Bytes.ofText "Root") (by decide)) blank <|
      .cons (Written.digits (w := [0x31]) nofun rfl rfl) blank <|
      .cons (Written.digits (w := [0x30]) nofun rfl rfl) blank <| .cons word blank <| .one .dictEnd⟩
  have gap : Gap [0x20] := .inr blank
  have split : Bytes.ofText " << /Type /XRef /Root 1 0 R >> stream\nendstream" =
      [0x20] ++ (Bytes.ofText "<< /Type /XRef /Root 1 0 R >>" ++ ([0x20] ++ (streamWord ++ ([0x0A] ++ endStreamWord)))) := by
    rw [show Bytes.ofText " << /Type /XRef /Root 1 0 R >> stream\nendstream" = _ from Bytes.ofText_ofList _,
      show Bytes.ofText "<< /Type /XRef /Root 1 0 R >>" = _ from Bytes.ofText_ofList _]
    rfl
  rw [split]
  have ended : Ended ([0x0A] ++ endStreamWord) := by
    rintro _ ⟨⟩
    decide
  exact definition?_of_stream ((gap.object? _).trans (object?_append printable spelled trivial))
    ((gap.next? _).trans (streamWord_isWord.next? ended)) rfl

/-- A section is taken, although a cross-reference stream with a root stands after it. -/
theorem section_before_stream :
    let file := Bytes.ofText "trailer << /Root 1 0 R >> 1 0 obj << /Type /XRef /Root 1 0 R >> stream\nendstream"
    let first : Dict := ⟨[(.ofText "Root", .ref ⟨1, 0⟩)]⟩
    let last : Dict := ⟨[(.ofText "Root", .ref ⟨1, 0⟩), (.ofText "Type", .name (.ofText "XRef"))]⟩
    ∃ st rest, load .idle file = .ok st ∧ Last (Candidate file) rest last ∧ st.trailer = first ∧ first ≠ last := by
  intro file first last
  let afterMarker := Bytes.ofText " << /Type /XRef /Root 1 0 R >> stream\nendstream"
  let between := Bytes.ofText " 1 0 obj" ++ afterMarker
  let afterWord := [0x20] ++ (Bytes.ofText "<< /Root 1 0 R >>" ++ between)
  have fileText : file = _ := Bytes.ofText_ofList _
  have markerText : afterMarker = _ := Bytes.ofText_ofList _
  have wordText : afterWord = _ := congrArg ([0x20] ++ ·) (congrArg₂ (· ++ ·) (Bytes.ofText_ofList _)
    (congrArg₂ (· ++ ·) (Bytes.ofText_ofList _) markerText))
  have read : Reading.object? afterWord = some (.dict first, between) := by
    rw [(show Gap [0x20] from .inr blank).object?]
    exact object?_append trailer_spelled.1 trailer_spelled.2 trivial
  have word : file = trailerWord ++ afterWord := by
    rw [fileText, wordText]
    rfl
  have inSections : (afterWord, first) ∈ sections file :=
    mem_sections.mpr ⟨word ▸ List.suffix_rfl, by rw [dictAt?, read]; rfl⟩
  have sections_eq : sections file = [(afterWord, first)] := by
    have once : trailerDicts [] file = [first] := by
      rw [word, trailerDicts_word [] read, trailerDicts_nil _ (by rw [wordText]; decide +kernel)]
    rw [trailerDicts_eq, List.append_nil] at once
    obtain ⟨p, hp, -⟩ := List.map_eq_singleton_iff.mp once
    rw [hp, List.mem_singleton] at inSections
    rw [hp, inSections]
  have marked : markers file = [(⟨1, 0⟩, afterMarker)] := by
    rw [fileText, markerText]
    decide +kernel
  have streams_eq : xrefStreams empty (markers file) = [(afterMarker, last)] := by
    rw [marked, xrefStreams, xrefDict?, stream_read]
    rfl
  have filled : ((markers file).foldl define empty).objects.isEmpty = false := by
    rw [marked, List.foldl_cons, List.foldl_nil, define, stream_read]
    exact Std.HashMap.isEmpty_insert
  obtain ⟨st, loaded⟩ : ∃ st, load .idle file = .ok st := by
    have unpacked : { (markers file).foldl define empty with decompressor := .idle }.addObjectStreams =
        .ok { (markers file).foldl define empty with decompressor := .idle } := by
      refine addObjectStreams_eq fun r s hr type => ?_
      rw [marked, List.foldl_cons, List.foldl_nil, define, stream_read] at hr
      change (empty.insert _ _).get? r = _ at hr
      rw [get?_insert] at hr
      split at hr
      · cases hr
        exact absurd type (by decide)
      · exact absurd (hr.symm.trans Std.HashMap.getElem?_empty) nofun
    rw [load_eq (c := (afterWord, first)) (by rw [sections_eq]; rfl), filled, unpacked]
    exact ⟨_, rfl⟩
  have candidate (rest d) (h : Candidate file rest d) : rest = afterWord ∨ rest = afterMarker := by
    refine h.imp (fun h => ?_) fun h => ?_
    · rw [← mem_sections, sections_eq, List.mem_singleton] at h
      exact congrArg Prod.fst h
    · rw [← mem_xrefStreams_markers, streams_eq, List.mem_singleton] at h
      exact congrArg Prod.fst h
  have lastSection : Last (TrailerSection file) afterWord first := find?_sections_iff.mp (by rw [sections_eq]; rfl)
  have lastStream : Last (XRefStream file) afterMarker last := find?_xrefStreams_iff.mp (by rw [streams_eq]; rfl)
  refine ⟨st, afterMarker, loaded, ⟨.inr lastStream.found, lastStream.root, fun rest d h _ => ?_⟩, ?_, ?_⟩
  · rcases candidate rest d h with rfl | rfl
    · rw [markerText, wordText]
      decide
    · exact Nat.le_refl _
  · exact (load_trailer loaded ⟨afterWord, first, .inl lastSection.found, lastSection.root⟩).1 _ _ lastSection
  · intro same
    exact absurd (congrArg (·.entries.length) same) (by decide +zetaReduce)

end PdfContent.Store
