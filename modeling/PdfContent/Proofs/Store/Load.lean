import PdfContent.Proofs.Store.Layout
/-!
# Load — loading undoes writing

The store is filled with the definitions of a file, one after the other.  A type that an entry resolves to on the way is
the one that it resolves to in the end (`Extends.lookup?`), so no dictionary is taken for a cross-reference stream, no
stream is unpacked, and the objects are those that were written (`load_file`).
-/
namespace PdfContent.Store

variable {st st' : Store} {es : List (ObjRef × Object)}

/-! ## Filling a store -/

def addEntries (st : Store) (es : List (ObjRef × Object)) : Store := es.foldl (fun st e => st.insert e.1 e.2) st

def ofEntries (es : List (ObjRef × Object)) : Store := empty.addEntries es

theorem get?_insert (st : Store) (r r' : ObjRef) (o : Object) :
    (st.insert r o).get? r' = if r = r' then some o else st.get? r' := by
  simp [get?, insert, Std.HashMap.getElem?_insert]

theorem get?_addEntries_of_not_mem {r : ObjRef} (h : r ∉ es.map Prod.fst) :
    (st.addEntries es).get? r = st.get? r := by
  induction es generalizing st with
  | nil => rfl
  | cons e es ih =>
    rw [List.map_cons, List.mem_cons, not_or] at h
    exact (ih h.2).trans ((get?_insert st e.1 r e.2).trans (if_neg (Ne.symm h.1)))

theorem get?_addEntries_of_mem (distinct : (es.map Prod.fst).Nodup) {r : ObjRef} {o : Object} (h : (r, o) ∈ es) :
    (st.addEntries es).get? r = some o := by
  induction es generalizing st with
  | nil => cases h
  | cons e es ih =>
    obtain ⟨new, distinct⟩ := List.nodup_cons.mp distinct
    rcases List.mem_cons.mp h with rfl | h
    · exact (get?_addEntries_of_not_mem new).trans ((get?_insert st r r o).trans (if_pos rfl))
    · exact ih distinct h

theorem size_addEntries (distinct : (es.map Prod.fst).Nodup) (hn : ∀ e ∈ es, st.get? e.1 = none) :
    (st.addEntries es).size = st.size + es.length := by
  induction es generalizing st with
  | nil => rfl
  | cons e es ih =>
    obtain ⟨new, distinct⟩ := List.nodup_cons.mp distinct
    have one : (st.insert e.1 e.2).size = st.size + 1 := by
      have absent : e.1 ∉ st.objects := by
        simpa [get?] using hn e (.head _)
      exact (Std.HashMap.size_insert ..).trans (if_neg absent)
    have others : ∀ f ∈ es, (st.insert e.1 e.2).get? f.1 = none := by
      intro f hf
      have other : e.1 ≠ f.1 := fun h => new (by rw [h]; exact List.mem_map_of_mem hf)
      rw [get?_insert, if_neg other]
      exact hn f (.tail _ hf)
    have rest : ((st.insert e.1 e.2).addEntries es).size = st.size + 1 + es.length := by
      rw [ih distinct others, one]
    exact rest.trans (by rw [List.length_cons]; omega)

/-! ## Types on the way -/

/-- All objects of one store are in the other, too. -/
def Extends (st st' : Store) : Prop := ∀ r o, st.get? r = some o → st'.get? r = some o

namespace Extends

theorem follow (h : Extends st st') : ∀ (steps : Nat) (o : Object), st.follow steps o ≠ .null →
    st'.follow steps o = st.follow steps o
  | 0, _, hn => absurd rfl hn
  | steps + 1, .ref r, hn => by
    rw [Store.follow] at hn ⊢
    cases hr : st.get? r with
    | none =>
      rw [hr] at hn
      exact absurd rfl hn
    | some o =>
      rw [hr] at hn
      rw [Store.follow, h r o hr, hr]
      exact h.follow steps o hn
  | _ + 1, .null, hn => absurd rfl hn
  | _ + 1, .bool _, _ | _ + 1, .num _, _ | _ + 1, .str _, _ | _ + 1, .name _, _ | _ + 1, .array _, _
  | _ + 1, .dict _, _ | _ + 1, .stream _, _ => rfl

/-- A name that an entry resolves to stays. -/
theorem lookup? (h : Extends st st') {d : Dict} {key n : Name} (hn : st.lookup? d key = some n) :
    st'.lookup? d key = some n := by
  obtain ⟨o, ho, hn⟩ := Option.bind_eq_some_iff.mp hn
  have notNull : st.follow 16 o ≠ .null := by
    intro h0
    have : (st.resolve o).name? = some n := hn
    rw [resolve, h0] at this
    cases this
  refine Option.bind_eq_some_iff.mpr ⟨o, ho, ?_⟩
  show (st'.resolve o).name? = some n
  rw [resolve, h.follow 16 o notNull]
  exact hn

end Extends

/-! ## Steps of the loader -/

section

variable {full : Store} {trailers : List Dict}

/-- Definitions are added one by one, and none of them is taken for a cross-reference stream. -/
theorem addDefinitions_eq {ms : List (ObjRef × Bytes)}
    (hm : ms.map (fun m => (m.1, definition? m.2)) = es.map fun e => (e.1, some e.2)) (hx : Extends st full)
    (hf : ∀ e ∈ es, full.get? e.1 = some e.2)
    (ht : ∀ r s, (r, .stream s) ∈ es → full.lookup? s.dict "Type" ≠ some (Name.ofText "XRef")) :
    addDefinitions st trailers ms = (st.addEntries es, trailers) := by
  induction es generalizing st ms with
  | nil =>
    rw [List.map_eq_nil_iff.mp hm]
    rfl
  | cons e es ih =>
    obtain ⟨⟨r, s⟩, ms, rfl, hms, hm'⟩ := List.map_eq_cons_iff.mp hm
    obtain ⟨rfl, hs⟩ := Prod.mk.inj hms
    have extends' : Extends (st.insert e.1 e.2) full := by
      intro q p hq
      rw [get?_insert] at hq
      by_cases h : e.1 = q
      · rw [if_pos h] at hq
        cases hq
        exact h ▸ hf e (.head _)
      · rw [if_neg h] at hq
        exact hx q p hq
    have rest := ih hm' extends' (fun e he => hf e (.tail _ he)) fun r s h => ht r s (.tail _ h)
    obtain ⟨r, o⟩ := e
    rw [addDefinitions, hs]
    cases o with
    | stream s =>
      have noXRef : (st.lookup? s.dict "Type" == some (Name.ofText "XRef")) = false :=
        beq_false_of_ne fun h => ht r s (.head _) (hx.lookup? h)
      simp only [noXRef, Bool.false_eq_true, if_false]
      exact rest
    | _ => exact rest

end

/-- The decompressor has no part in what references lead to. -/
theorem resolve_decompressor (st : Store) (z : Decompressor) (o : Object) :
    { st with decompressor := z }.resolve o = st.resolve o := by
  unfold resolve
  generalize 16 = steps
  induction steps generalizing o with
  | zero => rfl
  | succ steps ih =>
    cases o with
    | ref r =>
      have same : { st with decompressor := z }.get? r = st.get? r := rfl
      rw [Store.follow, Store.follow, same]
      cases st.get? r with
      | none => rfl
      | some o => exact ih o
    | _ => rfl

/-- Nor has it in the definitions of a file. -/
theorem lookup?_decompressor (st : Store) (z : Decompressor) (d : Dict) (key : Name) :
    ({ st with decompressor := z }.lookup? d key : Option Name) = st.lookup? d key :=
  congrArg ((d.get? key).bind ·) (funext fun o => congrArg Object.name? (resolve_decompressor st z o))

theorem addDefinitions_decompressor (st : Store) (z : Decompressor) (trailers : List Dict) (ms : List (ObjRef × Bytes)) :
    addDefinitions { st with decompressor := z } trailers ms =
      ({ (addDefinitions st trailers ms).1 with decompressor := z }, (addDefinitions st trailers ms).2) := by
  induction ms generalizing st trailers with
  | nil => rfl
  | cons m ms ih =>
    obtain ⟨r, s⟩ := m
    rw [addDefinitions, addDefinitions]
    cases definition? s with
    | none => exact ih st trailers
    | some o => cases o <;> simp only [lookup?_decompressor] <;> exact ih (st.insert r _) _

/-- Without object streams there is nothing to unpack. -/
theorem addObjectStreams_eq
    (h : ∀ r s, st.get? r = some (.stream s) → st.lookup? s.dict "Type" ≠ some (Name.ofText "ObjStm")) :
    st.addObjectStreams = .ok st := by
  have none : (st.refs.filterMap fun r => (st.get? r).bind fun o => o.stream?).filter
      (fun s => st.lookup? s.dict "Type" == some (Name.ofText "ObjStm")) = [] := by
    refine List.filter_eq_nil_iff.mpr fun s hs => ?_
    obtain ⟨r, -, hr⟩ := List.mem_filterMap.mp hs
    obtain ⟨o, ho, hs⟩ := Option.bind_eq_some_iff.mp hr
    cases o with
    | stream s' =>
      cases hs
      rw [beq_false_of_ne (h r s ho)]
      exact Bool.false_ne_true
    | _ => cases hs
  unfold addObjectStreams
  dsimp only
  rw [none]
  rfl

namespace IsFile

variable {d : Dict} {file : Bytes}

/-- The markers of a file are those of its definitions. -/
theorem markers_eq (h : IsFile es d file) :
    (markers file).map (fun m => (m.1, definition? m.2)) = es.map fun e => (e.1, some e.2) := by
  obtain ⟨hh, hd, -, -, -, ho, -⟩ := h
  rename_i head defs g w tail
  have ended : Ended (head.reverse ++ []) := by
    rcases hh with rfl | hh
    · exact .nil
    · exact hh.ended_reverse []
  have least := hd.le_occurrences (trailerWord ++ (g ++ (w ++ tail)))
  have most := le_occurrences_append markerWord head (defs ++ (trailerWord ++ (g ++ (w ++ tail))))
  unfold markers
  rw [markersFrom_skip [] (by omega)]
  exact hd.markers ended (by omega)

/-- The trailer of a file is the only dictionary that is found for one. -/
theorem trailers_eq (h : IsFile es d file) : trailerDicts [] file = [d] := by
  obtain ⟨-, -, hg, hp, hw, -, ht⟩ := h
  rename_i head defs g w tail
  have read : Reading.object? (g ++ (w ++ tail)) = some (.dict d, tail) :=
    (hg.object? _).trans (object?_append hp hw trivial)
  have one := occurrences_trailer (g ++ (w ++ tail))
  have most := le_occurrences_append trailerWord (head ++ defs) (trailerWord ++ (g ++ (w ++ tail)))
  rw [← List.append_assoc] at ht ⊢
  rw [trailerDicts_skip [] (by omega), trailerDicts_word [] read, trailerDicts_nil _ (by omega)]

end IsFile

/-! ## Loading -/

theorem load_of_no_markers {z : Decompressor} {file : Bytes} (h : markers file = []) :
    load z file = .error .noObjects := by
  unfold load
  rw [h]
  rfl

theorem blank : Filler [0x20] := .blank (by decide)

/-- A trailer whose root is a reference. -/
theorem trailer_spelled : Printable 0 (.dict ⟨[(Name.ofText "Root", .ref ⟨1, 0⟩)]⟩) ∧
    Spells (.dict ⟨[(Name.ofText "Root", .ref ⟨1, 0⟩)]⟩) (Bytes.ofText "<< /Root 1 0 R >>") := by
  refine ⟨.dict (by decide) (List.pairwise_singleton _ _) (List.forall_mem_singleton.mpr (.scalar (by decide) ?_)),
    _, .dict (.refl _) (.entry (.scalar (.ref ⟨1, 0⟩)) .noEntries), ?_⟩
  · exact show 1 < UInt32.size ∧ 0 < UInt16.size by decide
  have word : Written (.keyword Reading.referenceWord) [0x52] := .keyword (List.forall_mem_singleton.mpr rfl) rfl
  exact .cons .dictStart blank <| .cons (Written.plainName (n := Bytes.ofText "Root") (by decide)) blank <|
    .cons (Written.digits (w := [0x31]) nofun rfl rfl) blank <|
    .cons (Written.digits (w := [0x30]) nofun rfl rfl) blank <| .cons word blank <| .one .dictEnd

/-- **Loading undoes writing.**  Let a file define objects under different identifiers, in any order, with a trailer that
has a root and is not encrypted, and let no stream have the type of a cross-reference stream or an object stream.  If
there is any object at all, the file is loaded, with every decompressor: the store has these objects and no others, and
this trailer. -/
theorem load_file {z : Decompressor} {d : Dict} {file : Bytes} (h : IsFile es d file) (distinct : (es.map Prod.fst).Nodup)
    (root : d.contains "Root" = true) (plain : d.contains "Encrypt" = false)
    (types : ∀ r s, (r, .stream s) ∈ es → ∀ n, (ofEntries es).lookup? s.dict "Type" = some n →
      n ≠ Name.ofText "XRef" ∧ n ≠ Name.ofText "ObjStm") :
    (es = [] → load z file = .error .noObjects) ∧
      (es ≠ [] → ∃ st, load z file = .ok st ∧ st.size = es.length ∧ (∀ r o, (r, o) ∈ es → st.get? r = some o) ∧
        (∀ r, r ∉ es.map Prod.fst → st.get? r = none) ∧ st.trailer = d) := by
  have get {r : ObjRef} {o : Object} (hm : (r, o) ∈ es) : (ofEntries es).get? r = some o :=
    get?_addEntries_of_mem distinct hm
  have nothing (r : ObjRef) : empty.get? r = none := Std.HashMap.getElem?_empty
  have other {r : ObjRef} (hr : r ∉ es.map Prod.fst) : (ofEntries es).get? r = none :=
    (get?_addEntries_of_not_mem hr).trans (nothing r)
  have size : (ofEntries es).size = es.length := by
    have sum := size_addEntries distinct fun e _ => nothing e.1
    exact sum.trans (by rw [size, empty, emptyWith, Std.HashMap.size_empty, Nat.zero_add])
  have filled : addDefinitions empty [] (markers file) = (ofEntries es, []) :=
    addDefinitions_eq h.markers_eq (fun r o hr => by rw [nothing] at hr; cases hr) (fun e he => get he)
      fun r s hs ht => (types r s hs _ ht).1 rfl
  have packed : { ofEntries es with decompressor := z }.addObjectStreams = .ok { ofEntries es with decompressor := z } := by
    refine addObjectStreams_eq fun r s hr ht => ?_
    have ht : (ofEntries es).lookup? s.dict "Type" = some (Name.ofText "ObjStm") := (lookup?_decompressor ..).symm.trans ht
    change (ofEntries es).get? r = _ at hr
    by_cases hm : r ∈ es.map Prod.fst
    · obtain ⟨⟨r, o⟩, he, rfl⟩ := List.mem_map.mp hm
      have same := (get he).symm.trans hr
      cases same
      exact (types r s he _ ht).2 rfl
    · rw [other hm] at hr
      cases hr
  refine ⟨fun he => ?_, fun he => ?_⟩
  · subst he
    exact load_of_no_markers (List.map_eq_nil_iff.mp h.markers_eq)
  · have some : (ofEntries es).objects.isEmpty = false := by
      have positive : 0 < es.length := List.length_pos_iff.mpr he
      rw [Std.HashMap.isEmpty_eq_size_eq_zero, beq_eq_false_iff_ne]
      exact Nat.ne_of_gt (by rw [← size] at positive; exact positive)
    unfold load
    rw [show emptyWith z = { empty with decompressor := z } from rfl, addDefinitions_decompressor, filled]
    simp only [some, packed, h.trailers_eq, List.find?_cons, root, Option.some_or, plain, Bool.false_eq_true, if_false]
    exact ⟨_, rfl, size, fun r o hm => get hm, fun r hr => other hr, rfl⟩

/-- Data may contain the word that ends them. -/
theorem stream_file_loaded :
    let root : Dict := ⟨[(.ofText "Root", .ref ⟨1, 0⟩)]⟩
    let stream : Object := .stream ⟨⟨[(.ofText "Length", .num (.int 9))]⟩, Bytes.ofText "endstream"⟩
    let es : List (ObjRef × Object) := [(⟨1, 0⟩, .num (.int 7)), (⟨2, 0⟩, stream)]
    let file := Bytes.ofText
      "1 0 obj 7 endobj 2 0 obj << /Length 9 >>stream\nendstream\nendstream endobj trailer << /Root 1 0 R >>"
    IsFile es root file ∧ ∃ st, load .idle file = .ok st ∧ st.size = 2 ∧ st.get? ⟨2, 0⟩ = some stream := by
  intro root stream es file
  have digits (n : Nat) (b : UInt8) (hd : Byte.isDigit b = true) (hv : Bytes.decimal [b] = n) : Digits n [b] :=
    ⟨nofun, List.forall_mem_singleton.mpr hd, hv⟩
  have blanks : Blanks [0x20] := ⟨nofun, List.forall_mem_singleton.mpr rfl⟩
  have gap : Gap [0x20] := .inr blank
  have spaced (s : Bytes) : Ended ([0x20] ++ s) := blank.ended s
  have seven : Body (.num (.int 7)) ([0x37] ++ [0x20]) :=
    .spaced (.scalar (by decide) (show -maxInt64 ≤ 7 ∧ (7 : Int) ≤ maxInt64 by decide))
      ⟨_, .scalar (.int 7), .one (.digits nofun rfl rfl)⟩ blank
  have length : Spells (.dict ⟨[(.ofText "Length", .num (.int 9))]⟩) (Bytes.ofText "<< /Length 9 >>") :=
    ⟨_, .dict (.refl _) (.entry (.scalar (.int 9)) .noEntries), .cons .dictStart blank <|
      .cons (Written.plainName (n := Bytes.ofText "Length") (by decide)) blank <|
      .cons (Written.digits (w := [0x39]) nofun rfl rfl) blank <| .one .dictEnd⟩
  have printable : Printable 0 (.dict ⟨[(.ofText "Length", .num (.int 9))]⟩) :=
    .dict (by decide) (List.pairwise_singleton _ _) (List.forall_mem_singleton.mpr
      (.scalar (by decide) (show -maxInt64 ≤ 9 ∧ (9 : Int) ≤ maxInt64 by decide)))
  have data : Body stream _ := .stream printable length (.inl rfl) rfl (.head _) (.tail _ (.head _)) gap
  have one := Definition.mk (r := ⟨1, 0⟩) (digits 1 0x31 rfl rfl) blanks (digits 0 0x30 rfl rfl) blanks (by decide) gap
    seven (spaced _)
  have two := Definition.mk (r := ⟨2, 0⟩) (digits 2 0x32 rfl rfl) blanks (digits 0 0x30 rfl rfl) blanks (by decide) gap
    data (spaced _)
  have isFile : IsFile es root file := by
    have whole := @IsFile.mk es root [] _ [0x20] _ [] (.inl rfl) (.cons one blank (.cons two blank .nil)) gap
      trailer_spelled.1 trailer_spelled.2 (by decide +kernel) (by decide +kernel)
    refine cast (congrArg (IsFile es root) ?_) whole
    rw [show file = _ from Bytes.ofText_ofList _, show Bytes.ofText "<< /Length 9 >>" = _ from Bytes.ofText_ofList _,
      show Bytes.ofText "<< /Root 1 0 R >>" = _ from Bytes.ofText_ofList _]
    rfl
  have types : ∀ r s, (r, .stream s) ∈ es → ∀ n : Name, (ofEntries es).lookup? s.dict "Type" = some n →
      n ≠ Name.ofText "XRef" ∧ n ≠ Name.ofText "ObjStm" := by
    intro r s hs n hn
    rcases List.mem_cons.mp hs with h | h
    · cases h
    · have same : s = ⟨⟨[(.ofText "Length", .num (.int 9))]⟩, Bytes.ofText "endstream"⟩ :=
        Object.stream.inj (Prod.mk.inj (List.mem_singleton.mp h)).2
      rw [same] at hn
      exact absurd hn (show (none : Option Name) ≠ some n from nofun)
  obtain ⟨st, hl, size, get, -, -⟩ := (load_file isFile (by decide +zetaReduce) (by decide +zetaReduce)
    (by decide +zetaReduce) types).2 (List.cons_ne_nil _ _)
  exact ⟨isFile, st, hl, size, get _ _ (.tail _ (.head _))⟩

/-- A file that defines nothing is not loaded, although it has a trailer with a root. -/
theorem empty_file_not_loaded :
    let root : Dict := ⟨[(.ofText "Root", .ref ⟨1, 0⟩)]⟩
    let file := Bytes.ofText "trailer << /Root 1 0 R >>"
    IsFile [] root file ∧ root.contains "Root" = true ∧ root.contains "Encrypt" = false ∧
      ∀ st, load .idle file ≠ .ok st := by
  intro root file
  have isFile : IsFile [] root file := by
    have whole := @IsFile.mk [] root [] [] [0x20] _ [] (.inl rfl) .nil (.inr blank) trailer_spelled.1
      trailer_spelled.2 (by decide +kernel) (by decide +kernel)
    refine cast (congrArg (IsFile [] root) ?_) whole
    rw [show file = _ from Bytes.ofText_ofList _, show Bytes.ofText "<< /Root 1 0 R >>" = _ from Bytes.ofText_ofList _]
    rfl
  refine ⟨isFile, by decide +zetaReduce, by decide +zetaReduce, fun st h => ?_⟩
  rw [load_of_no_markers (List.map_eq_nil_iff.mp isFile.markers_eq)] at h
  cases h

end PdfContent.Store
