import Mathlib.Data.List.Induction
import PdfContent.Proofs.Geometry.Rectangle
import PdfContent.Proofs.Store.PageTree
/-!
# Page attributes — what a page takes from the nodes above it

Every page is found along a way of nodes from the root of the page tree down to it (`Descends`).  An attribute has the
value of the last node on the way whose own entry is of the type (`Nearest`), and in exact coordinates the boxes of a page
lie in each other and none is empty (`ofStore_attributes`).
-/
namespace PdfContent

open Scalar

/-! ## Nearest entries -/

namespace Store

variable {β : Type} [OfObject β] {st : Store} {key : Name} {nodes : List Dict}

/-- The value of the last of the nodes whose own entry is of the type; none, if no entry is. -/
def Nearest (st : Store) (key : Name) (nodes : List Dict) : Option β → Prop
  | some v => ∃ above node below, nodes = above ++ node :: below ∧ st.lookup? node key = some v ∧
      ∀ d ∈ below, st.lookup? d key = (none : Option β)
  | none => ∀ d ∈ nodes, st.lookup? d key = (none : Option β)

/-- The nearest entry is the first one on the way back. -/
theorem nearest_iff {own : Option β} :
    st.Nearest key nodes own ↔ nodes.reverse.findSome? (fun d => st.lookup? d key) = own := by
  cases own with
  | some v =>
    rw [List.findSome?_eq_some_iff]
    constructor
    · rintro ⟨above, node, below, rfl, hv, rest⟩
      exact ⟨below.reverse, node, above.reverse, by simp, hv, fun d hd => rest d (List.mem_reverse.mp hd)⟩
    · rintro ⟨below, node, above, back, hv, rest⟩
      refine ⟨above.reverse, node, below.reverse, ?_, hv, fun d hd => rest d (List.mem_reverse.mp hd)⟩
      rw [List.reverse_eq_iff.mp back]
      simp
  | none =>
    rw [List.findSome?_eq_none_iff]
    exact ⟨fun h d hd => h d (List.mem_reverse.mp hd), fun h d hd => h d (List.mem_reverse.mpr hd)⟩

/-- A further node counts if its own entry is of the type. -/
theorem Nearest.concat {own : Option β} (h : st.Nearest key nodes own) (d : Dict) :
    st.Nearest key (nodes ++ [d]) ((st.lookup? d key).or own) := by
  rw [nearest_iff] at h ⊢
  rw [List.reverse_concat, List.findSome?_cons]
  cases (st.lookup? d key : Option β) with
  | some v => rfl
  | none => exact h

end Store

namespace PageTree

variable {α : Type}

/-! ## Ways down the page tree -/

/-- A page and the nodes above it, the root first. -/
structure Way where
  above : List Dict
  page : Dict

namespace Way

def nodes (w : Way) : List Dict := w.above ++ [w.page]

def below (node : Dict) (w : Way) : Way := ⟨node :: w.above, w.page⟩

end Way

/-- One of the kids of the node stands for the dictionary. -/
def IsKid (st : Store) (node d : Dict) : Prop :=
  ∃ kids : List Object, st.lookup? node "Kids" = some kids ∧ ∃ kid ∈ kids, st.resolve kid = .dict d

/-- The way leads from a node to a kid of it, and from there on until the kid is a page. -/
inductive Descends (st : Store) : Dict → Way → Prop where
  | page {node d : Dict} (kid : IsKid st node d) (leaf : isLeaf st d = true) : Descends st node ⟨[node], d⟩
  | inner {node d : Dict} {w : Way} (kid : IsKid st node d) (inner : isLeaf st d = false) (rest : Descends st d w) :
    Descends st node (w.below node)

def wayKid (st : Store) (node : Dict) (ways : Dict → List ObjRef → List Way × List ObjRef)
    (done : List Way × List ObjRef) (kid : Object) : List Way × List ObjRef :=
  match enter? done.2 kid with
  | none => done
  | some visited =>
    match st.resolve kid with
    | .dict d =>
      if isLeaf st d then (done.1 ++ [⟨[node], d⟩], visited)
      else (done.1 ++ (ways d visited).1.map (Way.below node), (ways d visited).2)
    | _ => (done.1, visited)

/-- The ways from a node to the pages below it, in the order of the pages, and the references that were followed so
far. -/
def ways (st : Store) : Nat → Dict → List ObjRef → List Way × List ObjRef
  | 0, _, visited => ([], visited)
  | depth + 1, node, visited =>
    ((st.lookup? node "Kids" : Option (List Object)).getD []).foldl (wayKid st node (ways st depth)) ([], visited)

variable {st : Store}

/-- One more kid adds ways from the node only. -/
theorem wayKid_descend {node : Dict} {kids : List Object} (hk : st.lookup? node "Kids" = some kids)
    {ways : Dict → List ObjRef → List Way × List ObjRef}
    (below : ∀ d visited, ∀ w ∈ (ways d visited).1, Descends st d w) {done : List Way × List ObjRef}
    (before : ∀ w ∈ done.1, Descends st node w) {kid : Object} (mem : kid ∈ kids) :
    ∀ w ∈ (wayKid st node ways done kid).1, Descends st node w := by
  rw [wayKid]
  cases enter? done.2 kid with
  | none => exact before
  | some visited =>
    dsimp only
    cases hd : st.resolve kid with
    | dict d =>
      have isKid : IsKid st node d := ⟨kids, hk, kid, mem, hd⟩
      dsimp only
      split
      · rename_i leaf
        exact List.forall_mem_append.mpr ⟨before, List.forall_mem_singleton.mpr (.page isKid leaf)⟩
      · rename_i inner
        refine List.forall_mem_append.mpr ⟨before, List.forall_mem_map.mpr fun w hw => ?_⟩
        exact .inner isKid (Bool.eq_false_iff.mpr inner) (below d visited w hw)
    | _ => exact before

theorem ways_descend (depth : Nat) (node : Dict) (visited : List ObjRef) :
    ∀ w ∈ (ways st depth node visited).1, Descends st node w := by
  induction depth generalizing node visited with
  | zero => nofun
  | succ depth ih =>
    rw [ways]
    cases hk : (st.lookup? node "Kids" : Option (List Object)) with
    | none => nofun
    | some kids =>
      exact List.foldlRecOn (motive := fun done : List Way × List ObjRef => ∀ w ∈ done.1, Descends st node w) kids _
        nofun fun done before kid mem => wayKid_descend hk ih before mem

/-! ## Attributes along a way -/

section

variable [Scalar α]

def inherit (st : Store) (above : Inherited α) (nodes : List Dict) : Inherited α :=
  nodes.foldl (fun above d => above.update st d) above

def pageAt (st : Store) (above : Inherited α) (w : Way) : Page α := Page.ofDict st w.page (inherit st above w.above)

/-- The walk lists the pages at the end of its ways. -/
theorem walk_ways (depth : Nat) (node : Dict) (above : Inherited α) (visited : List ObjRef) :
    pagesOf (walk st depth node above visited) =
      ((ways st depth node visited).1.map (pageAt st above), (ways st depth node visited).2) := by
  induction depth generalizing node above visited with
  | zero => rfl
  | succ depth ih =>
    rw [walk, ways]
    refine List.foldl_rel (r := fun visits (found : List Way × List ObjRef) =>
      pagesOf visits = (found.1.map (pageAt st above), found.2)) rfl ?_
    rintro kid - ⟨visits, visited⟩ ⟨found, visited'⟩ h
    obtain ⟨pages, same⟩ := Prod.mk.inj h
    dsimp only at pages same
    subst same
    rw [visitKid, wayKid]
    dsimp only
    cases enter? visited kid with
    | none => exact h
    | some visited =>
      dsimp only
      rw [visitNode]
      cases st.resolve kid with
      | dict d =>
        dsimp only
        split
        · rw [pagesOf, List.filterMap_append, pages, List.map_append]
          rfl
        · have rest := ih d (above.update st node) visited
          obtain ⟨pages', same'⟩ := Prod.mk.inj rest
          rw [pagesOf, List.filterMap_append, List.filterMap_cons_none rfl, pages, pages', same', List.map_append,
            List.map_map]
          rfl
      | _ => exact congrArg (·, visited) pages

end

end PageTree

namespace Page

/-! ## Boxes and rotation -/

/-- What a box has in common with the one around it, or all of that one, if it is nothing with an area. -/
def cut {α : Type} [Scalar α] (outer : Rect α) (own : Option (Rect α)) : Rect α :=
  ((own.map fun r => r.intersect outer).filter hasArea).getD outer

/-- In exact coordinates: the common points of both boxes, or the one around, if the boxes have no inner points in
common. -/
def IsCut (outer : Rect Rat) (own : Option (Rect Rat)) (box : Rect Rat) : Prop :=
  (∃ r, own = some r ∧ (r.interior ∩ outer.interior).Nonempty ∧ box.region = r.region ∩ outer.region) ∨
    (∀ r, own = some r → r.interior ∩ outer.interior = ∅) ∧ box = outer

/-- In exact coordinates: the box itself, or US Letter, if there is none or it is empty. -/
def IsMedia (own : Option (Rect Rat)) (box : Rect Rat) : Prop :=
  (∃ r, own = some r ∧ 0 < r.area ∧ box = r) ∨ (∀ r, own = some r → r.area = 0) ∧ box = ⟨0, 0, 612, 792⟩

theorem hasArea_iff {r : Rect Rat} (h : r.Ordered) : hasArea r = true ↔ r.Proper := by
  show decide (0 < r.area) = true ↔ r.Proper
  rw [decide_eq_true_eq, h.area_pos_iff]

section

variable {outer : Rect Rat} {own : Option (Rect Rat)}

theorem IsMedia.proper (ordered : ∀ r, own = some r → r.Ordered) {box : Rect Rat} (h : IsMedia own box) :
    box.Proper := by
  rcases h with ⟨_, same, pos, rfl⟩ | ⟨-, rfl⟩
  · exact (ordered _ same).area_pos_iff.mp pos
  · exact ⟨by decide, by decide⟩

theorem filter_isMedia (ordered : ∀ r, own = some r → r.Ordered) :
    IsMedia own ((own.filter hasArea).getD defaultMediaBox) := by
  cases own with
  | none => exact .inr ⟨nofun, rfl⟩
  | some r =>
    have area := hasArea_iff (ordered r rfl)
    rw [Option.filter_some]
    by_cases proper : r.Proper
    · rw [if_pos (area.mpr proper)]
      exact .inl ⟨r, rfl, proper.area_pos, rfl⟩
    · rw [if_neg (mt area.mp proper)]
      refine .inr ⟨fun _ same => ?_, rfl⟩
      cases same
      have none : ¬0 < r.area := mt (ordered r rfl).area_pos_iff.mp proper
      exact le_antisymm (not_lt.mp none) (ordered r rfl).area_nonneg

theorem cut_cases (outer : Rect Rat) (own : Option (Rect Rat)) :
    (∃ r, own = some r ∧ (r.intersect outer).Proper ∧ cut outer own = r.intersect outer) ∨
      (∀ r, own = some r → ¬(r.intersect outer).Proper) ∧ cut outer own = outer := by
  cases own with
  | none => exact .inr ⟨nofun, rfl⟩
  | some r =>
    have area := hasArea_iff (r.intersect_ordered outer)
    rw [cut, Option.map_some, Option.filter_some]
    by_cases common : (r.intersect outer).Proper
    · rw [if_pos (area.mpr common)]
      exact .inl ⟨r, rfl, common, rfl⟩
    · rw [if_neg (mt area.mp common)]
      exact .inr ⟨fun _ same => by cases same; exact common, rfl⟩

theorem cut_isCut (outer : Rect Rat) (own : Option (Rect Rat)) : IsCut outer own (cut outer own) := by
  rcases cut_cases outer own with ⟨r, rfl, common, eq⟩ | ⟨apart, eq⟩
  · exact .inl ⟨r, rfl, Rect.intersect_proper_iff_nonempty.mp common, eq ▸ Rect.region_intersect common⟩
  · refine .inr ⟨fun r same => ?_, eq⟩
    exact Set.not_nonempty_iff_eq_empty.mp (mt Rect.intersect_proper_iff_nonempty.mpr (apart r same))

theorem cut_proper (h : outer.Proper) (own : Option (Rect Rat)) : (cut outer own).Proper := by
  rcases cut_cases outer own with ⟨r, -, common, eq⟩ | ⟨-, eq⟩
  · rwa [eq]
  · rwa [eq]

theorem IsCut.subset {box : Rect Rat} (h : IsCut outer own box) : box.region ⊆ outer.region := by
  rcases h with ⟨r, -, -, eq⟩ | ⟨-, rfl⟩
  · rw [eq]
    exact Set.inter_subset_right
  · exact subset_rfl

end

/-- The rotation is the multiple of 90 that is nearest to the angle, less full turns. -/
def IsTurn (angle : Int) (rotation : Nat) : Prop :=
  rotation ∈ [0, 90, 180, 270] ∧
    ∃ k : Int, (rotation : Int) = 90 * k % 360 ∧ ∀ m : Int, (angle - 90 * k).natAbs ≤ (angle - 90 * m).natAbs

theorem quarterTurns_isTurn (angle : Int) : IsTurn angle (quarterTurns angle) := by
  have value : (quarterTurns angle : Int) = 90 * ((angle + 45) / 90) % 360 := by
    unfold quarterTurns
    omega
  refine ⟨?_, (angle + 45) / 90, value, fun m => by omega⟩
  simp only [List.mem_cons, List.not_mem_nil, or_false]
  omega

/-! ## What a page has -/

variable {st : Store} {w : PageTree.Way}

structure HasAttributes {α : Type} [Scalar α] (st : Store) (w : PageTree.Way) (page : Page α) : Prop where
  dict : page.dict = w.page
  resources : ∃ own, st.Nearest "Resources" w.nodes own ∧ page.resources = own.getD .empty
  mediaBox : ∃ own, st.Nearest "MediaBox" w.nodes own ∧ page.mediaBox = (own.filter hasArea).getD defaultMediaBox
  cropBox : ∃ own, st.Nearest "CropBox" w.nodes own ∧ page.cropBox = cut page.mediaBox own
  bleedBox : page.bleedBox = cut page.cropBox (st.lookup? w.page "BleedBox")
  trimBox : page.trimBox = cut page.cropBox (st.lookup? w.page "TrimBox")
  artBox : page.artBox = cut page.cropBox (st.lookup? w.page "ArtBox")
  rotation : ∃ own : Option Int32, st.Nearest "Rotate" w.nodes own ∧ IsTurn (own.getD 0).toInt page.rotation

/-- What its boxes are in exact coordinates. -/
structure HasBoxes (st : Store) (w : PageTree.Way) (page : Page Rat) : Prop where
  mediaBox : ∃ own, st.Nearest "MediaBox" w.nodes own ∧ IsMedia own page.mediaBox
  cropBox : ∃ own, st.Nearest "CropBox" w.nodes own ∧ IsCut page.mediaBox own page.cropBox
  bleedBox : IsCut page.cropBox (st.lookup? w.page "BleedBox") page.bleedBox
  trimBox : IsCut page.cropBox (st.lookup? w.page "TrimBox") page.trimBox
  artBox : IsCut page.cropBox (st.lookup? w.page "ArtBox") page.artBox
  crop_within : page.cropBox.region ⊆ page.mediaBox.region
  within_crop : ∀ box ∈ [page.bleedBox, page.trimBox, page.artBox], box.region ⊆ page.cropBox.region
  area : ∀ which, 0 < (page.box which).area

/-! ## What is inherited -/

section

variable {α : Type} [Scalar α]

/-- An attribute that is updated by an entry has the value of the nearest one. -/
theorem nearest_inherit {β : Type} [OfObject β] {key : Name} (field : Inherited α → Option β)
    (update : ∀ above d, field (above.update st d) = (st.lookup? d key).or (field above)) (start : field .none = none)
    (nodes : List Dict) : st.Nearest key nodes (field (PageTree.inherit st .none nodes)) := by
  induction nodes using List.reverseRecOn with
  | nil =>
    show st.Nearest key [] (field .none)
    rw [start]
    nofun
  | append_singleton nodes d ih =>
    rw [PageTree.inherit, List.foldl_concat, update]
    exact ih.concat d

theorem pageAt_hasAttributes (st : Store) (w : PageTree.Way) :
    HasAttributes st w (PageTree.pageAt st .none w : Page α) := by
  have own : (PageTree.inherit st .none w.above).update st w.page = (PageTree.inherit st .none w.nodes : Inherited α) := by
    rw [PageTree.Way.nodes, PageTree.inherit, PageTree.inherit, List.foldl_concat]
  unfold PageTree.pageAt ofDict
  rw [own]
  exact {
    dict := rfl
    resources := ⟨_, nearest_inherit Inherited.resources (fun _ _ => rfl) rfl w.nodes, rfl⟩
    mediaBox := ⟨_, nearest_inherit Inherited.mediaBox (fun _ _ => rfl) rfl w.nodes, rfl⟩
    cropBox := ⟨_, nearest_inherit Inherited.cropBox (fun _ _ => rfl) rfl w.nodes, rfl⟩
    bleedBox := rfl
    trimBox := rfl
    artBox := rfl
    rotation := ⟨_, nearest_inherit Inherited.rotate (fun _ _ => rfl) rfl w.nodes, quarterTurns_isTurn _⟩ }

end

/-! ## Boxes in exact coordinates -/

/-- The corners of a rectangle that is read are in order, however they are given. -/
theorem lookup?_ordered {d : Dict} {key : Name} {r : Rect Rat} (h : st.lookup? d key = some r) : r.Ordered := by
  obtain ⟨o, -, read⟩ := Option.bind_eq_some_iff.mp h
  simp only [Store.as?, OfObject.ofDirect?] at read
  split at read
  · cases read
    exact Rect.normalize_ordered _
  · cases read

theorem nearest_ordered {key : Name} {nodes : List Dict} {own : Option (Rect Rat)} (h : st.Nearest key nodes own) :
    ∀ r, own = some r → r.Ordered := by
  rintro r rfl
  obtain ⟨-, node, -, -, read, -⟩ := h
  exact lookup?_ordered read

theorem HasAttributes.hasBoxes {page : Page Rat} (h : HasAttributes st w page) : HasBoxes st w page := by
  obtain ⟨own, near, eq⟩ := h.mediaBox
  have media : IsMedia own page.mediaBox := eq ▸ filter_isMedia (nearest_ordered near)
  obtain ⟨ownCrop, nearCrop, eqCrop⟩ := h.cropBox
  have crop : IsCut page.mediaBox ownCrop page.cropBox := eqCrop ▸ cut_isCut _ _
  have bleed := h.bleedBox ▸ cut_isCut page.cropBox (st.lookup? w.page "BleedBox")
  have trim := h.trimBox ▸ cut_isCut page.cropBox (st.lookup? w.page "TrimBox")
  have art := h.artBox ▸ cut_isCut page.cropBox (st.lookup? w.page "ArtBox")
  have mediaProper : page.mediaBox.Proper := media.proper (nearest_ordered near)
  have cropProper : page.cropBox.Proper := eqCrop ▸ cut_proper mediaProper ownCrop
  refine ⟨⟨own, near, media⟩, ⟨ownCrop, nearCrop, crop⟩, bleed, trim, art, crop.subset, ?_, fun which => ?_⟩
  · simp only [List.forall_mem_cons]
    exact ⟨bleed.subset, trim.subset, art.subset, List.forall_mem_nil _⟩
  · cases which with
    | media => exact mediaProper.area_pos
    | crop => exact cropProper.area_pos
    | bleed => exact (h.bleedBox ▸ cut_proper cropProper _ : page.bleedBox.Proper).area_pos
    | trim => exact (h.trimBox ▸ cut_proper cropProper _ : page.trimBox.Proper).area_pos
    | art => exact (h.artBox ▸ cut_proper cropProper _ : page.artBox.Proper).area_pos

end Page

namespace PageTree

variable {st : Store} {pages : Object} {d : Dict}

/-- The ways from the root of a page tree to its pages, in the order of the pages. -/
def waysFrom (st : Store) (pages : Object) (d : Dict) : List Way :=
  (ways st (maxDepth + 1) d (refOf? pages).toList).1

/-- The pages of a store are those at the end of the ways. -/
theorem ofStore_ways {α : Type} [Scalar α] (h : PageRoot st pages d) :
    Document.ofStore st = .ok (⟨st, (waysFrom st pages d).map (pageAt st .none)⟩ : Document α) := by
  have walked : (visits st pages d).filterMap Visit.page? = (waysFrom st pages d).map (pageAt (α := α) st .none) := by
    rw [visits, List.filterMap_cons_none rfl]
    exact congrArg Prod.fst (walk_ways (maxDepth + 1) d .none (refOf? pages).toList)
  rw [ofStore_eq h, walked]

/-- **A page inherits from the nearest node.**  Every page is found along a way of nodes from the root down to it.  Its
resources, boxes and rotation come from the last node on the way, the page included, whose own entry is of the type.
Without one, the resources are empty, the rotation is 0, the media box is US Letter, which also takes the place of an
empty one, and the crop box is the media box, as where they have nothing in common.  In exact coordinates the boxes lie
in each other and have an area.  The rotation is the multiple of 90 nearest to the entry. -/
theorem ofStore_attributes (h : PageRoot st pages d) :
    (∀ w ∈ waysFrom st pages d, Descends st d w) ∧
      (∀ (α : Type) [Scalar α], ∃ doc : Document α, Document.ofStore st = .ok doc ∧
        List.Forall₂ (Page.HasAttributes st) (waysFrom st pages d) doc.pages) ∧
      ∃ doc : Document Rat, Document.ofStore st = .ok doc ∧
        List.Forall₂ (Page.HasBoxes st) (waysFrom st pages d) doc.pages := by
  refine ⟨ways_descend _ _ _, fun α _ => ⟨_, ofStore_ways h, ?_⟩, _, ofStore_ways h, ?_⟩
  · refine List.forall₂_map_right_iff.mpr (List.forall₂_same.mpr fun w _ => ?_)
    exact Page.pageAt_hasAttributes st w
  · refine List.forall₂_map_right_iff.mpr (List.forall₂_same.mpr fun w _ => ?_)
    exact (Page.pageAt_hasAttributes st w).hasBoxes

/-- Entries of other types between the page and the root are passed over. -/
theorem page_inherits_past_names :
    let numbers (xs : List Int) : Object := .array (xs.map fun x => .num (.int x))
    let page : Dict := ⟨[(.ofText "MediaBox", .num (.int 7)), (.ofText "Type", .name (.ofText "Page"))]⟩
    let inner : Dict := ⟨[(.ofText "CropBox", numbers [10, 10, 300, 50]), (.ofText "Kids", .array [.ref ⟨4, 0⟩]),
      (.ofText "Rotate", .name (.ofText "Page"))]⟩
    let root : Dict := ⟨[(.ofText "Kids", .array [.ref ⟨3, 0⟩]), (.ofText "MediaBox", numbers [200, 0, 0, 100]),
      (.ofText "Rotate", .num (.int (-91)))]⟩
    let catalog : Dict := ⟨[(.ofText "Pages", .ref ⟨2, 0⟩)]⟩
    let objects : List (ObjRef × Object) :=
      [(⟨1, 0⟩, .dict catalog), (⟨2, 0⟩, .dict root), (⟨3, 0⟩, .dict inner), (⟨4, 0⟩, .dict page)]
    let st : Store := { Store.ofEntries objects with trailer := ⟨[(.ofText "Root", .ref ⟨1, 0⟩)]⟩ }
    PageRoot st (.ref ⟨2, 0⟩) root ∧ waysFrom st (.ref ⟨2, 0⟩) root = [⟨[root, inner], page⟩] ∧
      ∃ doc : Document Rat, Document.ofStore st = .ok doc ∧ ∃ p, doc.pages = [p] ∧ p.rotation = 270 ∧
        p.mediaBox = ⟨0, 0, 200, 100⟩ := by
  intro numbers page inner root catalog objects st
  have found {r : ObjRef} {d : Dict} (h : (r, .dict d) ∈ objects) (steps : Nat) :
      st.follow (steps + 2) (.ref r) = .dict d := by
    rw [Store.follow, show st.get? r = _ from Store.get?_addEntries_of_mem (by decide +zetaReduce) h]
    rfl
  have pageRoot : PageRoot st (.ref ⟨2, 0⟩) root := by
    refine ⟨catalog, ?_, List.lookup_cons_self, found (.tail _ (.head _)) 14⟩
    rw [Store.root?, lookup?_cons_self, Store.resolve, found (.head _)]
    rfl
  have ways : waysFrom st (.ref ⟨2, 0⟩) root = [⟨[root, inner], page⟩] := by
    have rootKids : (st.lookup? root "Kids" : Option (List Object)) = some [.ref ⟨3, 0⟩] := lookup?_cons_self ..
    have innerKids : (st.lookup? inner "Kids" : Option (List Object)) = some [.ref ⟨4, 0⟩] := rfl
    have innerNode : isLeaf st inner = false := rfl
    have leaf : isLeaf st page = true := by decide +kernel
    have atInner : st.resolve (.ref ⟨3, 0⟩) = .dict inner := found (.tail _ (.tail _ (.head _))) 14
    have atPage : st.resolve (.ref ⟨4, 0⟩) = .dict page := found (.tail _ (.tail _ (.tail _ (.head _)))) 14
    have enterInner : enter? [⟨2, 0⟩] (.ref ⟨3, 0⟩) = some [⟨3, 0⟩, ⟨2, 0⟩] := by decide
    have enterPage : enter? [⟨3, 0⟩, ⟨2, 0⟩] (.ref ⟨4, 0⟩) = some [⟨4, 0⟩, ⟨3, 0⟩, ⟨2, 0⟩] := by decide
    have below : PageTree.ways st maxDepth inner [⟨3, 0⟩, ⟨2, 0⟩] = ([⟨[inner], page⟩], [⟨4, 0⟩, ⟨3, 0⟩, ⟨2, 0⟩]) := by
      rw [maxDepth, PageTree.ways, innerKids, Option.getD_some, List.foldl_cons, wayKid, enterPage]
      dsimp only
      rw [atPage]
      dsimp only
      rw [if_pos leaf]
      rfl
    rw [waysFrom, PageTree.ways, rootKids, refOf?, Option.toList_some, Option.getD_some, List.foldl_cons, wayKid,
      enterInner]
    dsimp only
    rw [atInner]
    dsimp only
    rw [if_neg (Bool.eq_false_iff.mp innerNode), below]
    rfl
  obtain ⟨-, attributes, boxes⟩ := ofStore_attributes pageRoot
  obtain ⟨doc, loaded, pages⟩ := attributes Rat
  obtain ⟨doc', loaded', pages'⟩ := boxes
  obtain rfl : doc = doc' := Except.ok.inj (loaded.symm.trans loaded')
  rw [ways] at pages pages'
  obtain ⟨p, rest, has, none, eq⟩ := List.forall₂_cons_left_iff.mp pages
  obtain rfl := List.forall₂_nil_left_iff.mp none
  rw [eq] at pages'
  have hasBoxes := (List.forall₂_cons.mp pages').1
  refine ⟨pageRoot, ways, doc, loaded, p, eq, ?_, ?_⟩
  · obtain ⟨own, near, turn, k, value, nearest⟩ := has.rotation
    have rotate : own = some (-91) := by
      rw [← Store.nearest_iff.mp near]
      decide +kernel
    subst rotate
    have near := nearest (-1)
    rw [show (Option.getD (some (-91)) (0 : Int32)).toInt = -91 by decide] at near
    omega
  · obtain ⟨own, near, media⟩ := hasBoxes.mediaBox
    have read : own = some ⟨0, 0, 200, 100⟩ := by
      rw [← Store.nearest_iff.mp near]
      decide +kernel
    subst read
    rcases media with ⟨r, same, -, eq⟩ | ⟨empty, -⟩
    · cases same
      exact eq
    · have area : 0 < (⟨0, 0, 200, 100⟩ : Rect Rat).area := Rect.Proper.area_pos ⟨by decide, by decide⟩
      exact absurd (empty _ rfl) area.ne'

end PageTree

end PdfContent
