import Mathlib.Data.List.Nodup
import PdfContent.Proofs.Store.Load
import PdfContent.Store.Document
/-!
# PageTree — what the walk through the page tree lists and expands

The walk is written down with what it does at every node (`visits`), and the pages are those of its leaves
(`collect_eq`).  It follows every reference once (`nodup_refs`), but a node is known by the reference that stands in
its parent, not by the object that the reference leads to.  So an object is met once exactly if no two references that
are followed lead to it, and always in a store where no object is a reference (`ofStore_pages`).
-/
namespace PdfContent

/-! ## Where references lead -/

namespace Store

def lastRef (st : Store) : Nat → ObjRef → ObjRef
  | 0, r => r
  | steps + 1, r =>
    match st.get? r with
    | some (.ref r') => st.lastRef steps r'
    | _ => r

def target (st : Store) (r : ObjRef) : ObjRef := st.lastRef 15 r

theorem get?_lastRef (st : Store) {d : Dict} : ∀ (steps : Nat) (r : ObjRef), st.follow (steps + 1) (.ref r) = .dict d →
    st.get? (st.lastRef steps r) = some (.dict d)
  | 0, r, h => by
    rw [follow] at h
    cases hr : st.get? r <;> rw [hr] at h <;> cases h
  | steps + 1, r, h => by
    rw [follow] at h
    rw [lastRef]
    cases hr : st.get? r with
    | none =>
      rw [hr] at h
      cases h
    | some o =>
      rw [hr] at h
      cases o with
      | ref r' => exact get?_lastRef st steps r' h
      | dict d' =>
        rw [hr]
        exact congrArg some h
      | _ => cases h

/-- A reference that stands for a dictionary leads to an object that is this dictionary. -/
theorem get?_target {st : Store} {r : ObjRef} {d : Dict} (h : st.resolve (.ref r) = .dict d) :
    st.get? (st.target r) = some (.dict d) := st.get?_lastRef 15 r h

theorem target_eq_self {st : Store} (h : ∀ r r', st.get? r ≠ some (.ref r')) (r : ObjRef) : st.target r = r := by
  rw [target, lastRef]
  split
  · rename_i r' hr
    exact absurd hr (h r r')
  · rfl

end Store

namespace PageTree

variable {α : Type}

/-! ## Visits -/

def refOf? : Object → Option ObjRef
  | .ref r => some r
  | _ => none

/-- What is done at a node: it is listed as a page, or expanded.  `kid` is the object that stands in the parent. -/
inductive Visit (α : Type) where
  | leaf (kid : Object) (page : Page α)
  | inner (kid : Object) (node : Dict)

namespace Visit

def kid : Visit α → Object
  | leaf kid _ | inner kid _ => kid

def node : Visit α → Dict
  | leaf _ page => page.dict
  | inner _ node => node

def page? : Visit α → Option (Page α)
  | leaf _ page => some page
  | inner _ _ => none

def ref? (v : Visit α) : Option ObjRef := refOf? v.kid

def object? (st : Store) (v : Visit α) : Option ObjRef := v.ref?.map st.target

end Visit

/-- The references that were followed once a kid is entered, unless it is one of them. -/
def enter? (visited : List ObjRef) : Object → Option (List ObjRef)
  | .ref r => if visited.contains r then none else some (r :: visited)
  | _ => some visited

/-- The visits that were made while the references that were followed grew from `before` to `after`. -/
structure Walked (st : Store) (before : List ObjRef) (visits : List (Visit α)) (after : List ObjRef) : Prop where
  followed : ∃ new, after = new ++ before ∧ (visits.filterMap Visit.ref?).reverse.Sublist new
  once : before.Nodup → after.Nodup
  nodes : ∀ v ∈ visits, st.resolve v.kid = .dict v.node

namespace Walked

variable {st : Store} {before between after : List ObjRef} {visits visits' : List (Visit α)}

theorem refl (st : Store) (before : List ObjRef) : Walked (α := α) st before [] before :=
  ⟨⟨[], rfl, List.Sublist.refl _⟩, id, nofun⟩

theorem trans (h : Walked st before visits between) (h' : Walked st between visits' after) :
    Walked st before (visits ++ visits') after := by
  obtain ⟨new, rfl, hn⟩ := h.followed
  obtain ⟨new', rfl, hn'⟩ := h'.followed
  refine ⟨⟨new' ++ new, (List.append_assoc ..).symm, ?_⟩, h'.once ∘ h.once, fun v hv => ?_⟩
  · rw [List.filterMap_append, List.reverse_append]
    exact hn'.append hn
  · exact (List.mem_append.mp hv).elim (h.nodes v) (h'.nodes v)

end Walked

theorem enter?_eq_some {visited visited' : List ObjRef} {kid : Object} (h : enter? visited kid = some visited') :
    visited' = (refOf? kid).toList ++ visited ∧ (visited.Nodup → visited'.Nodup) := by
  cases kid with
  | ref r =>
    rw [enter?] at h
    split at h
    · cases h
    · rename_i new
      cases h
      exact ⟨rfl, fun nodup => List.nodup_cons.mpr ⟨by simpa using new, nodup⟩⟩
  | _ =>
    cases h
    exact ⟨rfl, id⟩

section

variable {st : Store} {visited visited' : List ObjRef} {kid : Object}

/-- What is no dictionary is followed, too. -/
theorem walked_pass (h : enter? visited kid = some visited') : Walked (α := α) st visited [] visited' := by
  obtain ⟨rfl, once⟩ := enter?_eq_some h
  exact ⟨⟨_, rfl, List.nil_sublist _⟩, once, nofun⟩

theorem walked_enter (h : enter? visited kid = some visited') (v : Visit α) (hk : v.kid = kid)
    (hr : st.resolve kid = .dict v.node) : Walked st visited [v] visited' := by
  obtain ⟨rfl, once⟩ := enter?_eq_some h
  refine ⟨⟨_, rfl, ?_⟩, once, fun w hw => ?_⟩
  · subst hk
    rw [List.filterMap_cons, Visit.ref?]
    cases refOf? v.kid <;> exact List.Sublist.refl _
  · obtain rfl := List.mem_singleton.mp hw
    rw [hk, hr]

end

/-! ## The walk with its visits -/

section

variable [Scalar α]

def visitNode (st : Store) (own : Inherited α) (below : Dict → List ObjRef → List (Visit α) × List ObjRef)
    (visits : List (Visit α)) (kid : Object) (visited : List ObjRef) : List (Visit α) × List ObjRef :=
  match st.resolve kid with
  | .dict d =>
    if isLeaf st d then (visits ++ [.leaf kid (Page.ofDict st d own)], visited)
    else (visits ++ .inner kid d :: (below d visited).1, (below d visited).2)
  | _ => (visits, visited)

def pagesNode (st : Store) (own : Inherited α) (below : Dict → List ObjRef → List (Page α) × List ObjRef)
    (pages : List (Page α)) (kid : Object) (visited : List ObjRef) : List (Page α) × List ObjRef :=
  match st.resolve kid with
  | .dict d =>
    if isLeaf st d then (pages ++ [Page.ofDict st d own], visited)
    else (pages ++ (below d visited).1, (below d visited).2)
  | _ => (pages, visited)

def visitKid (st : Store) (own : Inherited α) (below : Dict → List ObjRef → List (Visit α) × List ObjRef)
    (done : List (Visit α) × List ObjRef) (kid : Object) : List (Visit α) × List ObjRef :=
  match enter? done.2 kid with
  | none => done
  | some visited => visitNode st own below done.1 kid visited

def walk (st : Store) : Nat → Dict → Inherited α → List ObjRef → List (Visit α) × List ObjRef
  | 0, _, _, visited => ([], visited)
  | depth + 1, node, above, visited =>
    ((st.lookup? node "Kids" : Option (List Object)).getD []).foldl
      (visitKid st (above.update st node) fun d visited => walk st depth d (above.update st node) visited) ([], visited)

def pagesOf (done : List (Visit α) × List ObjRef) : List (Page α) × List ObjRef :=
  (done.1.filterMap Visit.page?, done.2)

/-- **The pages are those of the leaves that are visited.** -/
theorem collect_eq (st : Store) (depth : Nat) (node : Dict) (above : Inherited α) (visited : List ObjRef) :
    collect st depth node above visited = pagesOf (walk st depth node above visited) := by
  induction depth generalizing node above visited with
  | zero => rfl
  | succ depth ih =>
    rw [collect, walk]
    show List.foldl _ (pagesOf ([], visited)) _ = _
    have entered (visits : List (Visit α)) (kid : Object) (visited : List ObjRef) :
        pagesNode st (above.update st node) (fun d visited => collect st depth d (above.update st node) visited)
          (visits.filterMap Visit.page?) kid visited =
            pagesOf (visitNode st (above.update st node) (fun d visited => walk st depth d (above.update st node) visited)
              visits kid visited) := by
      unfold visitNode pagesNode
      cases st.resolve kid with
      | dict d =>
        dsimp only
        rw [ih]
        by_cases leaf : isLeaf st d = true
        · rw [if_pos leaf, if_pos leaf, pagesOf, List.filterMap_append]
          rfl
        · rw [if_neg leaf, if_neg leaf, pagesOf, pagesOf, List.filterMap_append, List.filterMap_cons_none rfl]
      | _ => rfl
    refine List.foldl_hom pagesOf ?_
    rintro ⟨visits, visited⟩ kid
    have next := entered visits kid visited
    rw [visitKid]
    cases kid with
    | ref r =>
      dsimp only [enter?, pagesOf]
      by_cases again : visited.contains r = true
      · rw [if_pos again, if_pos again]
      · rw [if_neg again, if_neg again]
        exact entered visits (.ref r) (r :: visited)
    | _ => exact next

variable {st : Store}

theorem walked_kid {own : Inherited α} {below : Dict → List ObjRef → List (Visit α) × List ObjRef}
    {before : List ObjRef} {done : List (Visit α) × List ObjRef} (h : Walked st before done.1 done.2)
    (hb : ∀ d visited, Walked st visited (below d visited).1 (below d visited).2) (kid : Object) :
    Walked st before (visitKid st own below done kid).1 (visitKid st own below done kid).2 := by
  rw [visitKid]
  cases he : enter? done.2 kid with
  | none => exact h
  | some visited =>
    dsimp only
    rw [visitNode]
    cases hr : st.resolve kid with
    | dict d =>
      dsimp only
      split
      · exact h.trans (walked_enter he (.leaf kid (Page.ofDict st d own)) rfl hr)
      · exact h.trans ((walked_enter he (.inner kid d) rfl hr).trans (hb d visited))
    | _ =>
      have pass := h.trans (walked_pass he)
      rwa [List.append_nil] at pass

theorem walked_kids {own : Inherited α} {below : Dict → List ObjRef → List (Visit α) × List ObjRef}
    {before : List ObjRef} (hb : ∀ d visited, Walked st visited (below d visited).1 (below d visited).2)
    (kids : List Object) : ∀ {done : List (Visit α) × List ObjRef}, Walked st before done.1 done.2 →
      Walked st before (kids.foldl (visitKid st own below) done).1 (kids.foldl (visitKid st own below) done).2 := by
  induction kids with
  | nil => exact id
  | cons kid kids ih => exact fun h => ih (walked_kid h hb kid)

/-- **The walk follows a reference once**, and lists and expands what the references lead to. -/
theorem walked (depth : Nat) (node : Dict) (above : Inherited α) (visited : List ObjRef) :
    Walked st visited (walk st depth node above visited).1 (walk st depth node above visited).2 := by
  induction depth generalizing node above visited with
  | zero => exact .refl st visited
  | succ depth ih => exact walked_kids (fun d visited => ih d _ visited) _ (.refl st visited)

/-! ## The pages of a store -/

def PageRoot (st : Store) (pages : Object) (d : Dict) : Prop :=
  ∃ root, st.root? = some root ∧ root.get? "Pages" = some pages ∧ st.resolve pages = .dict d

def visits (st : Store) (pages : Object) (d : Dict) : List (Visit α) :=
  .inner pages d :: (walk st (maxDepth + 1) d .none (refOf? pages).toList).1

variable {pages : Object} {d : Dict}

theorem ofStore_eq (h : PageRoot st pages d) :
    Document.ofStore st = .ok (⟨st, (visits st pages d).filterMap Visit.page?⟩ : Document α) := by
  obtain ⟨root, hroot, hpages, hd⟩ := h
  unfold Document.ofStore
  rw [hroot]
  dsimp only
  rw [hpages]
  dsimp only
  rw [hd]
  dsimp only
  rw [collect_eq]
  cases pages <;> rfl

theorem exists_ofStore_iff :
    (∃ doc : Document α, Document.ofStore st = .ok doc) ↔ ∃ pages d, PageRoot st pages d := by
  constructor
  · rintro ⟨doc, h⟩
    unfold Document.ofStore at h
    split at h
    · cases h
    · rename_i root hroot
      split at h
      · cases h
      · rename_i pages hpages
        split at h
        · rename_i d hd
          exact ⟨pages, d, root, hroot, hpages, hd⟩
        · cases h
  · rintro ⟨pages, d, h⟩
    exact ⟨_, ofStore_eq h⟩

theorem visits_walked (h : st.resolve pages = .dict d) :
    ∃ after, Walked st [] (visits st pages d : List (Visit α)) after := by
  have root : enter? [] pages = some (refOf? pages).toList := by
    cases pages <;> rfl
  exact ⟨_, (walked_enter root (.inner pages d) rfl h).trans (walked (maxDepth + 1) d .none (refOf? pages).toList)⟩

theorem nodup_refs (h : st.resolve pages = .dict d) :
    ((visits st pages d : List (Visit α)).filterMap Visit.ref?).Nodup := by
  obtain ⟨after, hw⟩ := visits_walked (α := α) h
  obtain ⟨new, rfl, hn⟩ := hw.followed
  have all : (new ++ []).Nodup := hw.once .nil
  rw [List.append_nil] at all
  exact List.nodup_reverse.mp (hn.nodup all)

/-- An object is met once if no two references that are followed lead to it. -/
theorem met_once_iff (h : st.resolve pages = .dict d) :
    (∀ r, ((visits st pages d : List (Visit α)).filterMap (Visit.object? st)).count r ≤ 1) ↔
      ∀ q ∈ (visits st pages d : List (Visit α)).filterMap Visit.ref?,
        ∀ q' ∈ (visits st pages d : List (Visit α)).filterMap Visit.ref?, st.target q = st.target q' → q = q' := by
  have objects : (visits st pages d : List (Visit α)).filterMap (Visit.object? st) =
      ((visits st pages d : List (Visit α)).filterMap Visit.ref?).map st.target := by
    rw [List.map_filterMap]
    rfl
  rw [← List.nodup_iff_count_le_one, objects, List.nodup_map_iff_inj_on (nodup_refs h)]

/-- A node is a dictionary in the array that leads to it, or an indirect object. -/
theorem visits_nodes (h : st.resolve pages = .dict d) {v : Visit α} (hv : v ∈ visits st pages d) :
    v.kid = .dict v.node ∨ ∃ r, v.object? st = some r ∧ st.get? r = some (.dict v.node) := by
  obtain ⟨after, hw⟩ := visits_walked (α := α) h
  have hr := hw.nodes v hv
  rw [Visit.object?, Visit.ref?]
  cases hk : v.kid with
  | ref r =>
    rw [hk] at hr
    exact .inr ⟨_, rfl, Store.get?_target hr⟩
  | _ =>
    rw [hk] at hr
    exact .inl hr

/-- **A node is visited once by each reference to it.**  A store has pages exactly if its catalog leads to a dictionary;
they are those of the leaves that are visited.  No reference is followed twice.  So an indirect object is visited, that
is listed or expanded, at most once if and only if no two references that are followed lead to the same object, as in
every store where no object is itself a reference. -/
theorem ofStore_pages (st : Store) :
    ((∃ doc : Document α, Document.ofStore st = .ok doc) ↔ ∃ pages d, PageRoot st pages d) ∧
      ∀ pages d, PageRoot st pages d →
        let nodes : List (Visit α) := visits st pages d
        let followed := nodes.filterMap Visit.ref?
        let once := ∀ r, (nodes.filterMap (Visit.object? st)).count r ≤ 1
        Document.ofStore st = .ok (⟨st, nodes.filterMap Visit.page?⟩ : Document α) ∧
          (∀ v ∈ nodes, v.kid = .dict v.node ∨ ∃ r, v.object? st = some r ∧ st.get? r = some (.dict v.node)) ∧
          followed.Nodup ∧
          (once ↔ ∀ q ∈ followed, ∀ q' ∈ followed, st.target q = st.target q' → q = q') ∧
          ((∀ r r', st.get? r ≠ some (.ref r')) → once) := by
  refine ⟨exists_ofStore_iff, fun pages d h => ?_⟩
  obtain ⟨-, -, -, hd⟩ := id h
  refine ⟨ofStore_eq h, fun v => visits_nodes hd, nodup_refs hd, met_once_iff hd, fun direct => ?_⟩
  refine (met_once_iff hd).mpr fun q _ q' _ same => ?_
  rwa [Store.target_eq_self direct, Store.target_eq_self direct] at same

end

theorem lookup?_cons_self {β : Type} [OfObject β] (st : Store) (key : Name) (o : Object) (es : List (Name × Object)) :
    (st.lookup? ⟨(key, o) :: es⟩ key : Option β) = OfObject.ofDirect? st (st.resolve o) := by
  rw [Store.lookup?, Dict.get?, List.lookup_cons_self]
  rfl

/-- A page is listed twice, if an object refers to it. -/
theorem aliased_page_listed_twice :
    let page : Dict := ⟨[(.ofText "Type", .name (.ofText "Page"))]⟩
    let node : Dict := ⟨[(.ofText "Kids", .array [.ref ⟨3, 0⟩, .ref ⟨4, 0⟩])]⟩
    let catalog : Dict := ⟨[(.ofText "Pages", .ref ⟨2, 0⟩)]⟩
    let objects : List (ObjRef × Object) :=
      [(⟨1, 0⟩, .dict catalog), (⟨2, 0⟩, .dict node), (⟨3, 0⟩, .dict page), (⟨4, 0⟩, .ref ⟨3, 0⟩)]
    let st : Store := { Store.ofEntries objects with trailer := ⟨[(.ofText "Root", .ref ⟨1, 0⟩)]⟩ }
    PageRoot st (.ref ⟨2, 0⟩) node ∧
      ∃ doc : Document Float, Document.ofStore st = .ok doc ∧ doc.pages.map (·.dict) = [page, page] := by
  intro page node catalog objects st
  have get {r : ObjRef} {o : Object} (h : (r, o) ∈ objects) : st.get? r = some o :=
    Store.get?_addEntries_of_mem (by decide +zetaReduce) h
  have found {r : ObjRef} {d : Dict} (h : (r, .dict d) ∈ objects) (steps : Nat) :
      st.follow (steps + 2) (.ref r) = .dict d := by
    rw [Store.follow, get h]
    rfl
  have first : st.resolve (.ref ⟨3, 0⟩) = .dict page := found (.tail _ (.tail _ (.head _))) 14
  have second : st.resolve (.ref ⟨4, 0⟩) = .dict page := by
    rw [Store.resolve, Store.follow, get (.tail _ (.tail _ (.tail _ (.head _))))]
    exact found (.tail _ (.tail _ (.head _))) 13
  have root : st.root? = some catalog := by
    rw [Store.root?, lookup?_cons_self, Store.resolve, found (.head _)]
    rfl
  have pageRoot : PageRoot st (.ref ⟨2, 0⟩) node :=
    ⟨catalog, root, List.lookup_cons_self, found (.tail _ (.head _)) 14⟩
  have leaf : isLeaf st page = true := by
    rw [isLeaf, lookup?_cons_self]
    exact beq_self_eq_true (Name.ofText "Page")
  let listed : Page Float := Page.ofDict st page (Inherited.none.update st node)
  have walked : (visits st (.ref ⟨2, 0⟩) node : List (Visit Float)) =
      [.inner (.ref ⟨2, 0⟩) node, .leaf (.ref ⟨3, 0⟩) listed, .leaf (.ref ⟨4, 0⟩) listed] := by
    have kids : (st.lookup? node "Kids" : Option (List Object)) = some [.ref ⟨3, 0⟩, .ref ⟨4, 0⟩] :=
      lookup?_cons_self ..
    have enterFirst : enter? [⟨2, 0⟩] (.ref ⟨3, 0⟩) = some [⟨3, 0⟩, ⟨2, 0⟩] := by decide
    have enterSecond : enter? [⟨3, 0⟩, ⟨2, 0⟩] (.ref ⟨4, 0⟩) = some [⟨4, 0⟩, ⟨3, 0⟩, ⟨2, 0⟩] := by decide
    rw [visits, walk, kids, Option.getD_some, refOf?, Option.toList_some, List.foldl_cons, visitKid, enterFirst]
    dsimp only
    rw [visitNode, first]
    dsimp only
    rw [if_pos leaf, List.foldl_cons, visitKid, enterSecond]
    dsimp only
    rw [visitNode, second]
    dsimp only
    rw [if_pos leaf]
    rfl
  refine ⟨pageRoot, _, ((ofStore_pages st).2 _ _ pageRoot).1, ?_⟩
  rw [walked]
  rfl

end PageTree

end PdfContent
