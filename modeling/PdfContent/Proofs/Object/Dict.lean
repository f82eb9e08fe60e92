import PdfContent.Object.Basic
/-!
# Dict — dictionaries do not depend on the order of their entries

The entries of a dictionary stand in the strict order of their keys (`Dict.Ordered`), so entries with different keys
make the same dictionary in whatever order they are put in (`Dict.ofList_of_perm`).
-/
namespace PdfContent

namespace Dict

theorem keyLt_trans {k l n : Name} (h : keyLt k l = true) (h' : keyLt l n = true) : keyLt k n = true :=
  decide_eq_true (List.lt_trans (of_decide_eq_true h) (of_decide_eq_true h'))

theorem keyLt_asymm {k l : Name} (h : keyLt k l = true) : keyLt l k = false :=
  decide_eq_false (List.lt_asymm (of_decide_eq_true h))

theorem keyLt_irrefl (k : Name) : keyLt k k = false := decide_eq_false (List.lt_irrefl _)

/-- Of two different keys one comes first. -/
theorem keyLt_of_ne {k l : Name} (hne : l ≠ k) (h : keyLt k l = false) : keyLt l k = true := by
  refine decide_eq_true (Classical.byContradiction fun h' => hne ?_)
  have he : l.bytes = k.bytes := Std.Trichotomous.trichotomous _ _ h' (of_decide_eq_false h)
  cases l
  cases k
  exact congrArg Name.mk he

/-- Every key once, in their order. -/
def Ordered (entries : List (Name × Object)) : Prop := entries.Pairwise fun e f => keyLt e.1 f.1 = true

theorem insertEntry_perm {key : Name} (value : Object) :
    ∀ {entries : List (Name × Object)}, (∀ e ∈ entries, e.1 ≠ key) →
      (insertEntry key value entries).Perm ((key, value) :: entries)
  | [], _ => .refl _
  | (k, v) :: r, h => by
    have hk : k ≠ key := h (k, v) (.head _)
    rw [insertEntry, if_neg hk]
    split
    · exact .refl _
    · exact .trans (.cons _ (insertEntry_perm value fun e he => h e (.tail _ he))) (.swap _ _ _)

theorem insertEntry_ordered {key : Name} (value : Object) :
    ∀ {entries : List (Name × Object)}, (∀ e ∈ entries, e.1 ≠ key) → Ordered entries →
      Ordered (insertEntry key value entries)
  | [], _, _ => List.pairwise_singleton _ _
  | (k, v) :: r, h, ho => by
    have hk : k ≠ key := h (k, v) (.head _)
    have hr : ∀ e ∈ r, e.1 ≠ key := fun e he => h e (.tail _ he)
    obtain ⟨hkr, hor⟩ := List.pairwise_cons.mp ho
    rw [insertEntry, if_neg hk]
    split
    case isTrue hlt =>
      refine List.pairwise_cons.mpr ⟨List.forall_mem_cons.mpr ⟨hlt, fun e he => ?_⟩, ho⟩
      exact keyLt_trans hlt (hkr e he)
    case isFalse hlt =>
      refine List.pairwise_cons.mpr ⟨fun e he => ?_, insertEntry_ordered value hr hor⟩
      rcases List.mem_cons.mp ((insertEntry_perm value hr).mem_iff.mp he) with rfl | he
      · exact keyLt_of_ne hk (Bool.eq_false_iff.mpr hlt)
      · exact hkr e he

/-- Putting in entries with new keys, one after the other. -/
theorem foldl_insert {d : Dict} :
    ∀ {es : List (Name × Object)}, (es.map Prod.fst).Nodup → (∀ e ∈ es, ∀ f ∈ d.entries, f.1 ≠ e.1) →
      Ordered d.entries → Ordered (es.foldl (fun d (k, v) => d.insert k v) d).entries ∧
        (es.foldl (fun d (k, v) => d.insert k v) d).entries.Perm (d.entries ++ es)
  | [], _, _, ho => ⟨ho, by simp⟩
  | (k, v) :: es, hn, hd, ho => by
    obtain ⟨hk, hn⟩ := List.nodup_cons.mp hn
    have hnew : ∀ f ∈ d.entries, f.1 ≠ k := hd (k, v) (.head _)
    have hp := insertEntry_perm v hnew
    have hd' : ∀ e ∈ es, ∀ f ∈ (d.insert k v).entries, f.1 ≠ e.1 := by
      intro e he f hf
      rcases List.mem_cons.mp (hp.mem_iff.mp hf) with rfl | hf
      · exact fun h => hk (h ▸ List.mem_map_of_mem he)
      · exact hd e (.tail _ he) f hf
    obtain ⟨hor, hpr⟩ := foldl_insert hn hd' (insertEntry_ordered v hnew ho)
    exact ⟨hor, hpr.trans ((hp.append_right es).trans List.perm_middle.symm)⟩

/-- **The order in which entries are put in does not count.** -/
theorem ofList_of_perm {d : Dict} {es : List (Name × Object)} (ho : Ordered d.entries) (hp : es.Perm d.entries) :
    ofList es = d := by
  have distinct : (d.entries.map Prod.fst).Nodup :=
    List.pairwise_map.mpr (ho.imp fun h he => by rw [he, keyLt_irrefl] at h; cases h)
  obtain ⟨hor, hpr⟩ := foldl_insert (d := empty) ((hp.map Prod.fst).symm.nodup distinct) (fun _ _ _ h => nomatch h) .nil
  have he : (ofList es).entries = d.entries :=
    List.Perm.eq_of_pairwise (fun e f _ _ h h' => by rw [keyLt_asymm h] at h'; cases h') hor ho (hpr.trans hp)
  cases h : ofList es
  cases d
  rw [h] at he
  exact congrArg Dict.mk he

end Dict

end PdfContent
