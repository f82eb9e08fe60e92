import PdfContent.Proofs.Content.Operator
import PdfContent.Proofs.Drawing.Begins
import PdfContent.Proofs.Drawing.Outcome
/-!
# Nesting — nested content always ends

Forms, soft masks and tilings count one level of nesting, glyphs that are content count another, and the cell of a tiling
starts the second count anew.  So the pair of both counts grows along every chain of contents that are drawn inside of
each other, and no chain is longer than its values allow (`Chain.room`).  The levels that a drawing is given are therefore
never used up (`unrolled_levels`).
-/
namespace PdfContent.Machine

variable {α : Type} [Scalar α] {env : Environment α} {m n : Machine α} {kind : Nest} {t : Task α}

/-! ## The measure -/

/-- How much content can still nest: a tiling may use up one level for all glyphs of the next one. -/
def room (m : Machine α) : Nat :=
  (maxContentNesting + 1 - m.nesting) * (maxContentNesting + 2) + (maxContentNesting + 1 - m.glyphDepth)

omit [Scalar α] in
theorem AtDepth.room_eq {a b : Nat} (hm : AtDepth a b m) (hn : AtDepth a b n) : room n = room m := by
  unfold room
  rw [hm.1, hm.2, hn.1, hn.2]

theorem Begins.room_lt (h : Begins env m kind t) : room t.machine < room m := by
  unfold room maxContentNesting
  obtain ⟨-, hm, ht⟩ | ⟨-, hm, ht⟩ | ⟨-, hm, ht⟩ := h.counts
  all_goals
    unfold maxContentNesting at hm
    rw [ht.1, ht.2]
    omega

omit [Scalar α] in
theorem room_lt_levels (m : Machine α) : room m < levels := by
  unfold room levels maxContentNesting
  omega

/-! ## The levels are never used up -/

/-- Content in which other content may nest to some level, below which it is drawn by `base`. -/
def unrolled (env : Environment α) (base : Inner α) : Nat → Inner α
  | 0 => base
  | level + 1 => fun items m => m.content env (unrolled env base level) items

/-- With more levels than a machine has room for, it does not matter how many there are and what is below them. -/
theorem unrolled_of_room (base : Inner α) (items : List Content.Item) :
    ∀ (k l : Nat) (m : Machine α), room m < k → room m < l → run env k items m = unrolled env base l items m := by
  intro k
  induction k generalizing items with
  | zero => exact fun _ _ hk => absurd hk (Nat.not_lt_zero _)
  | succ k ih =>
    intro l m hk hl
    cases l with
    | zero => exact absurd hl (Nat.not_lt_zero _)
    | succ l =>
      have agree : Agree env m.nesting m.glyphDepth (run env k) (unrolled env base l) := by
        refine ⟨Draws.run k, fun {n _ t} hn hb => ih t.items l t.machine ?_ ?_⟩
        all_goals
          have less := hb.room_lt
          have same : room n = room m := AtDepth.room_eq ⟨rfl, rfl⟩ hn
          omega
      exact agree.content ⟨rfl, rfl⟩ items

/-- **The levels are never used up**: a drawing does not depend on what would happen below them. -/
theorem unrolled_levels (env : Environment α) (base : Inner α) : unrolled env base levels = run env levels := by
  funext items m
  exact (unrolled_of_room base items levels levels m (room_lt_levels m) (room_lt_levels m)).symm

/-- Nested content is drawn just as content that is not nested. -/
theorem run_levels (env : Environment α) (items : List Content.Item) (m : Machine α) :
    run env levels items m = m.content env (run env levels) items := by
  have more : run env levels items m = unrolled env (fun _ m => m) (levels + 1) items m :=
    unrolled_of_room _ items levels (levels + 1) m (room_lt_levels m) (Nat.lt_succ_of_lt (room_lt_levels m))
  rw [more, unrolled, unrolled_levels]

/-! ## Chains of nested content -/

/-- Drawing some content begins other content: it depends on how the other content is drawn. -/
def Starts (env : Environment α) (t u : Task α) : Prop :=
  ∃ inner : Inner α, (∀ v : Task α, v ≠ u → inner v.items v.machine = run env levels v.items v.machine) ∧
    t.machine.content env inner t.items ≠ run env levels t.items t.machine

/-- Contents that are drawn inside of each other, from `root` to another one, and how each of them but the root came to
be nested, the innermost first.  What content begins, it begins on a machine with the same counts. -/
inductive Chain (env : Environment α) (root : Task α) : List Nest → Task α → Prop where
  | root : Chain env root [] root
  | nest {kinds kind t u m} (h : Chain env root kinds t) (hm : AtDepth t.machine.nesting t.machine.glyphDepth m)
      (hb : Begins env m kind u) : Chain env root (kind :: kinds) u

/-- **Only forms, tilings and glyphs within their limits are started.** -/
theorem Starts.begins {t u : Task α} (h : Starts env t u) :
    ∃ kind m, AtDepth t.machine.nesting t.machine.glyphDepth m ∧ Begins env m kind u := by
  obtain ⟨inner, others, differs⟩ := h
  refine Classical.byContradiction fun none => differs ?_
  have agree : Agree env t.machine.nesting t.machine.glyphDepth (run env levels) inner := by
    refine ⟨Draws.run levels, fun {m kind v} hm hb => (others v ?_).symm⟩
    rintro rfl
    exact none ⟨kind, m, hm, hb⟩
  rw [run_levels, agree.content ⟨rfl, rfl⟩]

namespace Chain

variable {root : Task α} {kinds : List Nest}

/-- Every content of a chain uses up some of the room. -/
theorem room (h : Chain env root kinds t) : kinds.length + t.machine.room ≤ root.machine.room := by
  induction h with
  | root => exact Nat.le_of_eq (Nat.zero_add _)
  | nest _ hm hb ih =>
    have less := hb.room_lt
    have same := AtDepth.room_eq ⟨rfl, rfl⟩ hm
    rw [List.length_cons]
    omega

/-- The first count is that of the forms, soft masks and tilings. -/
theorem nesting (hr : root.machine.nesting = 0) (h : Chain env root kinds t) :
    kinds.countP (· ≠ .glyph) = t.machine.nesting ∧ t.machine.nesting ≤ maxContentNesting + 1 := by
  induction h with
  | root => exact ⟨hr.symm, hr ▸ Nat.zero_le _⟩
  | nest _ hm hb ih =>
    obtain ⟨count, bound⟩ := ih
    rw [← hm.1] at count bound
    obtain ⟨rfl, limit, hu⟩ | ⟨rfl, limit, hu⟩ | ⟨rfl, -, hu⟩ := hb.counts
    · rw [List.countP_cons_of_pos (by decide), count, hu.1]
      exact ⟨rfl, Nat.succ_le_succ limit⟩
    · rw [List.countP_cons_of_pos (by decide), count, hu.1]
      exact ⟨rfl, Nat.succ_le_succ limit⟩
    · rw [List.countP_cons_of_neg (by decide), count, hu.1]
      exact ⟨rfl, bound⟩

/-- The second count is that of the glyphs since the last tiling. -/
theorem glyphs (h : Chain env root kinds t) {inst outer : List Nest} (hk : kinds = inst ++ outer)
    (ht : .tiling ∉ inst) : inst.count .glyph ≤ t.machine.glyphDepth := by
  induction h generalizing inst with
  | root =>
    rw [List.nil_eq_append_iff.mp hk |>.1]
    exact Nat.zero_le _
  | @nest kinds kind _ _ _ _ hm hb ih =>
    cases inst with
    | nil => exact Nat.zero_le _
    | cons k inst =>
      obtain ⟨rfl, hk'⟩ := List.cons.inj hk
      have before := ih hk' fun h => ht (List.mem_cons_of_mem _ h)
      rw [← hm.2] at before
      obtain ⟨rfl, -, hu⟩ | ⟨rfl, -, -⟩ | ⟨rfl, -, hu⟩ := hb.counts
      · rw [List.count_cons_of_ne (by decide), hu.2]
        exact before
      · exact absurd List.mem_cons_self ht
      · rw [List.count_cons_self, hu.2]
        exact Nat.succ_le_succ before

theorem glyphDepth_le (hr : root.machine.glyphDepth = 0) (h : Chain env root kinds t) :
    t.machine.glyphDepth ≤ maxContentNesting + 1 := by
  induction h with
  | root => exact hr ▸ Nat.zero_le _
  | nest _ hm hb ih =>
    rw [← hm.2] at ih
    obtain ⟨-, -, hu⟩ | ⟨-, -, hu⟩ | ⟨-, limit, hu⟩ := hb.counts <;> rw [hu.2]
    · exact ih
    · exact Nat.zero_le _
    · exact Nat.succ_le_succ limit

/-- The outer contents of a chain are a chain. -/
theorem outer {inner outer : List Nest} (h : Chain env root (inner ++ outer) t) : ∃ u, Chain env root outer u := by
  induction inner generalizing t with
  | nil => exact ⟨t, h⟩
  | cons kind inner ih =>
    cases h with
    | nest h _ _ => exact ih h

end Chain

/-! ## What a session can draw -/

/-- What can be drawn: a stream, or an array of streams. -/
def IsContent (st : Store) (o : Object) : Prop :=
  (∃ s, st.resolve o = .stream s) ∨
    ∃ items, st.resolve o = .array items ∧ ∀ x ∈ items, ∃ s, st.resolve x = .stream s

theorem Object.stream?_isSome {o : Object} : o.stream?.isSome ↔ ∃ s, o = .stream s := by
  cases o <;> simp [Object.stream?]

theorem isSome_mapM {β γ : Type} (f : β → Option γ) (xs : List β) : (xs.mapM f).isSome ↔ ∀ x ∈ xs, (f x).isSome := by
  induction xs with
  | nil => simp
  | cons x xs ih =>
    rw [List.mapM_cons, List.forall_mem_cons, ← ih]
    cases f x with
    | none => simp
    | some y => cases xs.mapM f <;> simp

/-- **Drawing fails for what is no content, and for nothing else.** -/
theorem draw_isOk (env : Environment α) (o : Object) (m : Machine α) :
    (∃ n, m.draw env o = .ok n) ↔ IsContent env.store o := by
  unfold draw contentBytes IsContent
  cases hr : env.store.resolve o with
  | stream s => exact ⟨fun _ => .inl ⟨s, rfl⟩, fun _ => ⟨_, rfl⟩⟩
  | array items =>
    have streams : ((items.mapM fun o => (env.store.resolve o).stream?).isSome) ↔
        ∀ x ∈ items, ∃ s, env.store.resolve x = .stream s := by
      rw [isSome_mapM]
      exact forall₂_congr fun _ _ => Object.stream?_isSome
    cases hs : items.mapM fun o => (env.store.resolve o).stream? with
    | none =>
      rw [hs] at streams
      refine ⟨?_, ?_⟩
      · rintro ⟨n, hn⟩
        simp [hs, Except.map] at hn
      · rintro (⟨_, h⟩ | ⟨_, same, h⟩)
        · cases h
        · cases same
          exact absurd (streams.mpr h) Bool.false_ne_true
    | some contents =>
      rw [hs] at streams
      simp only [hs]
      exact ⟨fun _ => .inr ⟨items, rfl, streams.mp rfl⟩, fun _ => ⟨_, rfl⟩⟩
  | _ => simp [Except.map]

/-- **A drawing returns if it does not fail and nothing in it panics.** -/
theorem draw_returns (env : Environment α) (o : Object) (m : Machine α) :
    (∃ n, m.draw env o = .ok n ∧ n.outcome = .ok n) ↔
      IsContent env.store o ∧ ∀ n, m.draw env o = .ok n → ∀ e ∈ n.log, e.panic? = none := by
  rw [← draw_isOk env o m]
  constructor
  · rintro ⟨n, drawn, whole⟩
    refine ⟨⟨n, drawn⟩, fun k again => ?_⟩
    cases drawn.symm.trans again
    exact (outcome_ok_iff.mp whole).2
  · rintro ⟨⟨n, drawn⟩, quiet⟩
    exact ⟨n, drawn, outcome_ok_iff.mpr ⟨rfl, quiet n drawn⟩⟩

theorem session_atDepth (env : Environment α) (origin : Origin α) (requests : List Request) :
    AtDepth 0 0 (session env origin requests) := by
  refine session_induction (P := AtDepth 0 0) ?_ (fun m n h hm => hm.draws h) (fun m _ _ _ hm => hm) requests
  cases origin with
  | cell => exact ⟨rfl, rfl⟩
  | page p =>
    obtain ⟨m, h, hp⟩ := startPage_draws env p
    have hl : AtDepth 0 0 (pageLevel env p) := ⟨rfl, rfl⟩
    have hm := hl.draws h
    rw [opening, hp]
    exact hm

/-! ## Forms are started -/

theorem drawForm_compatibility (inner : Inner α) (f : Form α) (use : FormUse α) (m : Machine α) :
    (m.drawForm env inner f use).compatibility =
      (inner (formTask env f use m).items (formTask env f use m).machine).compatibility := by
  have popped (k : Machine α) : k.popResources.compatibility = k.compatibility := by
    obtain ⟨_, hp⟩ := popResources_eq k
    rw [hp]
  have restored (k : Machine α) : k.restoreState.compatibility = k.compatibility := by
    unfold restoreState
    split <;> rfl
  have nested (k : Machine α) :
      (k.runNested env inner f.content).compatibility =
        (inner (contentOf env.store f.content)
          { k with restoreFloor := k.saved.length }).compatibility :=
    restoreTo_eq (f := fun k : Machine α => k.compatibility) restored _ _
  have left (k : Machine α) : (k.leaveForm use).compatibility = k.compatibility := by
    rw [leaveForm_eq]
    cases use <;> exact (popped _).trans (restored _)
  exact (left _).trans (nested _)

/-- A form of the resources is started by the operator that draws it. -/
theorem starts_form {name : Name} {o : Object} {s : Stream} {f : Form α} {use : FormUse α} (stop : Thunk Nat)
    (hr : m.resource? env.store "XObject" name = some o) (ho : env.store.resolve o = .stream s)
    (hs : (env.store.lookup? s.dict "Subtype" : Option Name) = some (.ofText "Form"))
    (hf : Form.ofStream? env.store s = some f) (hu : f.useOf env.store = .ok use) (hn : m.nesting ≤ maxContentNesting) :
    Starts env ⟨[.operand (.name name) stop, .command (Bytes.ofText "Do") none], m⟩
      (formTask env f use { m with history := m.history.push "Do" }) := by
  let op := Operator.of "Do" [.name] .drawObject
  let u := formTask env f use { m with history := m.history.push "Do" }
  have found : Operator.find? (Bytes.ofText "Do") = some op := Operator.find?_eq_some_iff.mpr ⟨by decide, rfl⟩
  have drawn (inner : Inner α) : ({ m with history := m.history.push "Do" }.drawObject env inner name) =
      drawForm env inner f use { m with history := m.history.push "Do" } := by
    rw [drawObject_form (m := { m with history := m.history.push "Do" }) inner hr ho hs, drawFormStream,
      if_neg (Nat.not_lt.mpr hn), hf]
    dsimp only
    rw [hu]
    rfl
  have compatibility (inner : Inner α) :
      (m.content env inner [.operand (.name name) stop, .command (Bytes.ofText "Do") none]).compatibility =
        (inner u.items u.machine).compatibility := by
    have one : m.content env inner [.operand (.name name) stop, .command (Bytes.ofText "Do") none] =
        m.perform env inner op [.name name] none := by
      show m.command env inner (Bytes.ofText "Do") [.name name] none = _
      unfold command
      rw [found]
      rfl
    rw [one]
    exact (congrArg (fun k : Machine α => k.compatibility) (drawn inner)).trans (drawForm_compatibility inner f _ _)
  classical
  let inner : Inner α := fun items k =>
    if (⟨items, k⟩ : Task α) = u then { k with compatibility := (run env levels items k).compatibility + 1 }
    else run env levels items k
  refine ⟨inner, fun v hv => if_neg hv, fun same => ?_⟩
  have counts := congrArg (fun k : Machine α => k.compatibility) same
  have changed : (inner u.items u.machine).compatibility = (run env levels u.items u.machine).compatibility + 1 :=
    congrArg (fun k : Machine α => k.compatibility) (if_pos rfl)
  rw [run_levels] at counts
  dsimp only at counts
  rw [compatibility, compatibility, changed] at counts
  omega

/-! ## Nested content ends -/

/-- **Nested content always ends**, whatever the store and however its contents reach each other.  What content starts
extends the chain of contents that are being drawn.  A chain has at most 21 forms, soft masks and tilings, within one
instance at most 21 glyphs, and at most 483 contents in all.  So no drawing uses up its levels, nested content is drawn
like any other, and a drawing fails for an object that is no content, and else only by a panic.  What a drawing starts
before a panic is part of what it would start if it went on. -/
theorem nested_content_ends (env : Environment α) (origin : Origin α) (requests : List Request)
    (items : List Content.Item) :
    (∀ kinds t, Chain env ⟨items, session env origin requests⟩ kinds t →
      kinds.countP (· ≠ .glyph) ≤ 21 ∧
      (∀ inst, inst <:+: kinds → .tiling ∉ inst → inst.count .glyph ≤ 21) ∧
      kinds.length ≤ 483 ∧
      ∀ u, Starts env t u → ∃ kind, Chain env ⟨items, session env origin requests⟩ (kind :: kinds) u) ∧
    (∀ base, unrolled env base levels = run env levels) ∧
    (∀ items m, run env levels items m = m.content env (run env levels) items) ∧
    (∀ o, (∃ n, (session env origin requests).draw env o = .ok n) ↔ IsContent env.store o) ∧
    ∀ o, (∃ n, (session env origin requests).draw env o = .ok n ∧ n.outcome = .ok n) ↔ IsContent env.store o ∧
      ∀ n, (session env origin requests).draw env o = .ok n → ∀ e ∈ n.log, e.panic? = none := by
  obtain ⟨hn, hg⟩ := session_atDepth env origin requests
  refine ⟨fun kinds t h => ⟨?_, ?_, ?_, ?_⟩, unrolled_levels env, run_levels env, fun o => draw_isOk env o _,
    fun o => draw_returns env o _⟩
  · obtain ⟨count, bound⟩ := h.nesting hn
    rw [count]
    exact bound
  · rintro inst ⟨inner, outer, rfl⟩ ht
    rw [List.append_assoc] at h
    obtain ⟨u, hu⟩ := h.outer
    exact Nat.le_trans (hu.glyphs rfl ht) (hu.glyphDepth_le hg)
  · have all := h.room
    have most := room_lt_levels (session env origin requests)
    rw [levels] at most
    unfold maxContentNesting at most
    dsimp only at all
    omega
  · intro u hu
    obtain ⟨kind, m, hm, hb⟩ := hu.begins
    exact ⟨kind, .nest h hm hb⟩

/-- A form whose content draws the form itself. -/
theorem recursive_form_ends :
    let form : Stream := ⟨.ofList [(.ofText "Subtype", .name (.ofText "Form")),
      (.ofText "BBox", .array (List.replicate 4 (.num (.int 0))))], Bytes.ofText "/F Do"⟩
    let resources : Dict := .ofList [(.ofText "XObject", .dict (.ofList [(.ofText "F", .stream form)]))]
    let env : Environment Float := ⟨.empty, .silent, true, .default⟩
    let items : List Content.Item := [.operand (.name (.ofText "F")) (Thunk.pure 0), .command (Bytes.ofText "Do") none]
    let page : Task Float := ⟨items, session env (.cell resources ⟨0, 0, 0, 0⟩) []⟩
    ∃ u, Starts env page u ∧ ∃ kind, Chain env page [kind] u := by
  intro form resources env items page
  have started : Starts env page _ := starts_form (s := form) _ rfl rfl rfl rfl rfl (Nat.zero_le _)
  exact ⟨_, started, ((nested_content_ends env _ [] items).1 [] page .root).2.2.2 _ started⟩

end PdfContent.Machine
