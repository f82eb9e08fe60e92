import Mathlib.Data.List.Nodup
import PdfContent.Drawing.Parameters
/-!
# ParameterOrder — the entries of a dictionary of parameters in any order

A parameter sets slots of the state to values that come from the dictionary alone.  Within one dictionary every slot is
set by one key (`owner`): where two keys could set it, one of them counts only if the other is missing.  So entries with
different keys set different slots, and in whatever order they are applied the same values are set and the same faults
are reported (`parameters_in_any_order`).
-/
namespace PdfContent.Machine

open Scalar

variable {α : Type} [Scalar α] {env : Environment α}

/-! ## Slots -/

/-- A part of the state that parameters set. -/
inductive Slot where
  | lineWidth
  | lineCap
  | lineJoin
  | miterLimit
  | dashes
  | dashPhase
  | intent
  | flatness
  /-- The font and its size. -/
  | font
  | blendMode
  | opacity (part : Part)
  | overprint (part : Part)
  | overprintMode
  | strokeAdjust
  | transfer

def Slot.Value (α : Type) : Slot → Type
  | .lineWidth | .miterLimit | .dashPhase | .flatness => Float
  | .lineCap => LineCap
  | .lineJoin => LineJoin
  | .dashes => List Float
  | .intent => String
  | .font => Option Font × α
  | .blendMode => BlendMode
  | .opacity _ => Float32
  | .overprint _ => Bool
  | .overprintMode => Nat
  | .strokeAdjust => Bool
  | .transfer => Option Transfer

structure Write (α : Type) where
  slot : Slot
  value : slot.Value α

/-- Sets a slot.  A new font has to be told to the builder. -/
def write (m : Machine α) : Write α → Machine α
  | ⟨.lineWidth, lineWidth⟩ => m.modifyState fun s => { s with lineWidth }
  | ⟨.lineCap, lineCap⟩ => m.modifyState fun s => { s with lineCap }
  | ⟨.lineJoin, lineJoin⟩ => m.modifyState fun s => { s with lineJoin }
  | ⟨.miterLimit, miterLimit⟩ => m.modifyState fun s => { s with miterLimit }
  | ⟨.dashes, dashes⟩ => m.modifyState fun s => { s with dashes }
  | ⟨.dashPhase, dashPhase⟩ => m.modifyState fun s => { s with dashPhase }
  | ⟨.intent, intent⟩ => m.modifyState fun s => { s with intent }
  | ⟨.flatness, flatness⟩ => m.modifyState fun s => { s with flatness }
  | ⟨.font, font⟩ => m.useFont font.1 font.2
  | ⟨.blendMode, blendMode⟩ => m.modifyState fun s => { s with blendMode }
  | ⟨.opacity .fill, opacity⟩ => m.modifyState fun s => { s with fill := { s.fill with opacity } }
  | ⟨.opacity .stroke, opacity⟩ => m.modifyState fun s => { s with stroke := { s.stroke with opacity } }
  | ⟨.overprint .fill, overprint⟩ => m.modifyState fun s => { s with fill := { s.fill with overprint } }
  | ⟨.overprint .stroke, overprint⟩ => m.modifyState fun s => { s with stroke := { s.stroke with overprint } }
  | ⟨.overprintMode, overprintMode⟩ => m.modifyState fun s => { s with overprintMode }
  | ⟨.strokeAdjust, strokeAdjust⟩ => m.modifyState fun s => { s with strokeAdjust }
  | ⟨.transfer, transfer⟩ => m.modifyState fun s => { s with transfer }

omit [Scalar α] in
/-- Different slots do not touch each other. -/
theorem write_comm (v w : Write α) (h : v.slot ≠ w.slot) (m : Machine α) :
    (m.write v).write w = (m.write w).write v := by
  -- as slots are fields of the state, each pair of them is a computation
  obtain ⟨_ | _ | _ | _ | _ | _ | _ | _ | _ | _ | (_ | _) | (_ | _) | _ | _ | _, v⟩ := v <;>
    obtain ⟨_ | _ | _ | _ | _ | _ | _ | _ | _ | _ | (_ | _) | (_ | _) | _ | _ | _, w⟩ := w <;>
    first
      | rfl
      | exact absurd rfl h

omit [Scalar α] in
theorem write_foldl_comm {v : Write α} {ws : List (Write α)} (h : ∀ w ∈ ws, v.slot ≠ w.slot) (m : Machine α) :
    ws.foldl write (m.write v) = (ws.foldl write m).write v := by
  induction ws generalizing m with
  | nil => simp only [List.foldl_nil]
  | cons w ws ih =>
    rw [List.foldl_cons, List.foldl_cons, write_comm v w (h w (.head _)), ih (fun w hw => h w (.tail _ hw))]

omit [Scalar α] in
theorem foldl_write_comm {vs ws : List (Write α)} (h : ∀ v ∈ vs, ∀ w ∈ ws, v.slot ≠ w.slot) (m : Machine α) :
    ws.foldl write (vs.foldl write m) = vs.foldl write (ws.foldl write m) := by
  induction vs generalizing m with
  | nil => simp only [List.foldl_nil]
  | cons v vs ih =>
    rw [List.foldl_cons, List.foldl_cons, ih (fun v hv => h v (.tail _ hv)), write_foldl_comm (h v (.head _))]

/-! ## What a parameter does -/

/-- What an entry does to any machine. -/
structure Effect (α : Type) where
  writes : List (Write α)
  faults : List Diagnostic

def Effect.on (e : Effect α) (m : Machine α) : Machine α := (e.writes.foldl write m).reportAll e.faults

def owner (d : Dict) : Slot → Name
  | .lineWidth => "LW"
  | .lineCap => "LC"
  | .lineJoin => "LJ"
  | .miterLimit => "ML"
  | .dashes | .dashPhase => "D"
  | .intent => "RI"
  | .flatness => "FL"
  | .font => "Font"
  | .blendMode => "BM"
  | .opacity .fill => "ca"
  | .opacity .stroke => "CA"
  | .overprint .fill => if d.contains "op" then "op" else "OP"
  | .overprint .stroke => "OP"
  | .overprintMode => "OPM"
  | .strokeAdjust => "SA"
  | .transfer => if d.contains "TR2" then "TR2" else "TR"

/-- A step of which `key` decides what it does: it sets slots of the key and reports faults, the same for every
machine. -/
def ActsFor (d : Dict) (key : Name) (f : Machine α → Machine α) : Prop :=
  ∃ e : Effect α, (∀ w ∈ e.writes, owner d w.slot = key) ∧ ∀ m, f m = e.on m

namespace ActsFor

variable {d : Dict} {key : Name} {f g : Machine α → Machine α}

omit [Scalar α] in
theorem writes (ws : List (Write α)) (h : ∀ w ∈ ws, owner d w.slot = key) :
    ActsFor d key fun m : Machine α => ws.foldl write m :=
  ⟨⟨ws, []⟩, h, fun m => by simp only [Effect.on, reportAll, List.foldl_nil]⟩

omit [Scalar α] in
theorem nothing : ActsFor d key fun m : Machine α => m := by
  simpa only [List.foldl_nil] using writes (α := α) [] (List.forall_mem_nil _)

omit [Scalar α] in
theorem report (e : Diagnostic) : ActsFor d key fun m : Machine α => m.report e :=
  ⟨⟨[], [e]⟩, List.forall_mem_nil _, fun m => by simp only [Effect.on, reportAll, List.foldl_cons, List.foldl_nil]⟩

omit [Scalar α] in
theorem write (w : Write α) (h : owner d w.slot = key) : ActsFor d key fun m : Machine α => m.write w := by
  simpa only [List.foldl_cons, List.foldl_nil] using writes [w] (List.forall_mem_singleton.mpr h)

omit [Scalar α] in
theorem modifyWith {β : Type} {f : State α → β → State α} (v : Option β) (w : β → Write α)
    (hf : ∀ x (m : Machine α), m.write (w x) = m.modifyState (f · x)) (h : ∀ x, owner d (w x).slot = key) :
    ActsFor d key fun m : Machine α => m.modifyWith v f := by
  cases v with
  | none => exact nothing
  | some x => simpa only [Machine.modifyWith, hf] using write (w x) (h x)

omit [Scalar α] in
/-- The dashes are set even if there is no phase. -/
theorem setDashes (st : Store) : ActsFor d "D" fun m : Machine α => m.setDashes st d := by
  unfold Machine.setDashes
  split
  case h_1 => exact nothing
  case h_2 items _ =>
    split
    case h_1 => exact nothing
    case h_2 dashes _ =>
      cases hp : (st.item? items 1 : Option Float) with
      | none => exact write ⟨.dashes, dashes⟩ rfl
      | some phase =>
        refine writes [⟨.dashes, dashes⟩, ⟨.dashPhase, phase⟩] ?_
        exact List.forall_mem_cons.mpr ⟨rfl, List.forall_mem_singleton.mpr rfl⟩

omit [Scalar α] in
theorem setTransfer (st : Store) (o : Object) (h : owner d .transfer = key) :
    ActsFor d key fun m : Machine α => m.setTransfer st o := by
  unfold Machine.setTransfer
  split
  case h_1 transfer _ => exact write ⟨.transfer, transfer⟩ h
  case h_2 e _ => exact report e

omit [Scalar α] in
theorem setBlendMode (st : Store) (o : Object) : ActsFor d "BM" fun m : Machine α => m.setBlendMode st o := by
  unfold Machine.setBlendMode
  split
  case h_1 mode _ => exact write ⟨.blendMode, mode⟩ rfl
  case h_2 => exact report _

omit [Scalar α] in
/-- Fills follow the overprint of strokes unless they have an entry of their own. -/
theorem setOverprint (v : Option Bool) : ActsFor d "OP" fun m : Machine α => m.setOverprint d v := by
  cases v with
  | none => exact nothing
  | some overprint =>
    unfold Machine.setOverprint
    split
    case isTrue => exact write ⟨.overprint .stroke, overprint⟩ rfl
    case isFalse h =>
      have fill : owner d (.overprint .fill) = "OP" := if_neg h
      refine writes [⟨.overprint .stroke, overprint⟩, ⟨.overprint .fill, overprint⟩] ?_
      exact List.forall_mem_cons.mpr ⟨rfl, List.forall_mem_singleton.mpr fill⟩

/-- The font that is loaded does not depend on the machine, and if none is the size still counts. -/
theorem setFontParameter : ActsFor d "Font" fun m : Machine α => m.setFontParameter env d := by
  unfold Machine.setFontParameter
  split
  case h_1 o size items _ =>
    cases (env.store.as? size : Option Float) with
    | none => exact nothing
    | some size =>
      unfold loadFont
      cases (env.store.resolve o).dict? with
      | none => exact write ⟨.font, none, ofFloat size⟩ rfl
      | some fd =>
        dsimp only
        cases Font.ofDict env.store fd with
        | ok f => exact write ⟨.font, some f, ofFloat size⟩ rfl
        | error e =>
          refine ⟨⟨[⟨.font, none, ofFloat size⟩], [e]⟩, List.forall_mem_singleton.mpr rfl, fun m => ?_⟩
          rfl
  case h_2 => exact nothing

omit [Scalar α] in
theorem branch {p : Prop} [Decidable p] (ht : p → ActsFor d key f) (hf : ¬p → ActsFor d key g) :
    ActsFor d key fun m => if p then f m else g m := by
  by_cases hp : p
  · simpa only [hp, if_true] using ht hp
  · simpa only [hp, if_false] using hf hp

variable (env) in
/-- **An entry acts for its key.** -/
theorem setParameter (o : Object) (h : d.contains key = true) :
    ActsFor d key fun m : Machine α => m.setParameter env d (key, o) := by
  have single {β : Type} {f : State α → β → State α} {k : Name} (v : Option β) (w : β → Write α)
      (hf : ∀ x (m : Machine α), m.write (w x) = m.modifyState (f · x)) (ho : ∀ x, owner d (w x).slot = k)
      (hk : (key == k) = true) : ActsFor d key fun m : Machine α => m.modifyWith v f :=
    modifyWith v w hf fun x => (ho x).trans (eq_of_beq hk).symm
  -- one branch for each key, in the order of `Machine.setParameter`
  refine branch (single _ (⟨.lineWidth, ·⟩) (fun _ _ => rfl) fun _ => rfl) fun _ => ?_
  refine branch (single _ (⟨.lineCap, ·⟩) (fun _ _ => rfl) fun _ => rfl) fun _ => ?_
  refine branch (single _ (⟨.lineJoin, ·⟩) (fun _ _ => rfl) fun _ => rfl) fun _ => ?_
  refine branch (single _ (⟨.miterLimit, ·⟩) (fun _ _ => rfl) fun _ => rfl) fun _ => ?_
  refine branch (fun hk => eq_of_beq hk ▸ setDashes _) fun _ => ?_
  refine branch (single _ (fun n : Name => ⟨.intent, n.text⟩) (fun _ _ => rfl) fun _ => rfl) fun _ => ?_
  refine branch (single _ (⟨.flatness, ·⟩) (fun _ _ => rfl) fun _ => rfl) fun _ => ?_
  refine branch (fun hk => eq_of_beq hk ▸ setFontParameter) fun _ => ?_
  refine branch (fun hk => eq_of_beq hk ▸ setBlendMode _ o) fun _ => ?_
  refine branch (single _ (⟨.opacity .fill, ·⟩) (fun _ _ => rfl) fun _ => rfl) fun _ => ?_
  refine branch (single _ (⟨.opacity .stroke, ·⟩) (fun _ _ => rfl) fun _ => rfl) fun _ => ?_
  refine branch (fun hk => single _ (⟨.overprint .fill, ·⟩) (fun _ _ => rfl) (fun _ => if_pos (eq_of_beq hk ▸ h)) hk)
    fun _ => ?_
  refine branch (fun hk => eq_of_beq hk ▸ setOverprint _) fun _ => ?_
  refine branch (single _ (fun n : UInt8 => ⟨.overprintMode, n.toNat⟩) (fun _ _ => rfl) fun _ => rfl) fun _ => ?_
  refine branch (single _ (⟨.strokeAdjust, ·⟩) (fun _ _ => rfl) fun _ => rfl) fun _ => ?_
  refine branch (fun hk => setTransfer _ o ?_) fun _ => ?_
  · exact (if_pos (eq_of_beq hk ▸ h)).trans (eq_of_beq hk).symm
  refine branch (fun hk => branch (fun _ => nothing) fun hn => setTransfer _ o ?_) fun _ => nothing
  exact (if_neg hn).trans (eq_of_beq hk).symm

end ActsFor

/-! ## Any order -/

omit [Scalar α] in
theorem write_report (w : Write α) (e : Diagnostic) (m : Machine α) :
    (m.report e).write w = (m.write w).report e := by
  obtain ⟨_ | _ | _ | _ | _ | _ | _ | _ | _ | _ | (_ | _) | (_ | _) | _ | _ | _, v⟩ := w <;> rfl

omit [Scalar α] in
theorem writes_reportAll (ws : List (Write α)) (es : List Diagnostic) (m : Machine α) :
    ws.foldl write (m.reportAll es) = (ws.foldl write m).reportAll es := by
  have reported (e : Diagnostic) (m : Machine α) : ws.foldl write (m.report e) = (ws.foldl write m).report e := by
    induction ws generalizing m with
    | nil => simp only [List.foldl_nil]
    | cons w ws ih => rw [List.foldl_cons, List.foldl_cons, write_report, ih]
  unfold reportAll
  induction es generalizing m with
  | nil => simp only [List.foldl_nil]
  | cons e es ih => rw [List.foldl_cons, List.foldl_cons, ih, reported]

omit [Scalar α] in
theorem log_write (w : Write α) (m : Machine α) : (m.write w).log = m.log := by
  obtain ⟨_ | _ | _ | _ | _ | _ | _ | _ | _ | _ | (_ | _) | (_ | _) | _ | _ | _, v⟩ := w <;> rfl

omit [Scalar α] in
/-- Nothing is told the builder while slots are set. -/
theorem log_writes (ws : List (Write α)) (m : Machine α) : (ws.foldl write m).log = m.log := by
  induction ws generalizing m with
  | nil => simp only [List.foldl_nil]
  | cons w ws ih => rw [List.foldl_cons, ih, log_write]

/-- What several entries do, the reports last. -/
def Effect.ofAll (e : Name × Object → Effect α) (l : List (Name × Object)) : Effect α :=
  ⟨l.flatMap fun p => (e p).writes, l.flatMap fun p => (e p).faults⟩

omit [Scalar α] in
/-- Entries one after the other set what all of them set and report what all of them report. -/
theorem foldl_on {step : Machine α → Name × Object → Machine α} {e : Name × Object → Effect α}
    {l : List (Name × Object)} (h : ∀ p ∈ l, ∀ m, step m p = (e p).on m) (m : Machine α) :
    l.foldl step m = (Effect.ofAll e l).on m := by
  induction l generalizing m with
  | nil => simp only [Effect.ofAll, Effect.on, reportAll, List.flatMap_nil, List.foldl_nil]
  | cons p l ih =>
    rw [List.foldl_cons, h p (.head _), ih fun p hp => h p (.tail _ hp)]
    simp only [Effect.ofAll, Effect.on, List.flatMap_cons, List.foldl_append, writes_reportAll]
    simp only [reportAll, List.foldl_append]

/-- The entries that are applied before the soft mask is drawn. -/
def others (d : Dict) : List (Name × Object) := d.entries.filter (·.1 != "SMask")

theorem setParameter_softMask (d : Dict) (o : Object) (m : Machine α) : m.setParameter env d ("SMask", o) = m := rfl

/-- Drawing the soft mask has its own turn, so its entry does nothing among the others. -/
theorem foldl_others (d : Dict) (m : Machine α) :
    (others d).foldl (setParameter env d) m = d.entries.foldl (setParameter env d) m := by
  unfold others
  induction d.entries generalizing m with
  | nil => rfl
  | cons p l ih =>
    obtain ⟨key, o⟩ := p
    by_cases hk : key = "SMask"
    · rw [List.filter_cons_of_neg (by simp [hk]), List.foldl_cons, hk, setParameter_softMask, ih]
    · rw [List.filter_cons_of_pos (by simpa using hk), List.foldl_cons, List.foldl_cons, ih]

theorem contains_of_mem {d : Dict} {p : Name × Object} (h : p ∈ d.entries) : d.contains p.1 = true :=
  List.lookup_isSome_iff.mpr ⟨p, h, beq_self_eq_true p.1⟩

theorem exists_effects (env : Environment α) (d : Dict) : ∃ e : Name × Object → Effect α, ∀ p, p ∈ d.entries →
    (∀ w ∈ (e p).writes, owner d w.slot = p.1) ∧ ∀ m, m.setParameter env d p = (e p).on m := by
  have each : ∀ p : Name × Object, ∃ e : Effect α, p ∈ d.entries →
      (∀ w ∈ e.writes, owner d w.slot = p.1) ∧ ∀ m, m.setParameter env d p = e.on m := by
    intro p
    by_cases hp : p ∈ d.entries
    · obtain ⟨e, he⟩ := ActsFor.setParameter env p.2 (contains_of_mem hp)
      exact ⟨e, fun _ => he⟩
    · exact ⟨⟨[], []⟩, fun h => absurd h hp⟩
  exact Classical.skolem.mp each

/-- The same machine, on which nothing was told to the builder, and faults that are the same up to their order. -/
def SameUpToOrder (m n n' : Machine α) : Prop :=
  ∃ (k : Machine α) (es es' : List Diagnostic),
    k.log = m.log ∧ es.Perm es' ∧ n = k.reportAll es ∧ n' = k.reportAll es'

/-- Entries with different keys are applied in any order. -/
theorem foldl_setParameter_perm {d : Dict} (hd : d.keys.Nodup) {l l' : List (Name × Object)} (hl : l ⊆ d.entries)
    (hp : l.Perm l') (m : Machine α) :
    SameUpToOrder m (l.foldl (setParameter env d) m) (l'.foldl (setParameter env d) m) := by
  obtain ⟨e, he⟩ := exists_effects env d
  have on := foldl_on (e := e) (l := l) (fun p hp => (he p (hl hp)).2) m
  have on' := foldl_on (e := e) (l := l') (fun p hp' => (he p (hl (hp.mem_iff.mpr hp'))).2) m
  refine ⟨_, _, _, log_writes _ m, hp.flatMap_right fun p => (e p).faults, on, on'.trans ?_⟩
  have apart : ∀ p ∈ l, ∀ q ∈ l, ∀ n : Machine α,
      (e q).writes.foldl write ((e p).writes.foldl write n) =
        (e p).writes.foldl write ((e q).writes.foldl write n) := by
    intro p hp q hq n
    by_cases hpq : p = q
    · rw [hpq]
    · -- a slot that both set would have two owners
      have keys : p.1 ≠ q.1 := fun h => hpq (List.inj_on_of_nodup_map hd (hl hp) (hl hq) h)
      refine foldl_write_comm (fun v hv w hw h => keys ?_) n
      rw [← (he p (hl hp)).1 v hv, ← (he q (hl hq)).1 w hw, h]
  simp only [Effect.on, Effect.ofAll, List.foldl_flatMap]
  rw [hp.foldl_eq' apart m]

/-! ## Fonts that are kept -/

/-- The fonts that were loaded, each under the reference it was loaded from, the last one first. -/
abbrev FontCache := List (ObjRef × Font)

/-- The fonts in the cache are those that loading gives. -/
def FontCache.Faithful (env : Environment α) (c : FontCache) : Prop :=
  ∀ r f, c.lookup r = some f → ∀ m : Machine α, m.loadFont env (.ref r) = (some f, m)

omit [Scalar α] in
theorem FontCache.empty_faithful : FontCache.Faithful env [] := fun _ _ h => nomatch h

/-- Loads a font unless it is in the cache, and keeps it if it has a reference. -/
def loadCached (env : Environment α) (o : Object) (m : Machine α) (c : FontCache) :
    Option Font × Machine α × FontCache :=
  match o with
  | .ref r =>
    match c.lookup r with
    | some f => (some f, m, c)
    | none =>
      match m.loadFont env o with
      | (some f, m) => (some f, m, (r, f) :: c)
      | (none, m) => (none, m, c)
  | _ => let (font, m) := m.loadFont env o; (font, m, c)

/-- `setParameter` with a cache for fonts. -/
def setParameterCached (env : Environment α) (d : Dict) : Machine α × FontCache → Name × Object → Machine α × FontCache
  | (m, c), (key, o) =>
    if key == Name.ofText "Font" then
      match (env.store.lookup? d "Font" : Option (List Object)) with
      | some (o :: size :: _) =>
        match (env.store.as? size : Option Float) with
        | some size => let (font, m, c) := m.loadCached env o c; (m.useFont font (ofFloat size), c)
        | none => (m, c)
      | _ => (m, c)
    else (m.setParameter env d (key, o), c)

omit [Scalar α] in
/-- Which font is loaded does not depend on the machine, and a machine that gets one is not changed by it. -/
theorem loadFont_const (env : Environment α) (o : Object) :
    (∃ f, ∀ m : Machine α, m.loadFont env o = (some f, m)) ∨ ∀ m : Machine α, (m.loadFont env o).1 = none := by
  unfold loadFont
  cases (env.store.resolve o).dict? with
  | none => exact .inr fun _ => rfl
  | some d =>
    dsimp only
    cases Font.ofDict env.store d with
    | ok f => exact .inl ⟨f, fun _ => rfl⟩
    | error e => exact .inr fun _ => rfl

omit [Scalar α] in
/-- **A faithful cache cannot be told from loading every font.**  It stays faithful, and what is put into it does not
depend on the machine. -/
theorem loadCached_spec (o : Object) {c : FontCache} (hc : c.Faithful env) :
    ∃ c' : FontCache, c'.Faithful env ∧
      ∀ m : Machine α, m.loadCached env o c = ((m.loadFont env o).1, (m.loadFont env o).2, c') := by
  unfold loadCached
  split
  case h_2 => exact ⟨c, hc, fun _ => rfl⟩
  case h_1 r =>
    cases h : c.lookup r with
    | some f => exact ⟨c, hc, fun m => by rw [hc r f h m]⟩
    | none =>
      obtain ⟨f, hf⟩ | hnone := loadFont_const env (.ref r)
      · refine ⟨(r, f) :: c, fun r' f' h' => ?_, fun m => by simp only [hf m]⟩
        by_cases hr : r' = r
        · subst hr
          rw [List.lookup_cons_self] at h'
          cases h'
          exact hf
        · rw [List.lookup_cons, beq_false_of_ne hr] at h'
          exact hc r' f' h'
      · refine ⟨c, hc, fun m => ?_⟩
        have hm := hnone m
        generalize m.loadFont env (.ref r) = loaded at hm ⊢
        obtain ⟨font, k⟩ := loaded
        cases hm
        rfl

def keepFont (env : Environment α) (d : Dict) (m : Machine α) (c : FontCache) (p : Name × Object) : FontCache :=
  (setParameterCached env d (m, c) p).2

theorem keepFont_of_ne (d : Dict) (m : Machine α) (c : FontCache) {p : Name × Object} (h : p.1 ≠ "Font") :
    keepFont env d m c p = c := by
  unfold keepFont setParameterCached
  exact congrArg Prod.snd (if_neg (by simpa using h))

/-- An entry with a cache does what it does without, and the cache changes the same for every machine. -/
theorem setParameterCached_spec (d : Dict) (k : Machine α) (p : Name × Object) {c : FontCache} (hc : c.Faithful env) :
    (keepFont env d k c p).Faithful env ∧
      ∀ m : Machine α, setParameterCached env d (m, c) p = (m.setParameter env d p, keepFont env d k c p) := by
  obtain ⟨key, o⟩ := p
  by_cases hk : key = "Font"
  · subst hk
    have same (m : Machine α) : m.setParameter env d ("Font", o) = m.setFontParameter env d := rfl
    simp only [keepFont, setParameterCached, beq_self_eq_true, if_true, same, setFontParameter]
    generalize (env.store.lookup? d "Font" : Option (List Object)) = items
    rcases items with _ | _ | ⟨o, _ | ⟨size, rest⟩⟩
    case none | some.nil | some.cons.nil => exact ⟨hc, fun _ => rfl⟩
    case some.cons.cons =>
      dsimp only
      cases (env.store.as? size : Option Float) with
      | none => exact ⟨hc, fun _ => rfl⟩
      | some size =>
        obtain ⟨c', hc', spec⟩ := loadCached_spec o hc
        simp only [spec]
        exact ⟨hc', fun _ => trivial⟩
  · have other : keepFont env d k c (key, o) = c := keepFont_of_ne d k c hk
    rw [other]
    exact ⟨hc, fun m => if_neg (by simpa using hk)⟩

theorem foldl_setParameterCached (d : Dict) (k : Machine α) (l : List (Name × Object)) (m : Machine α) {c : FontCache}
    (hc : c.Faithful env) :
    (l.foldl (keepFont env d k) c).Faithful env ∧
      l.foldl (setParameterCached env d) (m, c) = (l.foldl (setParameter env d) m, l.foldl (keepFont env d k) c) := by
  induction l generalizing m c with
  | nil => exact ⟨hc, rfl⟩
  | cons p l ih =>
    obtain ⟨hc', spec⟩ := setParameterCached_spec d k p hc
    rw [List.foldl_cons, List.foldl_cons, List.foldl_cons, spec m]
    exact ih _ hc'

/-- Only one entry can load a font, so its place does not count. -/
theorem foldl_keepFont_perm {d : Dict} (hd : d.keys.Nodup) {l l' : List (Name × Object)} (hl : l ⊆ d.entries)
    (hp : l.Perm l') (k : Machine α) (c : FontCache) :
    l.foldl (keepFont env d k) c = l'.foldl (keepFont env d k) c := by
  -- of two different entries at most one is that of the font
  refine hp.foldl_eq' (fun p hp q hq c => ?_) c
  by_cases hpq : p = q
  · rw [hpq]
  · have keys : p.1 ≠ q.1 := fun h => hpq (List.inj_on_of_nodup_map hd (hl hp) (hl hq) h)
    by_cases hf : p.1 = "Font"
    · have hq' : q.1 ≠ "Font" := fun h => keys (hf.trans h.symm)
      rw [keepFont_of_ne d k _ hq', keepFont_of_ne d k _ hq']
    · rw [keepFont_of_ne d k _ hf, keepFont_of_ne d k _ hf]

variable (env) in
/-- **The entries of a dictionary of parameters act the same in every order.**  Two orders of all entries but the soft
mask's lead to the same machine, to which both report the same faults up to their order, and the builder is told
nothing.  The fonts that are kept for later are the same as well, and keeping them changes nothing. -/
theorem parameters_in_any_order {d : Dict} (hd : d.keys.Nodup) {l l' : List (Name × Object)} (hl : l.Perm (others d))
    (hl' : l'.Perm (others d)) (m : Machine α) {c : FontCache} (hc : c.Faithful env) :
    SameUpToOrder m (l.foldl (setParameter env d) m) (l'.foldl (setParameter env d) m) ∧
    SameUpToOrder m (l.foldl (setParameter env d) m) (d.entries.foldl (setParameter env d) m) ∧
    ∃ c' : FontCache, c'.Faithful env ∧
      l.foldl (setParameterCached env d) (m, c) = (l.foldl (setParameter env d) m, c') ∧
      l'.foldl (setParameterCached env d) (m, c) = (l'.foldl (setParameter env d) m, c') := by
  have among : l ⊆ d.entries := fun p hp => List.mem_of_mem_filter (hl.mem_iff.mp hp)
  have hp : l.Perm l' := hl.trans hl'.symm
  obtain ⟨faithful, cached⟩ := foldl_setParameterCached d m l m hc
  obtain ⟨-, cached'⟩ := foldl_setParameterCached d m l' m hc
  refine ⟨foldl_setParameter_perm hd among hp m, ?_, _, faithful, cached, cached'.trans ?_⟩
  · rw [← foldl_others]
    exact foldl_setParameter_perm hd among hl m
  · rw [foldl_keepFont_perm hd among hp]

/-- Fills that have an overprint of their own keep it whether it is set before that of strokes or after it, and the
older of two transfer functions does not count, wherever it stands. -/
theorem overprints_in_any_order :
    let env : Environment Float := ⟨.empty, .silent, true, .default⟩
    let page : Machine Float := start env [] .empty .identity
    let d : Dict := ⟨[("Font", .null), ("LW", .name "wide"), ("OP", .bool true), ("SMask", .name "None"),
      ("TR", .name "Unknown"), ("TR2", .name "Unknown"), ("op", .bool false)]⟩
    let n := (others d).foldl (setParameter env d) page
    let n' := (others d).reverse.foldl (setParameter env d) page
    d.keys.Nodup ∧ FontCache.Faithful env [] ∧ SameUpToOrder page n n' ∧
      n.state.fill.overprint = false ∧ n.state.stroke.overprint = true ∧ n.log.length = 1 := by
  intro env page d n n'
  have distinct : d.keys.Nodup := by decide
  have orders := parameters_in_any_order env distinct (.refl _) (List.reverse_perm _) page
    FontCache.empty_faithful
  exact ⟨distinct, FontCache.empty_faithful, orders.1, rfl, rfl, rfl⟩

end PdfContent.Machine
