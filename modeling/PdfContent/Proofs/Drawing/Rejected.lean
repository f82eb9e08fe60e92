import PdfContent.Proofs.Drawing.Command
import PdfContent.Proofs.Drawing.Inks
import PdfContent.Proofs.Drawing.ParameterOrder
/-!
# Rejected — what a value that is rejected leaves behind

An entry of a dictionary of parameters acts as a whole if its value is one for its key and not at all if it is rejected,
except that the dash array of a pattern counts even if its phase does not (`parameter_applied_or_skipped`).  A color space
that cannot be used is not selected, but the pattern is given up before it is looked at (`color_space_failed`).
-/
namespace PdfContent.Machine

open Scalar

variable {α : Type} [Scalar α] {env : Environment α}

/-! ## Parameters -/

namespace Effect

def nothing : Effect α := ⟨[], []⟩

def set (slot : Slot) (value : slot.Value α) : Effect α := ⟨[⟨slot, value⟩], []⟩

def fault (e : Diagnostic) : Effect α := ⟨[], [e]⟩

/-- A blend mode that is not known is only reported. -/
def blendMode (st : Store) (o : Object) : Effect α :=
  (BlendMode.ofObject? st o).elim (fault (.badExtGState .badBlendMode)) (set .blendMode)

/-- So is a transfer function that cannot be used. -/
def transfer (st : Store) (o : Object) : Effect α :=
  match Transfer.ofObject st o with
  | .ok transfer => set .transfer transfer
  | .error e => fault e

/-- A font that cannot be loaded is none, with its size. -/
def font (st : Store) (o : Object) (size : α) : Effect α :=
  match (st.resolve o).dict? with
  | none => set .font (none, size)
  | some d =>
    match Font.ofDict st d with
    | .ok f => set .font (some f, size)
    | .error e => ⟨[⟨.font, none, size⟩], [e]⟩

end Effect

def dashes? (st : Store) (d : Dict) : Option (List Float) :=
  (st.lookup? d "D" : Option (List Object)).bind fun items =>
    (st.item? items 0 : Option (List Object)).bind fun a => (st.all? a : Option (List Float))

def dashPhase? (st : Store) (d : Dict) : Option Float :=
  (st.lookup? d "D" : Option (List Object)).bind fun items => st.item? items 1

def fontWithSize? (st : Store) (d : Dict) : Option (Object × Float) :=
  match (st.lookup? d "Font" : Option (List Object)) with
  | some (o :: size :: _) => (st.as? size : Option Float).map fun size => (o, size)
  | _ => none

/-- **What an entry of a dictionary sets and reports**, if its value is one for its key; else it is rejected.  Any value
is one for a key that is not known. -/
def effect? (env : Environment α) (d : Dict) : Name × Object → Option (Effect α)
  | (key, o) =>
    let st := env.store
    if key == Name.ofText "LW" then (st.as? o : Option Float).map (.set .lineWidth)
    else if key == Name.ofText "LC" then ((st.as? o).bind LineCap.ofInt?).map (.set .lineCap)
    else if key == Name.ofText "LJ" then ((st.as? o).bind LineJoin.ofInt?).map (.set .lineJoin)
    else if key == Name.ofText "ML" then (st.as? o : Option Float).map (.set .miterLimit)
    else if key == Name.ofText "D" then
      (dashes? st d).bind fun dashes => (dashPhase? st d).map fun phase =>
        ⟨[⟨.dashes, dashes⟩, ⟨.dashPhase, phase⟩], []⟩
    else if key == Name.ofText "RI" then (st.as? o : Option Name).map fun n => .set .intent n.text
    else if key == Name.ofText "FL" then (st.as? o : Option Float).map (.set .flatness)
    else if key == Name.ofText "Font" then
      (fontWithSize? st d).map fun (o, size) => .font st o (ofFloat size)
    else if key == Name.ofText "BM" then some (.blendMode st o)
    else if key == Name.ofText "ca" then (st.as? o : Option Float32).map (.set (.opacity .fill))
    else if key == Name.ofText "CA" then (st.as? o : Option Float32).map (.set (.opacity .stroke))
    else if key == Name.ofText "op" then (st.as? o : Option Bool).map (.set (.overprint .fill))
    else if key == Name.ofText "OP" then (st.as? o : Option Bool).map fun overprint =>
      ⟨⟨.overprint .stroke, overprint⟩ :: if d.contains "op" then [] else [⟨.overprint .fill, overprint⟩], []⟩
    else if key == Name.ofText "OPM" then (st.as? o : Option UInt8).map fun mode => .set .overprintMode mode.toNat
    else if key == Name.ofText "SA" then (st.as? o : Option Bool).map (.set .strokeAdjust)
    else if key == Name.ofText "TR2" then some (.transfer st o)
    else if key == Name.ofText "TR" then some (if d.contains "TR2" then .nothing else .transfer st o)
    else some .nothing

/-- What a rejected entry sets all the same: the dash array of a dash pattern. -/
def strayDashes? (env : Environment α) (d : Dict) (entry : Name × Object) : Option (List Float) :=
  if entry.1 = "D" then dashes? env.store d else none

/-- A step that has the effect, or does nothing if there is none. -/
def AllOrNothing (f : Machine α → Machine α) (e : Option (Effect α)) : Prop :=
  ∀ m, f m = e.elim m (·.on m)

namespace AllOrNothing

variable {f g : Machine α → Machine α} {e e' : Option (Effect α)}

omit [Scalar α] in
theorem branch {p : Prop} [Decidable p] (ht : p → AllOrNothing f e) (hf : ¬p → AllOrNothing g e') :
    AllOrNothing (fun m => if p then f m else g m) (if p then e else e') := by
  by_cases hp : p
  · simpa only [hp, if_true] using ht hp
  · simpa only [hp, if_false] using hf hp

omit [Scalar α] in
theorem nothing : AllOrNothing (fun m : Machine α => m) (some .nothing) := fun _ => rfl

omit [Scalar α] in
theorem modifyWith {β : Type} {h : State α → β → State α} (v : Option β) (x : β → Effect α)
    (hx : ∀ b (m : Machine α), (x b).on m = m.modifyState (h · b)) :
    AllOrNothing (fun m => m.modifyWith v h) (v.map x) := by
  intro m
  cases v with
  | none => rfl
  | some b => exact (hx b m).symm

omit [Scalar α] in
theorem setBlendMode (st : Store) (o : Object) :
    AllOrNothing (fun m : Machine α => m.setBlendMode st o) (some (.blendMode st o)) := by
  intro m
  unfold Machine.setBlendMode Effect.blendMode
  cases BlendMode.ofObject? st o <;> rfl

omit [Scalar α] in
theorem setTransfer (st : Store) (o : Object) :
    AllOrNothing (fun m : Machine α => m.setTransfer st o) (some (.transfer st o)) := by
  intro m
  unfold Machine.setTransfer Effect.transfer
  cases Transfer.ofObject st o <;> rfl

omit [Scalar α] in
theorem setOverprint (d : Dict) (v : Option Bool) :
    AllOrNothing (fun m : Machine α => m.setOverprint d v) (v.map fun overprint =>
      ⟨⟨.overprint .stroke, overprint⟩ :: if d.contains "op" then [] else [⟨.overprint .fill, overprint⟩], []⟩) := by
  refine modifyWith v _ fun overprint m => ?_
  by_cases hop : d.contains "op"
  · simp only [hop, if_true]
    rfl
  · simp only [hop]
    rfl

theorem setFontParameter (d : Dict) :
    AllOrNothing (fun m => m.setFontParameter env d)
      ((fontWithSize? env.store d).map fun (o, size) => .font env.store o (ofFloat size)) := by
  intro m
  unfold Machine.setFontParameter fontWithSize?
  generalize (env.store.lookup? d "Font" : Option (List Object)) = items
  rcases items with _ | _ | ⟨o, _ | ⟨size, rest⟩⟩
  case none | some.nil | some.cons.nil => rfl
  case some.cons.cons =>
    dsimp only
    cases (env.store.as? size : Option Float) with
    | none => rfl
    | some size =>
      simp only [loadFont, Option.map_some, Option.elim_some, Effect.font]
      cases (env.store.resolve o).dict? with
      | none => rfl
      | some fd =>
        dsimp only
        cases Font.ofDict env.store fd <;> rfl

/-- **An entry is applied as a whole or not at all**, unless it is that of the dashes. -/
theorem setParameter (d : Dict) (key : Name) (o : Object) (hk : key ≠ "D") :
    AllOrNothing (fun m => m.setParameter env d (key, o)) (effect? env d (key, o)) := by
  -- one branch for each key, in the order of `Machine.setParameter`
  refine branch (fun _ => modifyWith _ _ fun _ _ => rfl) fun _ => ?_
  refine branch (fun _ => modifyWith _ _ fun _ _ => rfl) fun _ => ?_
  refine branch (fun _ => modifyWith _ _ fun _ _ => rfl) fun _ => ?_
  refine branch (fun _ => modifyWith _ _ fun _ _ => rfl) fun _ => ?_
  refine branch (fun h => absurd (eq_of_beq h) hk) fun _ => ?_
  refine branch (fun _ => modifyWith _ _ fun _ _ => rfl) fun _ => ?_
  refine branch (fun _ => modifyWith _ _ fun _ _ => rfl) fun _ => ?_
  refine branch (fun _ => setFontParameter d) fun _ => ?_
  refine branch (fun _ => setBlendMode _ o) fun _ => ?_
  refine branch (fun _ => modifyWith _ _ fun _ _ => rfl) fun _ => ?_
  refine branch (fun _ => modifyWith _ _ fun _ _ => rfl) fun _ => ?_
  refine branch (fun _ => modifyWith _ _ fun _ _ => rfl) fun _ => ?_
  refine branch (fun _ => setOverprint d _) fun _ => ?_
  refine branch (fun _ => modifyWith _ _ fun _ _ => rfl) fun _ => ?_
  refine branch (fun _ => modifyWith _ _ fun _ _ => rfl) fun _ => ?_
  refine branch (fun _ => setTransfer _ o) fun _ => ?_
  refine branch (fun _ => ?_) fun _ => nothing
  intro m
  by_cases newer : d.contains "TR2"
  · simp only [newer, if_true]
    rfl
  · simp only [newer]
    exact setTransfer env.store o m

end AllOrNothing

theorem effect?_dashes (d : Dict) (o : Object) :
    effect? env d ("D", o) = (dashes? env.store d).bind fun dashes =>
      (dashPhase? env.store d).map fun phase => ⟨[⟨.dashes, dashes⟩, ⟨.dashPhase, phase⟩], []⟩ := rfl

/-- The dash array is set before the phase is looked at. -/
theorem setParameter_dashes (d : Dict) (o : Object) (m : Machine α) :
    m.setParameter env d ("D", o) =
      (m.modifyWith (dashes? env.store d) fun s dashes => { s with dashes }).modifyWith
        ((dashes? env.store d).bind fun _ => dashPhase? env.store d) fun s dashPhase => { s with dashPhase } := by
  have same : m.setParameter env d ("D", o) = m.setDashes env.store d := rfl
  rw [same]
  unfold setDashes dashes? dashPhase?
  cases (env.store.lookup? d "D" : Option (List Object)) with
  | none => rfl
  | some items =>
    simp only [Option.bind_some]
    cases ((env.store.item? items 0 : Option (List Object)).bind fun a => (env.store.all? a : Option (List Float))) with
    | none => rfl
    | some dashes => rfl

/-- What an entry does whose value is rejected. -/
def skip (env : Environment α) (d : Dict) (entry : Name × Object) (m : Machine α) : Machine α :=
  m.modifyWith (strayDashes? env d entry) fun s dashes => { s with dashes }

variable (env) in
theorem setParameter_eq (d : Dict) (entry : Name × Object) (m : Machine α) :
    m.setParameter env d entry = (effect? env d entry).elim (m.skip env d entry) (·.on m) := by
  obtain ⟨key, o⟩ := entry
  unfold skip
  by_cases hk : key = "D"
  · subst hk
    have stray : strayDashes? env d ("D", o) = dashes? env.store d := if_pos rfl
    rw [effect?_dashes, stray, setParameter_dashes]
    cases dashes? env.store d with
    | none => rfl
    | some dashes => cases dashPhase? env.store d <;> rfl
  · have stray : strayDashes? env d (key, o) = none := if_neg hk
    rw [stray]
    exact AllOrNothing.setParameter d key o hk m

omit [Scalar α] in
theorem state_skip_eq_iff (d : Dict) (entry : Name × Object) (m : Machine α) :
    (m.skip env d entry).state = m.state ↔ ∀ dashes ∈ strayDashes? env d entry, dashes = m.state.dashes := by
  unfold skip
  cases strayDashes? env d entry with
  | none => exact ⟨fun _ => nofun, fun _ => rfl⟩
  | some dashes =>
    refine ⟨fun same _ h => ?_, fun h => ?_⟩
    · cases h
      exact congrArg State.dashes same
    · have current : dashes = m.state.dashes := h dashes rfl
      rw [current]
      rfl

/-- With a phase for every dash array nothing is left of a rejected entry. -/
theorem setParameter_rejected {d : Dict} (hd : (dashes? env.store d).isSome → (dashPhase? env.store d).isSome)
    {entry : Name × Object} (h : effect? env d entry = none) (m : Machine α) : m.setParameter env d entry = m := by
  have stray : strayDashes? env d entry = none := by
    obtain ⟨key, o⟩ := entry
    by_cases hk : key = "D"
    · subst hk
      refine (if_pos rfl).trans ?_
      rw [effect?_dashes] at h
      cases hdashes : dashes? env.store d with
      | none => rfl
      | some dashes =>
        obtain ⟨phase, hphase⟩ := Option.isSome_iff_exists.mp (hd (by rw [hdashes]; rfl))
        rw [hdashes, hphase] at h
        cases h
    · exact if_neg hk
  rw [setParameter_eq, h, Option.elim_none, skip, stray]
  rfl

/-- **An entry is applied, or rejected and skipped, but for the dash array.**  What it sets and reports is all that it
does.  One that is rejected changes nothing at all, unless it is a dash pattern whose array can be read and whose phase
cannot: then the dash array is set, and the state is the same only if that was the array in effect.  So a dictionary
without such a pattern does what its entries do that are not rejected. -/
theorem parameter_applied_or_skipped (env : Environment α) (d : Dict) (m : Machine α) :
    (∀ entry, match effect? env d entry with
      | some e => m.setParameter env d entry = e.on m
      | none =>
        m.setParameter env d entry = m.modifyWith (strayDashes? env d entry) (fun s dashes => { s with dashes }) ∧
          ((m.setParameter env d entry).state = m.state ↔
            ∀ dashes ∈ strayDashes? env d entry, dashes = m.state.dashes)) ∧
    (((dashes? env.store d).isSome → (dashPhase? env.store d).isSome) →
      d.entries.foldl (setParameter env d) m = (d.entries.filterMap (effect? env d)).foldl (fun m e => e.on m) m) := by
  refine ⟨fun entry => ?_, fun hd => ?_⟩
  · have done := setParameter_eq env d entry m
    cases he : effect? env d entry with
    | some e => rwa [he] at done
    | none =>
      rw [he] at done
      exact ⟨done, by rw [done]; exact state_skip_eq_iff d entry m⟩
  · generalize d.entries = l
    induction l generalizing m with
    | nil => rfl
    | cons entry l ih =>
      rw [List.foldl_cons, ih]
      cases he : effect? env d entry with
      | some e => rw [List.filterMap_cons_some he, List.foldl_cons, setParameter_eq, he, Option.elim_some]
      | none => rw [List.filterMap_cons_none he, setParameter_rejected hd he]

/-- Dashes whose phase is no number are rejected, and drawn with. -/
theorem dashes_without_phase :
    let env : Environment Float := ⟨.empty, .silent, true, .default⟩
    let page : Machine Float := start env [] .empty .identity
    let dashes : Name × Object := ("D", .array [.array [.num (.int 3)], .null])
    effect? env ⟨[dashes]⟩ dashes = none ∧ (page.setParameter env ⟨[dashes]⟩ dashes).state ≠ page.state := by
  intro env page dashes
  have rejected : effect? env ⟨[dashes]⟩ dashes = none := rfl
  have stray : strayDashes? env ⟨[dashes]⟩ dashes = some [3] := rfl
  have skipped := (parameter_applied_or_skipped env ⟨[dashes]⟩ page).1 dashes
  rw [rejected] at skipped
  refine ⟨rejected, fun same => ?_⟩
  have undashed : [3] = page.state.dashes := skipped.2.mp same [3] stray
  cases undashed

/-! ## Color spaces -/

def spaceSelector : Part → String
  | .fill => "cs"
  | .stroke => "CS"

theorem spaceSelector_row (part : Part) :
    Operator.of (spaceSelector part) [.name] (.colorSpace part) ∈ Operator.all := by
  cases part <;> decide

omit [Scalar α] in
/-- A color space that cannot be used costs the pattern in effect. -/
theorem setColorSpace_failed {part : Part} {name : Name} {e : ColorSpaceFault} {m : Machine α}
    (h : (m.setColorSpace env part name).log = .report (.badColorSpace e) :: m.log) :
    ColorSpace.ofObject env.store ((m.resource? env.store "ColorSpace" name).getD (.name name)) = .error e ∧
      m.setColorSpace env part name =
        (m.modifyState fun s => s.setInk { s.ink part with pattern := none } part).report (.badColorSpace e) := by
  have asked : ∀ f : State α → State α,
      (m.modifyState f).resource? env.store "ColorSpace" name = m.resource? env.store "ColorSpace" name := fun _ => rfl
  unfold setColorSpace at h ⊢
  simp only [asked] at h ⊢
  cases found : ColorSpace.ofObject env.store ((m.resource? env.store "ColorSpace" name).getD (.name name)) with
  | ok space =>
    rw [found] at h
    dsimp only at h
    cases color : space.defaultColor with
    | ok color' =>
      rw [color] at h
      cases (List.cons.inj h).1
    | error p =>
      rw [color] at h
      cases (List.cons.inj h).1
  | error e' =>
    rw [found] at h
    cases (List.cons.inj h).1
    exact ⟨rfl, rfl⟩

theorem spaceSelector_failed {inner : Inner α} {part : Part} {operands : List Object}
    {image : Option Content.ImageSource} {m : Machine α} {e : ColorSpaceFault}
    (h : (m.command env inner (Bytes.ofText (spaceSelector part)) operands image).log =
      .report (.badColorSpace e) :: m.log) :
    ∃ name, operands.getLast? = some (.name name) ∧
      ColorSpace.ofObject env.store ((m.resource? env.store "ColorSpace" name).getD (.name name)) = .error e ∧
      (m.command env inner (Bytes.ofText (spaceSelector part)) operands image).toMoment =
        { m.toMoment with
          log := .report (.badColorSpace e) :: m.log
          history := m.history.push (spaceSelector part)
          state := m.state.setInk { m.state.ink part with pattern := none } part } := by
  rcases command_name operands image m (spaceSelector_row part) with ⟨name, last, performed⟩ | ⟨-, d, rejected, reported⟩
  case inl =>
    rw [performed] at h ⊢
    -- the operator runs on the machine with its name in the history
    obtain ⟨fault, done⟩ := setColorSpace_failed (m := { m with history := m.history.push (spaceSelector part) }) h
    exact ⟨name, last, fault, congrArg Machine.toMoment done⟩
  case inr =>
    rw [reported] at h
    cases (List.cons.inj h).1
    cases rejected

/-- With no pattern an ink is flat, and in a space of patterns it paints nothing. -/
theorem paintOf_patternless (inner : Inner α) {part : Part} {m : Machine α} (h : (m.state.ink part).pattern = none) :
    m.paintOf env inner part =
      (if (m.state.ink part).space.isPattern then none else some (m.state.ink part).flat, m) := by
  simp only [paintOf, h]
  cases (m.state.ink part).space.isPattern <;> rfl

omit [Scalar α] in
theorem setInk_patternless_iff (part : Part) (s : State α) :
    s.setInk { s.ink part with pattern := none } part = s ↔ (s.ink part).pattern = none := by
  constructor
  · intro same
    rw [← same]
    cases part <;> rfl
  · intro h
    cases part <;>
    · simp only [State.ink] at h
      simp only [State.setInk, State.ink, ← h]

/-- **A color space operator that fails is skipped, but for the pattern.**  The last operand names what is no color
space, and of all that the machine holds only the pattern of the ink is given up.  So the state is the same only if
there was none; and as long as the ink stays as it is, nothing is painted in a space of patterns, and the color that was
in effect before in any other. -/
theorem color_space_failed (env : Environment α) (inner : Inner α) (part : Part) (operands : List Object)
    (image : Option Content.ImageSource) (m : Machine α) {e : ColorSpaceFault}
    (h : (m.command env inner (Bytes.ofText (spaceSelector part)) operands image).log =
      .report (.badColorSpace e) :: m.log) :
    let n := m.command env inner (Bytes.ofText (spaceSelector part)) operands image
    (∃ name, operands.getLast? = some (.name name) ∧
      ColorSpace.ofObject env.store ((m.resource? env.store "ColorSpace" name).getD (.name name)) = .error e) ∧
    n.toMoment =
      { m.toMoment with
        log := .report (.badColorSpace e) :: m.log
        history := m.history.push (spaceSelector part)
        state := m.state.setInk { m.state.ink part with pattern := none } part } ∧
    (n.state = m.state ↔ (m.state.ink part).pattern = none) ∧
    ∀ k : Machine α, k.state.ink part = n.state.ink part →
      k.paintOf env inner part =
        (if (m.state.ink part).space.isPattern then none else some (m.state.ink part).flat, k) := by
  intro n
  obtain ⟨name, last, fault, done⟩ := spaceSelector_failed h
  have state : n.state = m.state.setInk { m.state.ink part with pattern := none } part := congrArg Moment.state done
  refine ⟨⟨name, last, fault⟩, done, ?_, fun k hk => ?_⟩
  · rw [state]
    exact setInk_patternless_iff part m.state
  · have ink : k.state.ink part = { m.state.ink part with pattern := none } := by
      rw [hk, state]
      cases part <;> rfl
    rw [paintOf_patternless inner (by rw [ink]), ink]
    rfl

/-- A pattern is in effect when a color space is asked for that there is not, and after it nothing is painted. -/
theorem pattern_lost :
    let env : Environment Float := ⟨.empty, .silent, true, .default⟩
    let axial : Shading Float :=
      ⟨2, .axial ⟨0, 0⟩ ⟨1, 0⟩ (0, 1) ⟨[]⟩ (false, false), .deviceGray, none, none, false⟩
    let page : Machine Float :=
      (start env [] .empty .identity).select .fill (.pattern none) [] (some (.shading axial .identity))
    let n := page.command env (run env levels) (Bytes.ofText "cs") [.name "Bogus"] none
    n.log = .report (.badColorSpace (.unknownName (Name.ofText "Bogus").text)) :: page.log ∧ n.state ≠ page.state ∧
      (n.paintOf env (run env levels) .fill).1 = none := by
  intro env axial page n
  have reported : n.log = .report (.badColorSpace (.unknownName (Name.ofText "Bogus").text)) :: page.log := rfl
  obtain ⟨-, -, same, painted⟩ := color_space_failed env (run env levels) .fill [.name "Bogus"] none page reported
  refine ⟨reported, fun h => ?_, congrArg Prod.fst (painted n rfl)⟩
  cases same.mp h

end PdfContent.Machine
