import PdfContent.Proofs.Content.Operator
import PdfContent.Proofs.Drawing.Frame
import PdfContent.Proofs.Shading.Cells
/-!
# Inks — the colors of the state and the flat paints that come of them

Outside of tilings every ink fits: a pattern is set only in a space of patterns, and in any other space the color has
all its components (`Ink.Fits`).  Filling with a shading leaves this for a while, on a level of its own; what it tells
is good all the same (`Machine.Told`), and the inks fit again when the level is left (`Told.restoreState`).
-/
namespace PdfContent

theorem ColorSpace.length_defaultColor (cs : ColorSpace) :
    Yields (fun color => color.length = cs.components) cs.defaultColor := by
  cases cs with
  | lab white a b => exact .bind fun _ => .bind fun _ => .pure rfl
  | _ => exact .pure (by simp [components])

variable {α : Type}

/-- The shading of a pattern is one of the file. -/
theorem Pattern.ofObject_shading [Scalar α] (st : Store) (o : Object) :
    Yields (fun p : Pattern α => ∀ s m, p = .shading s m → ∃ o, Shading.ofObject st o = .ok s)
      (Pattern.ofObject st o) := by
  unfold Pattern.ofObject
  dsimp only
  split
  case h_2 => exact .throw _
  split
  · split
    · exact .mapError _ (.map fun _ => nofun)
    · exact .throw _
  · split
    · exact .bind_of fun s hs => .pure fun _ _ h => by cases h; exact ⟨_, hs⟩
    · exact .throw _
  · exact .throw _
  · exact .throw _

/-! ## Inks -/

namespace Ink

def flat (i : Ink α) : Paint := .color (i.space.toRgb i.color) i.opacity

/-- A color with all its components, in a space that is not one of patterns. -/
structure Complete (i : Ink α) : Prop where
  space : i.space.isPattern = false
  color : i.color.length = i.space.components

/-- A flat paint is the one of the ink, of which something holds. -/
def Paints (p : Ink α → Prop) (i : Ink α) (paint : Option Paint) : Prop :=
  ∀ rgb opacity, paint = some (.color rgb opacity) → paint = some i.flat ∧ p i

variable [Scalar α]

/-- In a space that is not one of patterns the color has as many components as the space; a pattern is set only in a
space of patterns, and it is one of the file. -/
def Fits (st : Store) (i : Ink α) : Prop :=
  (i.space.isPattern = false → i.color.length = i.space.components) ∧
    ∀ p, i.pattern = some p → i.space.isPattern = true ∧ ∃ o, Pattern.ofObject st o = .ok p

/-- The color is a value of the color function of a shading of the file, and the function does not fit the space. -/
def Misfit (st : Store) (i : Ink α) : Prop :=
  ∃ o, ∃ s : Shading α, ∃ f inputs, Shading.ofObject st o = .ok s ∧ s.kind.function? = some f ∧
    ¬f.Fits s.space.components ∧ i.space = s.space ∧ f.eval inputs = .ok i.color

variable {st : Store} {i : Ink α}

omit [Scalar α] in
theorem Complete.paints (h : i.Complete) : i.Paints Complete (some i.flat) := fun _ _ _ => ⟨rfl, h⟩

omit [Scalar α] in
theorem Paints.mono {p q : Ink α → Prop} {paint : Option Paint} (h : i.Paints p paint) (hpq : ∀ j, p j → q j) :
    i.Paints q paint :=
  fun rgb opacity hp => (h rgb opacity hp).imp_right (hpq i)

theorem Fits.complete (h : i.Fits st) (hp : i.space.isPattern = false) : i.Complete := ⟨hp, h.1 hp⟩

theorem of_cell {o : Object} {s : Shading α} (hs : Shading.ofObject st o = .ok s) {precision : ShadingPrecision}
    {cell : Path α × Color} (hc : cell ∈ ((Tessellation.cells? s precision).getD .nil).items)
    (hi : i.space = s.space) (hcolor : i.color = cell.2) : i.Complete ∨ i.Misfit st := by
  have complete := Shading.ofObject_complete st o s hs
  have flat : i.space.isPattern = false := hi ▸ complete.space
  cases hf : s.kind.function? with
  | none =>
    refine .inl ⟨flat, ?_⟩
    rw [hcolor, hi]
    exact Shading.cells_of_corners complete hf precision cell hc
  | some f =>
    obtain ⟨inputs, value⟩ := Shading.cells_of_function hf precision cell hc
    rw [← hcolor] at value
    by_cases fits : f.Fits s.space.components
    · exact .inl ⟨flat, by rw [hi]; exact fits inputs _ value⟩
    · exact .inr ⟨o, s, f, inputs, hs, hf, fits, hi, value⟩

end Ink

/-! ## Logs -/

def openTilings : Log α → Nat
  | [] => 0
  | .call (.pushTiling ..) :: log => openTilings log + 1
  | .call .popTiling :: log => openTilings log - 1
  | _ :: log => openTilings log

section

variable [Scalar α]

def State.Fits (st : Store) (s : State α) : Prop := s.fill.Fits st ∧ s.stroke.Fits st

theorem State.Fits.ink {st : Store} {s : State α} (h : s.Fits st) : ∀ part, (s.ink part).Fits st
  | .fill => h.1
  | .stroke => h.2

/-- A path is filled with a complete color or with the cells of a shading whose color function does not fit, and
stroked with a complete color, unless the paint is not a flat one. -/
def Call.PaintsFlat (st : Store) : Call α → Prop
  | .addPath s fill stroke _ =>
    s.fill.Paints (fun i => i.Complete ∨ i.Misfit st) fill ∧ s.stroke.Paints Ink.Complete stroke
  | _ => True

/-- Outside of tilings every path is painted so. -/
def PaintedFlat (st : Store) : Log α → Prop
  | [] => True
  | .call c :: log => (openTilings log = 0 → c.PaintsFlat st) ∧ PaintedFlat st log
  | .report _ :: log => PaintedFlat st log

theorem PaintedFlat.at_call {st : Store} {c : Call α} {earlier : Log α} :
    ∀ later : Log α, PaintedFlat st (later ++ .call c :: earlier) → openTilings earlier = 0 → c.PaintsFlat st
  | [], h => h.1
  | .call _ :: later, h => at_call later h.2
  | .report _ :: later, h => at_call later h

/-- Neither paints a path nor opens or closes a tiling. -/
def Call.isColorless : Call α → Bool
  | .addPath .. | .pushTiling .. | .popTiling => false
  | _ => true

/-! ## Machines -/

/-- What was told and executed is good where no tiling is open; now `k` of them are. -/
structure Telling (st : Store) (k : Nat) (log : Log α) (executed : Executed α → Prop) : Prop where
  tilings : openTilings log = k
  painted : PaintedFlat st log
  executed : ∀ e, executed e → openTilings e.before.log = 0 → e.before.state.Fits st ∧ e.after.state.Fits st

namespace Machine

def Told (st : Store) (k : Nat) (m : Machine α) : Prop := Telling st k m.log m.executed

/-- **The colors of a machine that `k` tilings are open around**: outside of tilings all inks fit, those of the saved
states too. -/
def Colored (st : Store) (k : Nat) (m : Machine α) : Prop :=
  m.Told st k ∧ (k = 0 → m.state.Fits st) ∧ (k = 0 → ∀ s ∈ m.saved, s.Fits st)

variable {st : Store} {k : Nat} {m n : Machine α}

theorem Colored.told (h : m.Colored st k) : m.Told st k := h.1

theorem Colored.inks (h : m.Colored st k) : k = 0 → m.state.Fits st := h.2.1

theorem Colored.saved (h : m.Colored st k) : k = 0 → ∀ s ∈ m.saved, s.Fits st := h.2.2

namespace Told

theorem tell {c : Call α} (h : m.Told st k) (hc : c.isColorless = true) : (m.tell c).Told st k := by
  refine ⟨?_, ⟨fun _ => ?_, h.painted⟩, h.executed⟩
  · refine Eq.trans ?_ h.tilings
    cases c <;> first | rfl | cases hc
  · cases c <;> trivial

theorem tellState {c : State α → Call α} (h : m.Told st k) (hc : (c m.state).isColorless = true) :
    (m.tellState c).Told st k :=
  h.tell hc

theorem addPath {fill stroke : Option Paint} {evenOdd : Bool} (h : m.Told st k)
    (hc : k = 0 → (Call.addPath m.state fill stroke evenOdd).PaintsFlat st) :
    (m.tellState (.addPath · fill stroke evenOdd)).Told st k :=
  ⟨h.tilings, ⟨fun ho => hc (h.tilings.symm.trans ho), h.painted⟩, h.executed⟩

/-- Leaving a level: the inks are those of the state that was saved. -/
theorem restoreState {s : State α} {saved : List (State α)} (h : m.Told st k) (hm : m.saved = s :: saved)
    (hs : k = 0 → s.Fits st ∧ ∀ t ∈ saved, t.Fits st) : m.restoreState.Colored st k := by
  rw [restoreState_cons hm]
  exact ⟨h.tell rfl, fun hk => (hs hk).1, fun hk => (hs hk).2⟩

end Told

namespace Colored

theorem tell {c : Call α} (h : m.Colored st k) (hc : c.isColorless = true) : (m.tell c).Colored st k :=
  ⟨h.told.tell hc, h.inks, h.saved⟩

theorem tellState {c : State α → Call α} (h : m.Colored st k) (hc : (c m.state).isColorless = true) :
    (m.tellState c).Colored st k :=
  h.tell hc

theorem report (d : Diagnostic) (h : m.Colored st k) : (m.report d).Colored st k :=
  ⟨⟨h.told.tilings, h.told.painted, h.told.executed⟩, h.inks, h.saved⟩

theorem foldl {β : Type} {f : Machine α → β → Machine α} (hf : ∀ m x, m.Colored st k → (f m x).Colored st k)
    (xs : List β) (h : m.Colored st k) : (xs.foldl f m).Colored st k :=
  List.foldlRecOn xs f h fun m hm x _ => hf m x hm

theorem reportAll (ds : List Diagnostic) (h : m.Colored st k) : (m.reportAll ds).Colored st k :=
  foldl (fun _ d h => h.report d) ds h

theorem save (h : m.Colored st k) : m.save.Colored st k :=
  ⟨h.told.tell rfl, h.inks, fun hk => List.forall_mem_cons.mpr ⟨h.inks hk, h.saved hk⟩⟩

/-- A level of its own, on which the inks need not fit. -/
theorem level (h : m.Colored st k) (hn : n.Told st k) (hs : n.saved = m.save.saved) : n.restoreState.Colored st k :=
  hn.restoreState hs fun hk => ⟨h.inks hk, h.saved hk⟩

theorem restoreState (h : m.Colored st k) : m.restoreState.Colored st k := by
  cases hs : m.saved with
  | nil =>
    unfold Machine.restoreState
    rw [hs]
    exact h
  | cons s saved => exact h.told.restoreState hs fun hk => List.forall_mem_cons.mp (hs ▸ h.saved hk)

theorem restoreTo (depth : Nat) (h : m.Colored st k) : (m.restoreTo depth).Colored st k :=
  restoreTo_preserves (p := Machine.Colored st k) (fun _ h => h.restoreState) depth h

theorem restore (h : m.Colored st k) : m.restore.Colored st k := by
  unfold Machine.restore
  split
  · exact h.report _
  · exact h.restoreState

theorem setInk {ink : Ink α} (part : Part) (h : m.Colored st k) (hi : k = 0 → ink.Fits st) :
    (m.modifyState (·.setInk ink part)).Colored st k := by
  cases part with
  | fill => exact ⟨h.told, fun hk => ⟨hi hk, (h.inks hk).2⟩, h.saved⟩
  | stroke => exact ⟨h.told, fun hk => ⟨(h.inks hk).1, hi hk⟩, h.saved⟩

theorem ink (h : m.Colored st k) (hk : k = 0) (part : Part) : (m.state.ink part).Fits st :=
  State.Fits.ink (h.inks hk) part

theorem addPath {fill stroke : Option Paint} {evenOdd : Bool} (h : m.Colored st k)
    (hc : k = 0 → (Call.addPath m.state fill stroke evenOdd).PaintsFlat st) :
    (m.tellState (.addPath · fill stroke evenOdd)).Colored st k :=
  ⟨h.told.addPath hc, h.inks, h.saved⟩

theorem branch {c : Prop} [Decidable c] (h : m.Colored st k) (h' : n.Colored st k) :
    (if c then m else n).Colored st k := by
  split
  · exact h
  · exact h'

/-! ## Colors -/

/-- At most something was reported. -/
theorem reported (h : m.Colored st k) (hn : n = m ∨ ∃ d, n = m.report d) : n.Colored st k := by
  obtain rfl | ⟨d, rfl⟩ := hn
  · exact h
  · exact h.report d

theorem select {space : ColorSpace} {color : Color} {pattern : Option (Pattern α)} (part : Part) (h : m.Colored st k)
    (hi : k = 0 → ({ m.state.ink part with space, color, pattern } : Ink α).Fits st) :
    (m.select part space color pattern).Colored st k :=
  (h.setInk part hi).tellState rfl

theorem select_color {space : ColorSpace} {color : Color} (part : Part) (h : m.Colored st k)
    (hc : color.length = space.components) : (m.select part space color none).Colored st k :=
  h.select part fun _ => ⟨fun _ => hc, nofun⟩

theorem withChecked {β : Type} {v : Checked β} {f : β → Machine α → Machine α} (h : m.Colored st k)
    (hf : ∀ x, v = .ok x → (f x m).Colored st k) : (m.withChecked v f).Colored st k := by
  cases v with
  | ok x => exact hf x rfl
  | error p => exact h.report _

theorem setColorSpace (env : Environment α) (part : Part) (name : Name) (h : m.Colored st k) :
    (m.setColorSpace env part name).Colored st k := by
  have cleared : (m.modifyState fun s => s.setInk { s.ink part with pattern := none } part).Colored st k :=
    h.setInk part fun hk => ⟨(h.ink hk part).1, nofun⟩
  unfold Machine.setColorSpace
  dsimp only
  split
  · exact cleared.withChecked fun color hc => cleared.select_color part (ColorSpace.length_defaultColor _ color hc)
  · exact cleared.report _

theorem setColor (part : Part) (op : String) (operands : List Object) (h : m.Colored st k) :
    (m.setColor part op operands).Colored st k := by
  unfold Machine.setColor
  dsimp only
  split
  case isTrue => exact h.report _
  case isFalse hl =>
    have arity : operands.length = (m.state.ink part).space.components := by simpa using hl
    exact h.select_color part ((List.length_map _).trans arity)

end Colored

section

variable {env : Environment α}

omit [Scalar α] in
theorem requireResource_cases {category name : Name} {label : String} {o : Option Object}
    (h : m.requireResource env.store category label name = (o, n)) : n = m ∨ ∃ d, n = m.report d := by
  unfold requireResource at h
  split at h <;> cases h
  · exact .inl rfl
  · exact .inr ⟨_, rfl⟩

omit [Scalar α] in
theorem requireResource_found {category name : Name} {label : String} {o : Object}
    (h : m.requireResource env.store category label name = (some o, n)) : n = m := by
  unfold requireResource at h
  split at h <;> cases h
  rfl

theorem findPattern_cases (env : Environment α) (name : Name) (m : Machine α) :
    ((m.findPattern env name).2 = m ∨ ∃ d, (m.findPattern env name).2 = m.report d) ∧
      ∀ p, (m.findPattern env name).1 = some p → ∃ o, Pattern.ofObject env.store o = .ok p := by
  unfold findPattern
  split
  · rename_i hr
    exact ⟨requireResource_cases hr, nofun⟩
  · rename_i o n hr
    have same : n = m := requireResource_found hr
    split
    · rename_i p hp
      exact ⟨.inl same, fun q h => Option.some.inj h ▸ ⟨o, hp⟩⟩
    · exact ⟨.inr ⟨_, congrArg (report _) same⟩, nofun⟩

theorem Colored.setColorOrPattern (part : Part) (op : String) (operands : List Object) (h : m.Colored env.store k) :
    (m.setColorOrPattern env part op operands).Colored env.store k := by
  unfold Machine.setColorOrPattern
  dsimp only
  split
  case isTrue => exact h.setColor part op operands
  case isFalse hp =>
  have space : (m.state.ink part).space.isPattern = true := by simpa using hp
  have fits {color : Color} {pattern : Option (Pattern α)}
      (read : ∀ q, pattern = some q → ∃ o, Pattern.ofObject env.store o = .ok q) :
      ({ m.state.ink part with color, pattern } : Ink α).Fits env.store :=
    ⟨fun flat => absurd (space.symm.trans flat) (by decide), fun q hq => ⟨space, read q hq⟩⟩
  split
  · exact h.report _
  split
  · rename_i name _
    obtain ⟨told, read⟩ := findPattern_cases env name m
    refine (h.reported told).select part fun _ => ?_
    obtain same | ⟨d, same⟩ := told <;> rw [same] <;> exact fits read
  · exact h.select part fun hk => fits fun q hq => ((h.ink hk part).2 q hq).2

/-! ## Filling with shadings -/

/-- A level on which the cells of a shading are painted. -/
structure Shades (st : Store) (k : Nat) (s : Shading α) (saved : List (State α)) (m : Machine α) : Prop where
  told : m.Told st k
  saved : m.saved = saved
  space : m.state.fill.space = s.space

variable {s : Shading α} {saved : List (State α)}

theorem Shades.report (d : Diagnostic) (h : m.Shades st k s saved) : (m.report d).Shades st k s saved :=
  ⟨⟨h.told.tilings, h.told.painted, h.told.executed⟩, h.saved, h.space⟩

theorem Shades.fillCells (h : m.Shades st k s saved) (hs : k = 0 → ∃ o, Shading.ofObject st o = .ok s) :
    (m.fillCells s).Shades st k s saved := by
  unfold Machine.fillCells
  refine takeAll_keeps _ h (fun n hn cell hc => ⟨?_, hn.saved, hn.space⟩) fun n d hn => hn.report d
  refine Told.addPath hn.told fun hk => ⟨fun rgb opacity _ => ⟨rfl, ?_⟩, nofun⟩
  obtain ⟨o, ho⟩ := hs hk
  exact Ink.of_cell ho hc hn.space rfl

theorem Shades.fillBackground (h : m.Shades st k s saved) (hs : k = 0 → ∃ o, Shading.ofObject st o = .ok s) :
    (m.fillBackground s).Shades st k s saved := by
  unfold Machine.fillBackground
  split
  · exact h
  · rename_i color hb
    refine ⟨Told.addPath h.told fun hk => ⟨fun rgb opacity _ => ⟨rfl, .inl ?_⟩, nofun⟩, h.saved, h.space⟩
    obtain ⟨o, ho⟩ := hs hk
    have complete := Shading.ofObject_complete st o s ho
    have space : m.state.fill.space = s.space := h.space
    exact ⟨(congrArg _ space).trans complete.space, (complete.background color hb).trans (congrArg _ space.symm)⟩

theorem Shades.clearPath (h : m.Shades st k s saved) : m.clearPath.Shades st k s saved := ⟨h.told, h.saved, h.space⟩

namespace Colored

theorem approximate (matrix : Affine α) (part : Part) (evenOdd : Bool) (h : m.Colored st k)
    (hs : k = 0 → ∃ o, Shading.ofObject st o = .ok s) : (m.approximate s matrix part evenOdd).Colored st k := by
  have clipped : (if part = .fill then m.save.tellState (.setClipPath · evenOdd) else m.save).Told st k ∧
      (if part = .fill then m.save.tellState (.setClipPath · evenOdd) else m.save).saved = m.save.saved := by
    split
    · exact ⟨h.save.told.tellState rfl, rfl⟩
    · exact ⟨h.save.told, rfl⟩
  -- from here to the end of the level the fill has the space of the shading but still the color of before
  have ready : (useSpaceOf s (if part = .fill then m.save.tellState (.setClipPath · evenOdd) else m.save)).Shades st k s
      m.save.saved := ⟨clipped.1, clipped.2, rfl⟩
  have placed (n : Machine α) (hn : n.Shades st k s m.save.saved) : (if n.state.ctm.isInvertible then
      let t := (n.state.ctm.inverse.mul n.baseMatrix).mul matrix
      (n.multiply t).setTransform t
    else n).Shades st k s m.save.saved := by
    split
    · exact ⟨Told.tell hn.told rfl, hn.saved, hn.space⟩
    · exact hn
  have filled := (placed _ (ready.fillBackground hs).clearPath).fillCells hs
  exact h.level filled.told filled.saved

theorem approximatePattern {p : Pattern α} (part : Part) (evenOdd : Bool) (h : m.Colored st k)
    (hp : k = 0 → ∃ o, Pattern.ofObject st o = .ok p) : (m.approximatePattern p part evenOdd).Colored st k := by
  cases p with
  | shading s matrix =>
    refine h.approximate matrix part evenOdd fun hk => ?_
    obtain ⟨o, ho⟩ := hp hk
    exact Pattern.ofObject_shading st o _ ho s matrix rfl
  | tiling t => exact h

theorem clipToBounds (s : Shading α) {call : State α → Bool → Call α} (h : m.Colored st k)
    (hc : ∀ st, (call st false).isColorless = true) : (m.clipToBounds s call).Colored st k := by
  unfold Machine.clipToBounds
  split
  · exact h
  · exact tell (m := m.addRect _) h (hc _)

theorem shadeCells (h : m.Colored st k) (hs : k = 0 → ∃ o, Shading.ofObject st o = .ok s) :
    (m.shadeCells s).Colored st k := by
  have clipped : (m.save.clipToBounds s .setClipPath).Colored st k := h.save.clipToBounds s fun _ => rfl
  have saved : (m.save.clipToBounds s .setClipPath).saved = m.save.saved := by
    unfold Machine.clipToBounds
    split <;> rfl
  have ready : (useSpaceOf s (m.save.clipToBounds s .setClipPath)).Shades st k s m.save.saved :=
    ⟨clipped.told, saved, rfl⟩
  have filled := ready.fillCells hs
  exact h.level filled.told filled.saved

theorem shadeGradient (s : Shading α) (h : m.Colored st k) : (m.shadeGradient env s).Colored st k := by
  have asked (n : Machine α) (hn : n.Colored st k) (matrix : Option (Affine α)) :
      (n.fillGradient env s matrix).Colored st k := by
    unfold fillGradient
    split
    · exact hn
    split
    · exact hn.report _
    · dsimp only
      split
      · exact (hn.tell rfl).tell rfl
      · exact hn.tell rfl
  unfold Machine.shadeGradient
  exact asked _ (clipToBounds s (branch (h.tell rfl) h) fun _ => rfl) _

theorem shade (name : Name) (h : m.Colored env.store k) : (m.shade env name).Colored env.store k := by
  unfold Machine.shade
  split
  · rename_i hr
    exact h.reported (requireResource_cases hr)
  · rename_i hr
    have found := h.reported (requireResource_cases hr)
    split
    · exact found.report _
    · rename_i o _ _ s hs
      split
      · exact found.shadeGradient s
      · exact found.shadeCells fun _ => ⟨o, hs⟩

end Colored

end

end Machine

end

end PdfContent
