import PdfContent.Proofs.Drawing.Alike
/-!
# Alongside — two drawings with nested content

Two drawings of the same content from alike moments stay alike, nested content included, as long as the operators that
look into the history see the same in both.  What two operators see can only be compared once they were executed, so this
is a condition on all that the two drawings execute (`SeenAlike`), and a drawing that is part of them meets it because
what is executed stays so (`Along`).
-/
namespace PdfContent

/-- What an operator has seen of the operators that were executed before it. -/
def Executed.seen {α : Type} (e : Executed α) : List Bool :=
  (e.before.history.push e.operator.name).seenBy e.operator.operation

/-- The same operator, executed by two drawings at alike moments, has seen the same in both. -/
def SeenAlike {α : Type} (ran ran' : Executed α → Prop) : Prop :=
  ∀ e e', ran e → ran' e' → e.operator = e'.operator → e.before.Alike e'.before → e.seen = e'.seen

namespace Machine

variable {α : Type} [Scalar α] {env : Environment α} {ran ran' : Executed α → Prop} {inner : Inner α}
  {m n m' n' : Machine α}

/-- The machines are alike if what they executed is among that of two drawings. -/
def Along {α : Type} (ran ran' : Executed α → Prop) (m n : Machine α) : Prop :=
  (∀ e, m.executed e → ran e) → (∀ e, n.executed e → ran' e) → m.Alike n

namespace Along

section

omit [Scalar α]

theorem of_alike (h : m.Alike n) : Along ran ran' m n := fun _ _ => h

/-- What follows executes more, so what was executed before meets the condition. -/
theorem andThen (h : Along ran ran' m n) (hm : ∀ e, m.executed e → m'.executed e)
    (hn : ∀ e, n.executed e → n'.executed e) (h' : m.Alike n → Along ran ran' m' n') : Along ran ran' m' n' :=
  fun hr hr' => h' (h (fun e he => hr e (hm e he)) fun e he => hr' e (hn e he)) hr hr'

theorem map (h : Along ran ran' m n) (hm : m'.executed = m.executed) (hn : n'.executed = n.executed)
    (h' : m.Alike n → m'.Alike n') : Along ran ran' m' n' :=
  h.andThen (fun _ he => hm ▸ he) (fun _ he => hn ▸ he) fun h => of_alike (h' h)

theorem tellState (h : Along ran ran' m n) (c : State α → Call α) : Along ran ran' (m.tellState c) (n.tellState c) :=
  h.map rfl rfl fun h => h.tellState c

theorem branch {c : Prop} [Decidable c] (h : c → Along ran ran' m n) (h' : ¬c → Along ran ran' m' n') :
    Along ran ran' (if c then m else m') (if c then n else n') := by
  split
  · exact h ‹_›
  · exact h' ‹_›

theorem withSome {β : Type} {f : β → Machine α → Machine α} (v : Option β) (h : m.Alike n)
    (hf : ∀ x, Along ran ran' (f x m) (f x n)) : Along ran ran' (m.withSome v f) (n.withSome v f) := by
  cases v with
  | none => exact of_alike h
  | some x => exact hf x

theorem withChecked {β : Type} {f : β → Machine α → Machine α} (v : Checked β) (h : m.Alike n)
    (hf : ∀ x, Along ran ran' (f x m) (f x n)) : Along ran ran' (m.withChecked v f) (n.withChecked v f) := by
  cases v with
  | ok x => exact hf x
  | error p => exact of_alike (h.report _)

theorem foldl {β : Type} {f : Machine α → β → Machine α} (hf : ∀ {m n} x, Alike m n → Along ran ran' (f m x) (f n x))
    (grows : ∀ m x e, m.executed e → (f m x).executed e) (xs : List β) (h : Along ran ran' m n) :
    Along ran ran' (xs.foldl f m) (xs.foldl f n) := by
  induction xs generalizing m n with
  | nil => exact h
  | cons x xs ih =>
    rw [List.foldl_cons, List.foldl_cons]
    exact ih (h.andThen (grows m x) (grows n x) fun h => hf x h)

theorem takeAll {β : Type} {f : Machine α → β → Machine α} (hf : ∀ {m n} x, Alike m n → Along ran ran' (f m x) (f n x))
    (grows : ∀ m x e, m.executed e → (f m x).executed e) (values : Emission β) (h : Along ran ran' m n) :
    Along ran ran' (m.takeAll f values) (n.takeAll f values) := by
  unfold Machine.takeAll
  dsimp only
  split
  · exact foldl hf grows _ h
  · exact (foldl hf grows _ h).map rfl rfl fun h => h.report _

end

theorem draws {p : Span} (h : Along ran ran' m n) (hm : Draws env p m m') (hn : Draws env p n n')
    (h' : m.Alike n → Along ran ran' m' n') : Along ran ran' m' n' :=
  h.andThen hm.executed_mono hn.executed_mono h'

end Along

/-- Nested content stays alike. -/
structure Follows (env : Environment α) (ran ran' : Executed α → Prop) (inner : Inner α) : Prop where
  hears : env.builder.HearsCalls
  seen : SeenAlike ran ran'
  draws : ∀ items m, Draws env .content m (inner items m)
  along : ∀ items {m n}, m.Alike n → Along ran ran' (inner items m) (inner items n)

theorem grows_lasting (m : Machine α) : Lasting env fun n => ∀ e, m.executed e → n.executed e :=
  ⟨fun h hm e he => h.executed_mono e (hm e he), fun _ _ hm => hm⟩

omit [Scalar α] in
theorem popResources_executed (m : Machine α) : m.popResources.executed = m.executed := by
  obtain ⟨_, hp⟩ := popResources_eq m
  rw [hp]

theorem leaveForm_executed (use : FormUse α) (m : Machine α) : (leaveForm use m).executed = m.executed := by
  have level (k : Machine α) : k.restoreState.popResources.executed = k.executed :=
    (popResources_executed _).trans (restoreState_executed k)
  cases use <;> exact level _

omit [Scalar α] in
theorem beginMarked (m : Machine α) : m.Alike { m with markedContent := m.markedContent + 1 } :=
  ⟨m.log, m.history, m.markedContent + 1, rfl, rfl⟩

omit [Scalar α] in
theorem endMarked (m : Machine α) : m.Alike (if m.markedContent == 0 then m.report .unbalancedMarkedContent
    else { m with markedContent := m.markedContent - 1 }) := by
  split
  · exact .reported rfl m
  · exact ⟨m.log, m.history, m.markedContent - 1, rfl, rfl⟩

namespace Follows

variable (hf : Follows env ran ran' inner) (h : m.Alike n)
include hf h

/-! ## The three places where content begins -/

theorem runNested (s : Stream) : Along ran ran' (m.runNested env inner s) (n.runNested env inner s) := by
  have floor : n.restoreFloor = m.restoreFloor := h.same (·.restoreFloor) fun _ _ _ _ _ => rfl
  have raised := h.update (fun k => { k with restoreFloor := k.saved.length }) fun _ _ _ _ _ => rfl
  unfold Machine.runNested
  dsimp only at raised ⊢
  rw [h.saved] at raised ⊢
  rw [floor]
  refine (hf.along _ raised).map (restoreTo_executed _ _) (restoreTo_executed _ _) fun drawn => ?_
  exact (drawn.restoreTo m.saved.length).update (fun k => { k with restoreFloor := m.restoreFloor })
    fun _ _ _ _ _ => rfl

theorem drawForm (f : Form α) (use : FormUse α) :
    Along ran ran' (m.drawForm env inner f use) (n.drawForm env inner f use) := by
  have entered := (h.update (fun k => { k with nesting := k.nesting + 1 }) fun _ _ _ _ _ => rfl).enterForm f use
  have grouped := Alike.branch (c := use.group?.isSome) (fun _ => entered.enterGroup) (fun _ => entered)
  have base := grouped.same (·.baseMatrix) fun _ _ _ _ _ => rfl
  have begun := grouped.update (fun k => { k with baseMatrix := k.state.ctm }) fun _ _ _ _ _ => rfl
  unfold Machine.drawForm
  dsimp only at base begun ⊢
  rw [base]
  have left {k l : Machine α} (drawn : k.Alike l) (baseMatrix : Affine α) :=
    ((drawn.update (fun k => { k with baseMatrix }) fun _ _ _ _ _ => rfl).leaveForm use).update
      (fun k => { k with nesting := k.nesting - 1 }) fun _ _ _ _ _ => rfl
  exact (hf.runNested begun f.content).map (leaveForm_executed use _) (leaveForm_executed use _) fun h => left h _

theorem drawGlyph (f : Font) (code : Nat) (pen : Point α) :
    Along ran ran' (m.drawGlyph env inner f code pen) (n.drawGlyph env inner f code pen) := by
  unfold Machine.drawGlyph
  rw [h.state, h.same (·.glyphDepth) fun _ _ _ _ _ => rfl]
  refine .branch (fun _ => .of_alike h) fun _ => ?_
  split
  · exact .of_alike h
  refine .branch (fun _ => .of_alike h) fun _ => ?_
  have entered := (h.save.concatNested (m.state.ctm.inverse.mul (glyphMatrix m.state f pen))).pushResources
    (f.resources?.getD .empty)
  have counted := entered.update (fun k => { k with glyphDepth := k.glyphDepth + 1 }) fun _ _ _ _ _ => rfl
  have same (k : Machine α) : { k with glyphDepth := k.glyphDepth - 1 }.popResources.restoreState.executed =
      k.executed := (restoreState_executed _).trans (popResources_executed _)
  refine (hf.runNested counted _).map (same _) (same _) fun drawn => ?_
  exact (drawn.update (fun k => { k with glyphDepth := k.glyphDepth - 1 })
    fun _ _ _ _ _ => rfl).popResources.restoreState

theorem runTiling (t : Tiling α) (seed : Option (ColorSpace × Color)) :
    Along ran ran' (m.runTiling env inner t seed) (n.runTiling env inner t seed) :=
  (hf.along _ (h.cellOf t seed)).map (restoreTo_executed 0 _) (restoreTo_executed 0 _) fun drawn =>
    h.withLog (drawn.restoreTo 0)

theorem tilingPaint (t : Tiling α) (part : Part) : ∃ p m' n', m.tilingPaint env inner t part = (p, m') ∧
    n.tilingPaint env inner t part = (p, n') ∧ Along ran ran' m' n' := by
  have placed : n.patternTransform t.matrix = m.patternTransform t.matrix :=
    h.same (·.patternTransform t.matrix) fun _ _ _ _ _ => rfl
  have told := h.tell (.pushTiling { t with matrix := m.patternTransform t.matrix } part)
  unfold Machine.tilingPaint
  rw [h.nesting, h.state, placed]
  split
  · exact ⟨_, _, _, rfl, rfl, .of_alike h⟩
  · dsimp only
    rw [hf.hears.tiling told.calls_eq]
    exact ⟨_, _, _, rfl, rfl, (hf.runTiling told t _).map rfl rfl fun drawn => drawn.tell .popTiling⟩

/-! ## Paths -/

theorem paintOf (part : Part) : ∃ p m' n', m.paintOf env inner part = (p, m') ∧
    n.paintOf env inner part = (p, n') ∧ Along ran ran' m' n' := by
  unfold Machine.paintOf
  rw [h.state]
  dsimp only
  split
  · exact ⟨_, _, _, rfl, rfl, .of_alike h⟩
  split
  · exact ⟨_, _, _, rfl, rfl, .of_alike h⟩
  · rename_i s matrix _
    obtain ⟨p, m', n', hm, hn, h'⟩ := h.gradientPaint hf.hears s matrix
    exact ⟨p, m', n', hm, hn, .of_alike h'⟩
  · exact hf.tilingPaint h _ part

theorem paintPart (part : Part) (approximated : Option (Pattern α)) (evenOdd : Bool) :
    Along ran ran' (m.paintPart env inner part approximated evenOdd)
      (n.paintPart env inner part approximated evenOdd) := by
  unfold Machine.paintPart
  cases approximated with
  | some p => exact .of_alike (h.approximatePattern p part evenOdd)
  | none =>
    obtain ⟨p, m', n', hm, hn, painted⟩ := hf.paintOf h part
    dsimp only
    rw [hm, hn]
    exact .branch (fun _ => painted) fun _ => painted.tellState _

theorem paintIf (part : Part) (wanted : Bool) :
    ∃ p m' n', (if wanted then m.paintOf env inner part else (none, m)) = (p, m') ∧
      (if wanted then n.paintOf env inner part else (none, n)) = (p, n') ∧ Along ran ran' m' n' := by
  cases wanted with
  | true => exact hf.paintOf h part
  | false => exact ⟨_, _, _, rfl, rfl, .of_alike h⟩

theorem paintBoth (how : PathPainting) :
    Along ran ran' (m.paintBoth env inner how) (n.paintBoth env inner how) := by
  obtain ⟨fill, k, l, hk, hl, filled⟩ := hf.paintIf h .fill how.fill
  have stroked (k : Machine α) : Draws env (.part false) k
      (if how.stroke then k.paintOf env inner .stroke else (none, k)).2 := .paintIf hf.draws .stroke how.stroke k
  unfold Machine.paintBoth
  rw [hk, hl]
  dsimp only
  refine filled.draws ((stroked k).trans (.branch (fun _ => .tellState rfl rfl) fun _ => .refl _))
    ((stroked l).trans (.branch (fun _ => .tellState rfl rfl) fun _ => .refl _)) fun h => ?_
  obtain ⟨stroke, k', l', hk', hl', drawn⟩ := hf.paintIf h .stroke how.stroke
  rw [hk', hl']
  exact .branch (fun _ => drawn.tellState _) fun _ => drawn

theorem paintCurrent (how : PathPainting) :
    Along ran ran' (m.paintCurrent env inner how) (n.paintCurrent env inner how) := by
  have one {k l : Machine α} (h : k.Alike l) (part : Part) (wanted : Bool) (p : Option (Pattern α)) :
      Along ran ran' (if wanted then k.paintPart env inner part p how.evenOdd else k)
        (if wanted then l.paintPart env inner part p how.evenOdd else l) :=
    .branch (fun _ => hf.paintPart h part p how.evenOdd) fun _ => .of_alike h
  have drawn (p : Option (Pattern α)) (k : Machine α) : Draws env (.part false) k
      (if how.stroke then k.paintPart env inner .stroke p how.evenOdd else k) :=
    .branch (fun _ => .paintPart hf.draws .stroke p how.evenOdd k) fun _ => .refl k
  unfold Machine.paintCurrent
  rw [h.unsupported? hf.hears, h.unsupported? hf.hears]
  refine .branch (fun _ => hf.paintBoth h how) fun _ => ?_
  exact (one h .fill how.fill _).draws (drawn _ _) (drawn _ _) fun h => one h .stroke how.stroke _

theorem paintPath (how : PathPainting) :
    Along ran ran' (m.paintPath env inner how) (n.paintPath env inner how) := by
  have last (k : Machine α) : Draws env (.part false) k k.endPath := .endPath k
  have ended {k l : Machine α} (h : Along ran ran' k l) : Along ran ran' k.endPath l.endPath :=
    h.draws (last k) (last l) fun h => .of_alike h.endPath
  unfold Machine.paintPath
  rw [h.state]
  refine .branch (fun _ => .of_alike (h.report _)) fun _ => ended ?_
  have closed : Alike (if how.close then m.setOutline (m.state.outline.close?.getD m.state.outline) else m)
      (if how.close then n.setOutline (m.state.outline.close?.getD m.state.outline) else n) :=
    .branch (fun _ => h.setOutline _) fun _ => h
  rw [closed.state]
  exact .branch (fun _ => hf.paintCurrent closed how) fun _ => .of_alike closed

/-! ## Forms and soft masks -/

theorem drawFormStream (s : Stream) : Along ran ran' (m.drawFormStream env inner s) (n.drawFormStream env inner s) := by
  unfold Machine.drawFormStream
  rw [h.nesting]
  refine .branch (fun _ => .of_alike h) fun _ => ?_
  split
  · exact .of_alike (h.report _)
  · exact .withChecked _ h fun use => hf.drawForm h _ use

theorem drawObject (name : Name) : Along ran ran' (m.drawObject env inner name) (n.drawObject env inner name) := by
  obtain ⟨o, m', n', hm, hn, h'⟩ := h.requireResource env.store "XObject" "xobject" name
  unfold Machine.drawObject
  rw [hm, hn]
  cases o with
  | none => exact .of_alike h'
  | some o =>
    cases o with
    | stream s =>
      dsimp only
      split
      · refine .branch (fun _ => .of_alike (h'.drawImage s false)) fun _ => ?_
        exact .branch (fun _ => hf.drawFormStream h' s) fun _ => .of_alike h'
      · exact .of_alike h'
    | _ => exact .of_alike h'

theorem drawSoftMask (source : MaskSource) :
    Along ran ran' (m.drawSoftMask env inner source) (n.drawSoftMask env inner source) := by
  unfold Machine.drawSoftMask
  rw [h.nesting]
  refine .branch (fun _ => .of_alike h) fun _ => ?_
  split
  · exact .of_alike (h.report _)
  · exact hf.drawForm h _ _

theorem setSoftMask (o : Object) : Along ran ran' (m.setSoftMask env inner o) (n.setSoftMask env inner o) := by
  unfold Machine.setSoftMask
  split
  · exact .branch (fun _ => .of_alike ((h.modifyState _).tellState _)) fun _ => .of_alike (h.report _)
  · split
    · exact hf.drawSoftMask h _
    · exact .of_alike (h.report _)
  · exact .of_alike (h.report _)

theorem setParameters (name : Name) :
    Along ran ran' (m.setParameters env inner name) (n.setParameters env inner name) := by
  obtain ⟨o, m', n', hm, hn, h'⟩ := h.requireResource env.store "ExtGState" "ExtGState" name
  have applied (d : Dict) := Alike.foldl (fun entry h => h.setParameter env d entry) d.entries h'
  unfold Machine.setParameters
  rw [hm, hn]
  cases o with
  | none => exact .of_alike h'
  | some o =>
    cases o with
    | dict d =>
      dsimp only
      refine Along.tellState ?_ _
      split
      · exact hf.setSoftMask (applied d) _
      · exact .of_alike (applied d)
    | _ => exact .of_alike (h'.report _)

/-! ## Text -/

theorem showChar (f : Font) (size : α) (rise : Point α) (c : FontChar) :
    Along ran ran' (m.showChar env inner f size rise c) (n.showChar env inner f size rise c) := by
  unfold Machine.showChar
  rw [h.state]
  dsimp only
  refine Along.map (.branch (fun _ => ?_) fun _ => .of_alike (h.tellState _)) rfl rfl fun h => h.modifyText _
  exact hf.drawGlyph h f _ _

theorem showString (s : Bytes) : Along ran ran' (m.showString env inner s) (n.showString env inner s) := by
  unfold Machine.showString
  rw [h.state]
  split
  · exact .of_alike h
  · rename_i f _
    dsimp only
    refine Along.tellState ?_ _
    exact .takeAll (fun c h => hf.showChar h f _ _ c)
      (fun k c => (grows_lasting k).showChar hf.draws (fun _ he => he) f _ _ c) _ (.of_alike (h.tellState _))

theorem showText (op : String) {prepare : Machine α → Machine α} (s : Bytes)
    (hp : ∀ {k l : Machine α}, k.Alike l → (prepare k).Alike (prepare l)) :
    Along ran ran' (m.showText env inner op prepare s) (n.showText env inner op prepare s) := by
  unfold Machine.showText
  rw [h.state]
  exact .branch (fun _ => .of_alike (h.report _)) fun _ => hf.showString (hp h.announceFont) s

theorem showElement (o : Object) : Along ran ran' (m.showElement env inner o) (n.showElement env inner o) := by
  unfold Machine.showElement
  split
  · exact .of_alike (h.adjust _)
  · exact hf.showString h _
  · exact .of_alike h

theorem showAdjusted (op : String) (items : List Object) :
    Along ran ran' (m.showAdjusted env inner op items) (n.showAdjusted env inner op items) := by
  unfold Machine.showAdjusted
  rw [h.state]
  refine .branch (fun _ => .of_alike (h.report _)) fun _ => ?_
  exact .foldl (fun o h => hf.showElement h o)
    (fun k o => (grows_lasting k).showElement hf.draws (fun _ he => he) o) items (.of_alike h.announceFont)

/-! ## Operators -/

section

variable {op : Operator} (seen : m.history.seenBy op.operation = n.history.seenBy op.operation)
include seen

theorem executeState (a : Operands) :
    Along ran ran' (m.executeState env inner op a) (n.executeState env inner op a) := by
  unfold Machine.executeState Machine.restyle
  split
  case h_1 => exact .of_alike h.save
  case h_2 => exact .of_alike h.restore
  case h_3 hop => exact .of_alike (h.concat hf.hears seen hop _)
  case h_4 | h_5 | h_6 | h_7 | h_8 => exact .of_alike ((h.modifyState _).tellState _)
  case h_9 => exact .withSome _ h fun _ => .of_alike (h.modifyState _)
  case h_10 => exact .of_alike (h.modifyState _)
  case h_11 => exact .withSome _ h fun name => hf.setParameters h name
  case h_12 => exact .of_alike (h.select _ _ _ none)
  case h_13 => exact .withSome _ h fun name => .of_alike (h.setColorSpace _ name)
  case h_14 => exact .of_alike (h.setColor _ _ _)
  case h_15 => exact .of_alike (h.setColorOrPattern _ _ _)
  case h_16 => exact .of_alike h

theorem executePath (a : Operands) :
    Along ran ran' (m.executePath env inner op a) (n.executePath env inner op a) := by
  unfold Machine.executePath
  split
  case h_1 => rw [h.state]; exact .of_alike (h.setOutline _)
  case h_2 | h_3 | h_4 | h_5 | h_6 => exact .of_alike (h.extend _ _)
  case h_7 => exact .of_alike (h.addRect _)
  case h_8 => exact .of_alike h.endPath
  case h_9 => exact hf.paintPath h _
  case h_10 hop => exact .withSome _ h fun name => .of_alike (h.shade hf.hears seen hop name)
  case h_11 rule _ => exact .of_alike (h.update (fun k => { k with pendingClip := some rule }) fun _ _ _ _ _ => rfl)
  case h_12 => exact .of_alike h

omit seen

theorem executeText (a : Operands) :
    Along ran ran' (m.executeText env inner op a) (n.executeText env inner op a) := by
  have shows {prepare : Machine α → Machine α} (hp : ∀ {k l : Machine α}, k.Alike l → (prepare k).Alike (prepare l)) :
      Along ran ran' (m.withSome a.string? (Machine.showText env inner op.name prepare))
        (n.withSome a.string? (Machine.showText env inner op.name prepare)) :=
    .withSome _ h fun s => hf.showText h op.name s hp
  unfold Machine.executeText
  split
  case h_1 => exact .of_alike h.beginText
  case h_2 => exact .of_alike (h.tellState _)
  case h_3 | h_4 | h_6 | h_9 => exact .of_alike (h.modifyText _)
  case h_5 => exact .of_alike (h.setScaling _)
  case h_7 => exact .withSome _ h fun name => .of_alike (h.setFont name _)
  case h_8 => exact .withSome _ h fun mode => .of_alike (h.setTextMode mode)
  case h_10 => exact .of_alike (h.moveLine _)
  case h_11 => exact .of_alike ((h.modifyText _).moveLine _)
  case h_12 => exact .of_alike (h.setTextMatrix _)
  case h_13 => exact .of_alike h.nextLine
  case h_14 => exact shows id
  case h_15 => exact shows Alike.nextLine
  case h_16 => exact shows fun h => (h.modifyText _).nextLine
  case h_17 => exact .withSome _ h fun items => hf.showAdjusted h op.name items
  case h_18 => exact .of_alike h

theorem executeObject (a : Operands) (image : Option Content.ImageSource) :
    Along ran ran' (m.executeObject env inner op a image) (n.executeObject env inner op a image) := by
  unfold Machine.executeObject
  split
  case h_1 => exact .withSome _ h fun name => hf.drawObject h name
  case h_2 => exact .withSome _ h fun source => .of_alike (h.drawInline source)
  case h_3 => exact .of_alike (h.report _)
  case h_4 =>
    exact .of_alike (h.update (fun k => { k with compatibility := k.compatibility + 1 }) fun _ _ _ _ _ => rfl)
  case h_5 =>
    exact .of_alike (h.update (fun k => { k with compatibility := k.compatibility - 1 }) fun _ _ _ _ _ => rfl)
  case h_6 => exact .of_alike ((beginMarked m).symm.trans (h.trans (beginMarked n)))
  case h_7 => exact .of_alike ((endMarked m).symm.trans (h.trans (endMarked n)))
  case h_8 => exact .of_alike h

include seen

theorem execute (a : Operands) (image : Option Content.ImageSource) :
    Along ran ran' (m.execute env inner op a image) (n.execute env inner op a image) := by
  unfold Machine.execute
  split
  all_goals first
    | exact hf.executeState h seen a
    | exact hf.executePath h seen a
    | exact hf.executeText h a
    | exact hf.executeObject h a image

end

theorem perform (op : Operator) (taken : List Object) (image : Option Content.ImageSource) :
    Along ran ran' (m.perform env inner op taken image) (n.perform env inner op taken image) := by
  -- the operator is among what the drawings execute, so it has seen the same in both
  intro hm hn
  have pushed := h.push op.name
  have seen := hf.seen _ _ (hm _ (.inl rfl)) (hn _ (.inl rfl)) rfl h
  have done := hf.execute pushed seen ⟨taken⟩ image (fun e he => hm e (.inr he)) fun e he => hn e (.inr he)
  exact done

theorem command (name : Bytes) (operands : List Object) (image : Option Content.ImageSource) :
    Along ran ran' (m.command env inner name operands image) (n.command env inner name operands image) := by
  have compatibility : n.compatibility = m.compatibility := h.same (·.compatibility) fun _ _ _ _ _ => rfl
  unfold Machine.command
  rw [compatibility]
  split
  · exact .branch (fun _ => .of_alike (h.report _)) fun _ => .of_alike h
  split
  · exact .of_alike (h.report _)
  · exact hf.perform h _ _ image

end Follows

end Machine

end PdfContent
