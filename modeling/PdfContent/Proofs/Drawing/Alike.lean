import PdfContent.Proofs.Drawing.Begins
/-!
# Alike — moments that a builder cannot tell apart

A builder hears calls, and a panic that ends them.  It does not hear what else is reported between them, and it knows
neither the history of operators nor how many marked sections are open.  Moments that differ in nothing else
(`Moment.Alike`) stay alike in whatever happens outside of nested content, but for the two operators that look into the
history.
-/
namespace PdfContent

def calls {α : Type} : Log α → List (Call α)
  | [] => []
  | .call c :: log => c :: calls log
  | .report _ :: log => calls log

/-- The calls and the panics of a log, the last one first. -/
def heard {α : Type} : Log α → List (Call α ⊕ Panic)
  | [] => []
  | .call c :: log => .inl c :: heard log
  | .report d :: log => (d.panic?.map .inr).toList ++ heard log

theorem calls_eq_heard {α : Type} (log : Log α) : calls log = (heard log).filterMap Sum.getLeft? := by
  induction log with
  | nil => rfl
  | cons e log ih =>
    cases e with
    | call c => exact congrArg (c :: ·) ih
    | report d =>
      rw [calls, heard, ih]
      cases d.panic? <;> rfl

/-- A builder answers by the calls alone. -/
structure Builder.HearsCalls {α : Type} (b : Builder α) : Prop where
  transform : ∀ {log log' : Log α}, calls log = calls log' → b.transform log = b.transform log'
  supports : ∀ {log log' : Log α}, calls log = calls log' → b.supports log = b.supports log'
  gradient : ∀ {log log' : Log α}, calls log = calls log' → b.gradient log = b.gradient log'
  tiling : ∀ {log log' : Log α}, calls log = calls log' → b.tiling log = b.tiling log'

namespace Builder

variable {α : Type}

theorem openTransforms_calls (log : Log α) : openTransforms log = openTransforms ((calls log).map .call) := by
  induction log with
  | nil => rfl
  | cons e log ih =>
    cases e with
    | report => exact ih
    | call c =>
      rw [calls, List.map_cons]
      cases c <;> simp only [openTransforms, ih]

theorem paintServers_calls (gradients : Bool) (log : Log α) :
    paintServers gradients log = paintServers gradients ((calls log).map .call) := by
  induction log with
  | nil => rfl
  | cons e log ih =>
    cases e with
    | report => exact ih
    | call c =>
      rw [calls, List.map_cons]
      cases c <;> simp only [paintServers, ih]

theorem recording_hearsCalls (gradients : Bool) : (recording gradients : Builder α).HearsCalls := by
  have transforms {log log' : Log α} (h : calls log = calls log') : openTransforms log = openTransforms log' := by
    rw [openTransforms_calls, h, ← openTransforms_calls]
  have servers (gradients : Bool) {log log' : Log α} (h : calls log = calls log') :
      paintServers gradients log = paintServers gradients log' := by
    rw [paintServers_calls, h, ← paintServers_calls]
  refine ⟨fun h => ?_, fun _ => rfl, fun h => ?_, fun h => ?_⟩
  · exact congrArg (fun ts : List (Option (Affine α)) => ts.head?.join) (transforms h)
  · exact congrArg (fun n => if gradients then some ("gradient" ++ toString n) else none) (servers true h)
  · exact congrArg (fun n => "pattern" ++ toString n) (servers gradients h)

end Builder

/-- What an operation asks of the operators that were executed before it, if the history ends with itself: a change of the
coordinate system, whether the one before is a save and whether it is such a change or the start of a page; a shading,
whether there was such a change not long ago. -/
def OpHistory.seenBy (h : OpHistory) : Operation → List Bool
  | .concat => [h.previous 1 == "q", h.previous 1 == "cm" || h.previous 1 == "startPage"]
  | .shade => [Machine.sawConcat h]
  | _ => []

/-- Moments that differ in nothing but the reports, the history of operators and the count of marked sections. -/
def Moment.Alike {α : Type} (m n : Moment α) : Prop :=
  ∃ log history markedContent, heard log = heard m.log ∧ n = { m with log, history, markedContent }

namespace Machine

def Alike {α : Type} (m n : Machine α) : Prop := Moment.Alike m.toMoment n.toMoment

namespace Alike

section

variable {α : Type} {env : Environment α} {k m n : Machine α}

theorem refl (m : Machine α) : m.Alike m := ⟨_, _, _, rfl, rfl⟩

/-- Alike machines, as one of them and what the other has in place of it. -/
theorem eq (h : m.Alike n) : ∃ log history markedContent executed, heard log = heard m.log ∧
    n = { m with log, history, markedContent, executed } := by
  obtain ⟨log, history, marked, hl, hn⟩ := h
  obtain ⟨_, executed⟩ := n
  cases hn
  exact ⟨log, history, marked, executed, hl, rfl⟩

theorem symm (h : m.Alike n) : n.Alike m := by
  obtain ⟨_, _, _, _, hl, rfl⟩ := h.eq
  exact ⟨m.log, m.history, m.markedContent, hl.symm, rfl⟩

theorem trans (h : k.Alike m) (h' : m.Alike n) : k.Alike n := by
  obtain ⟨_, _, _, _, hl, rfl⟩ := h.eq
  obtain ⟨log, history, marked, _, hl', rfl⟩ := h'.eq
  exact ⟨log, history, marked, hl'.trans hl, rfl⟩

theorem heard_eq (h : m.Alike n) : heard m.log = heard n.log := by
  obtain ⟨_, _, _, _, hl, rfl⟩ := h.eq
  exact hl.symm

theorem calls_eq (h : m.Alike n) : calls m.log = calls n.log := by
  rw [calls_eq_heard, h.heard_eq, ← calls_eq_heard]

/-- What does not depend on anything that may be different is the same. -/
theorem same {β : Type} (h : m.Alike n) (f : Machine α → β)
    (hf : ∀ (m : Machine α) log history markedContent executed,
      f { m with log, history, markedContent, executed } = f m) : f n = f m := by
  obtain ⟨log, history, marked, executed, -, rfl⟩ := h.eq
  exact hf m log history marked executed

theorem state (h : m.Alike n) : n.state = m.state := h.same (·.state) fun _ _ _ _ _ => rfl

theorem saved (h : m.Alike n) : n.saved = m.saved := h.same (·.saved) fun _ _ _ _ _ => rfl

theorem clips (h : m.Alike n) : n.clips = m.clips := h.same (·.clips) fun _ _ _ _ _ => rfl

theorem nesting (h : m.Alike n) : n.nesting = m.nesting := h.same (·.nesting) fun _ _ _ _ _ => rfl

theorem resource? (h : m.Alike n) (st : Store) (category name : Name) :
    n.resource? st category name = m.resource? st category name :=
  h.same (·.resource? st category name) fun _ _ _ _ _ => rfl

/-! ## Steps -/

theorem tell (h : m.Alike n) (c : Call α) : (m.tell c).Alike (n.tell c) := by
  obtain ⟨log, history, marked, _, hl, rfl⟩ := h.eq
  exact ⟨.call c :: log, history, marked, congrArg (Sum.inl c :: ·) hl, rfl⟩

theorem report (h : m.Alike n) (d : Diagnostic) : (m.report d).Alike (n.report d) := by
  obtain ⟨log, history, marked, _, hl, rfl⟩ := h.eq
  exact ⟨.report d :: log, history, marked, congrArg ((d.panic?.map Sum.inr).toList ++ ·) hl, rfl⟩

/-- What is reported is not heard, unless it is a panic. -/
theorem reported {d : Diagnostic} (hd : d.panic? = none) (m : Machine α) : m.Alike (m.report d) :=
  ⟨.report d :: m.log, m.history, m.markedContent, congrArg (fun p => (Option.map Sum.inr p).toList ++ heard m.log) hd, rfl⟩

theorem tellState (h : m.Alike n) (c : State α → Call α) : (m.tellState c).Alike (n.tellState c) := by
  unfold Machine.tellState
  rw [h.state]
  exact h.tell _

/-- A change that neither looks at what may be different nor changes it. -/
theorem update (h : m.Alike n) (f : Machine α → Machine α)
    (hf : ∀ (m : Machine α) log history markedContent executed,
      f { m with log, history, markedContent, executed } = { f m with log, history, markedContent, executed }) :
    (f m).Alike (f n) := by
  obtain ⟨log, history, marked, executed, hl, rfl⟩ := h.eq
  have own : (f m).log = m.log := congrArg (·.log) (hf m m.log m.history m.markedContent m.executed)
  rw [hf m log]
  exact ⟨log, history, marked, by rw [hl, own], rfl⟩

theorem modifyState (h : m.Alike n) (f : State α → State α) : (m.modifyState f).Alike (n.modifyState f) :=
  h.update _ (fun _ _ _ _ _ => rfl)

theorem setOutline (h : m.Alike n) (o : Outline α) : (m.setOutline o).Alike (n.setOutline o) := h.modifyState _

theorem fontChanged (h : m.Alike n) (b : Bool) : Alike { m with fontChanged := b } { n with fontChanged := b } :=
  h.update (fun m => { m with fontChanged := b }) (fun _ _ _ _ _ => rfl)

theorem save (h : m.Alike n) : m.save.Alike n.save :=
  (h.tell .save).update (fun k => { k with saved := k.state :: k.saved, clips := k.clips.save })
    (fun _ _ _ _ _ => rfl)

theorem pushResources (h : m.Alike n) (d : Dict) : (m.pushResources d).Alike (n.pushResources d) :=
  h.update _ (fun _ _ _ _ _ => rfl)

theorem popResources (h : m.Alike n) : m.popResources.Alike n.popResources := by
  obtain ⟨log, history, marked, executed, hl, rfl⟩ := h.eq
  unfold Machine.popResources
  dsimp only
  split <;> exact ⟨log, history, marked, hl, rfl⟩

theorem setTransform (h : m.Alike n) (t : Affine α) : (m.setTransform t).Alike (n.setTransform t) :=
  (h.tell (.setTransform t)).update (fun k => { k with firstTransform := some (k.firstTransform.getD t) })
    (fun _ _ _ _ _ => rfl)

theorem push (h : m.Alike n) (name : String) :
    Alike { m with history := m.history.push name } { n with history := n.history.push name } := by
  obtain ⟨log, history, marked, _, hl, rfl⟩ := h.eq
  exact ⟨log, history.push name, marked, hl, rfl⟩

theorem branch {c : Prop} [Decidable c] {m' n' : Machine α} (h : c → m.Alike n) (h' : ¬c → m'.Alike n') :
    Alike (if c then m else m') (if c then n else n') := by
  split
  · exact h ‹_›
  · exact h' ‹_›

theorem foldl {β : Type} {f : Machine α → β → Machine α} (hf : ∀ {m n} x, Alike m n → Alike (f m x) (f n x)) :
    ∀ (xs : List β) {m n : Machine α}, m.Alike n → Alike (xs.foldl f m) (xs.foldl f n)
  | [], _, _, h => h
  | x :: xs, _, _, h => foldl hf xs (hf x h)

theorem withChecked {β : Type} (h : m.Alike n) (v : Checked β) {f : β → Machine α → Machine α}
    (hf : ∀ x, Alike (f x m) (f x n)) : (m.withChecked v f).Alike (n.withChecked v f) := by
  cases v with
  | ok x => exact hf x
  | error p => exact h.report _

theorem takeAll {β : Type} {f : Machine α → β → Machine α} (hf : ∀ {m n} x, Alike m n → Alike (f m x) (f n x))
    (values : Emission β) (h : m.Alike n) : (m.takeAll f values).Alike (n.takeAll f values) := by
  unfold Machine.takeAll
  dsimp only
  split
  · exact foldl hf _ h
  · exact (foldl hf _ h).report _

theorem requireResource (h : m.Alike n) (st : Store) (category : Name) (label : String) (name : Name) :
    ∃ o m' n', m.requireResource st category label name = (o, m') ∧
      n.requireResource st category label name = (o, n') ∧ m'.Alike n' := by
  unfold Machine.requireResource
  rw [h.resource?]
  cases m.resource? st category name with
  | none => exact ⟨_, _, _, rfl, rfl, h.report _⟩
  | some o => exact ⟨_, _, _, rfl, rfl, h⟩

theorem clipped (h : m.Alike n) (rule : FillRule) (c : State α → Call α) :
    Alike { m.tellState c with clips := m.clips.set m.state.path rule }
      { n.tellState c with clips := n.clips.set n.state.path rule } :=
  (h.tellState c).update (fun k => { k with clips := k.clips.set k.state.path rule }) (fun _ _ _ _ _ => rfl)

theorem extend (h : m.Alike n) (label : String) (f : Outline α → Option (Outline α)) :
    (m.extend label f).Alike (n.extend label f) := by
  unfold Machine.extend
  rw [h.state]
  split
  · exact h.setOutline _
  · exact h.report _

/-! ## Colors and shadings by cells -/

theorem select (h : m.Alike n) (part : Part) (space : ColorSpace) (color : Color) (pattern : Option (Pattern α)) :
    (m.select part space color pattern).Alike (n.select part space color pattern) :=
  (h.modifyState _).tellState _

theorem setColorSpace (h : m.Alike n) (part : Part) (name : Name) :
    (m.setColorSpace env part name).Alike (n.setColorSpace env part name) := by
  have cleared := h.modifyState fun s => s.setInk { s.ink part with pattern := none } part
  unfold Machine.setColorSpace
  dsimp only at cleared ⊢
  rw [cleared.resource?]
  split
  · exact cleared.withChecked _ fun _ => cleared.select part _ _ none
  · exact cleared.report _

theorem setColor (h : m.Alike n) (part : Part) (op : String) (operands : List Object) :
    (m.setColor part op operands).Alike (n.setColor part op operands) := by
  unfold Machine.setColor
  rw [h.state]
  exact branch (fun _ => h.report _) fun _ => h.select part _ _ none

theorem useSpaceOf (h : m.Alike n) (s : Shading α) : (m.useSpaceOf s).Alike (n.useSpaceOf s) := h.modifyState _

theorem fillBackground (h : m.Alike n) (s : Shading α) : (m.fillBackground s).Alike (n.fillBackground s) := by
  unfold Machine.fillBackground
  split
  · exact h
  · exact (h.modifyState _).tellState _

end

section

variable {α : Type} [Scalar α] {env : Environment α} {m n : Machine α}

theorem clearPath (h : m.Alike n) : m.clearPath.Alike n.clearPath := h.setOutline _

omit [Scalar α] in
theorem addRect (h : m.Alike n) (r : Rect α) : (m.addRect r).Alike (n.addRect r) := by
  unfold Machine.addRect
  rw [h.state]
  exact h.setOutline _

theorem multiply (h : m.Alike n) (t : Affine α) : (m.multiply t).Alike (n.multiply t) := h.modifyState _

theorem concatNested (h : m.Alike n) (t : Affine α) : (m.concatNested t).Alike (n.concatNested t) :=
  (((h.multiply t).tell .pushGroup).setTransform t).fontChanged true

theorem restoreState (h : m.Alike n) : m.restoreState.Alike n.restoreState := by
  cases hm : m.saved with
  | nil =>
    have hn : n.saved = [] := h.saved.trans hm
    unfold Machine.restoreState
    rw [hm, hn]
    exact h
  | cons s saved =>
    rw [restoreState_cons hm, restoreState_cons (h.saved.trans hm)]
    exact (h.tell .restore).update
      (fun k => { k with state := { s with outline := .ofPath k.state.path }, saved, clips := k.clips.restore })
      (fun _ _ _ _ _ => rfl)

theorem restoreTo (h : m.Alike n) (depth : Nat) : (m.restoreTo depth).Alike (n.restoreTo depth) := by
  unfold Machine.restoreTo
  rw [h.saved]
  exact foldl (fun _ h => h.restoreState) _ h

theorem restore (h : m.Alike n) : m.restore.Alike n.restore := by
  have floor : n.restoreFloor = m.restoreFloor := h.same (·.restoreFloor) fun _ _ _ _ _ => rfl
  unfold Machine.restore
  rw [h.saved, floor]
  exact branch (fun _ => h.report _) fun _ => h.restoreState

variable (env) in
theorem findPattern (h : m.Alike n) (name : Name) : ∃ p m' n', m.findPattern env name = (p, m') ∧
    n.findPattern env name = (p, n') ∧ m'.Alike n' := by
  obtain ⟨o, m', n', hm, hn, h'⟩ := h.requireResource env.store "Pattern" "pattern" name
  unfold Machine.findPattern
  rw [hm, hn]
  cases o with
  | none => exact ⟨_, _, _, rfl, rfl, h'⟩
  | some o =>
    dsimp only
    split
    · exact ⟨_, _, _, rfl, rfl, h'⟩
    · exact ⟨_, _, _, rfl, rfl, h'.report _⟩

theorem setColorOrPattern (h : m.Alike n) (part : Part) (op : String) (operands : List Object) :
    (m.setColorOrPattern env part op operands).Alike (n.setColorOrPattern env part op operands) := by
  unfold Machine.setColorOrPattern
  rw [h.state]
  dsimp only
  split
  · exact h.setColor part op operands
  split
  · exact h.report _
  split
  · rename_i name _
    obtain ⟨p, m', n', hm, hn, h'⟩ := h.findPattern env name
    rw [hm, hn]
    exact h'.select part _ _ p
  · exact h.select part _ _ _

theorem fillCell (h : m.Alike n) (cell : Path α × Color) : (m.fillCell cell).Alike (n.fillCell cell) :=
  ((h.modifyState _).tellState _).clearPath

theorem fillCells (h : m.Alike n) (s : Shading α) : (m.fillCells s).Alike (n.fillCells s) := by
  have precision : n.precision = m.precision := h.same (·.precision) fun _ _ _ _ _ => rfl
  unfold Machine.fillCells
  rw [precision]
  exact takeAll (fun cell h => h.fillCell cell) _ h

theorem clipToBounds (h : m.Alike n) (s : Shading α) (call : State α → Bool → Call α) :
    (m.clipToBounds s call).Alike (n.clipToBounds s call) := by
  unfold Machine.clipToBounds
  split
  · exact h
  · exact ((h.addRect _).tellState _).clearPath

theorem shadeCells (h : m.Alike n) (s : Shading α) : (m.shadeCells s).Alike (n.shadeCells s) := by
  unfold Machine.shadeCells
  rw [h.state]
  exact ((((h.save.clipToBounds s _).useSpaceOf s).fillCells s).restoreState).setOutline _

theorem approximatePattern (h : m.Alike n) (p : Pattern α) (part : Part) (evenOdd : Bool) :
    (m.approximatePattern p part evenOdd).Alike (n.approximatePattern p part evenOdd) := by
  cases p with
  | tiling t => exact h
  | shading s matrix =>
    have clipped : Alike (if part = .fill then m.save.tellState (.setClipPath · evenOdd) else m.save)
        (if part = .fill then n.save.tellState (.setClipPath · evenOdd) else n.save) :=
      branch (fun _ => h.save.tellState _) fun _ => h.save
    have ready := ((clipped.useSpaceOf s).fillBackground s).clearPath
    unfold Machine.approximatePattern Machine.approximate
    dsimp only
    rw [h.state, ready.state, ready.same (·.baseMatrix) fun _ _ _ _ _ => rfl]
    refine (((branch (fun _ => ?_) fun _ => ready).fillCells s).restoreState).setOutline _
    exact (ready.multiply _).setTransform _

/-! ## Paths -/

theorem endPath (h : m.Alike n) : m.endPath.Alike n.endPath := by
  have pending : n.pendingClip = m.pendingClip := h.same (·.pendingClip) fun _ _ _ _ _ => rfl
  have ended {k l : Machine α} (h : k.Alike l) :
      Alike { k.clearPath with pendingClip := none } { l.clearPath with pendingClip := none } :=
    h.clearPath.update (fun k => { k with pendingClip := none }) fun _ _ _ _ _ => rfl
  have current : n.state.outline.current = m.state.outline.current := by rw [h.state]
  unfold Machine.endPath
  rw [pending, current]
  refine ended ?_
  cases m.pendingClip with
  | none => exact h
  | some rule => exact branch (fun _ => h.clipped rule _) fun _ => h

/-! ## Text -/

omit [Scalar α] in
theorem modifyText (h : m.Alike n) (f : TextState α → TextState α) : (m.modifyText f).Alike (n.modifyText f) :=
  h.modifyState _

omit [Scalar α] in
theorem useFont (h : m.Alike n) (font : Option Font) (size : α) : (m.useFont font size).Alike (n.useFont font size) :=
  (h.modifyText _).fontChanged true

variable (env) in
omit [Scalar α] in
theorem loadFont (h : m.Alike n) (o : Object) : ∃ f m' n', m.loadFont env o = (f, m') ∧
    n.loadFont env o = (f, n') ∧ m'.Alike n' := by
  unfold Machine.loadFont
  split
  · exact ⟨_, _, _, rfl, rfl, h⟩
  split
  · exact ⟨_, _, _, rfl, rfl, h⟩
  · exact ⟨_, _, _, rfl, rfl, h.report _⟩

omit [Scalar α] in
theorem setFont (h : m.Alike n) (name : Name) (size : α) :
    (m.setFont env name size).Alike (n.setFont env name size) := by
  unfold Machine.setFont
  rw [h.resource?]
  split
  · exact (h.report _).useFont none size
  · obtain ⟨f, m', n', hm, hn, h'⟩ := h.loadFont env _
    rw [hm, hn]
    exact h'.useFont f size

omit [Scalar α] in
theorem setTextMode (h : m.Alike n) (mode : Int) : (m.setTextMode mode).Alike (n.setTextMode mode) := by
  unfold Machine.setTextMode
  split
  · exact (h.modifyText _).tellState _
  · exact h

theorem setScaling (h : m.Alike n) (percent : α) : (m.setScaling percent).Alike (n.setScaling percent) :=
  ((h.modifyText _).tellState _).fontChanged true

theorem beginText (h : m.Alike n) : m.beginText.Alike n.beginText :=
  (((h.modifyText _).tell _).fontChanged true).tellState _

theorem setTextMatrix (h : m.Alike n) (t : Affine α) : (m.setTextMatrix t).Alike (n.setTextMatrix t) :=
  (((h.modifyText _).tellState _).tell _).fontChanged true

theorem moveLine (h : m.Alike n) (d : Point α) : (m.moveLine d).Alike (n.moveLine d) := by
  unfold Machine.moveLine
  rw [h.state]
  exact (h.modifyText _).tell _

theorem nextLine (h : m.Alike n) : m.nextLine.Alike n.nextLine := by
  unfold Machine.nextLine
  rw [h.state]
  exact h.moveLine _

omit [Scalar α] in
theorem announceFont (h : m.Alike n) : m.announceFont.Alike n.announceFont := by
  unfold Machine.announceFont
  rw [h.same (·.fontChanged) fun _ _ _ _ _ => rfl]
  exact branch (fun _ => (h.tellState _).fontChanged false) fun _ => h

theorem adjust (h : m.Alike n) (adjustment : Float) : (m.adjust adjustment).Alike (n.adjust adjustment) := by
  unfold Machine.adjust
  rw [h.state]
  exact (h.modifyText _).tellState _

/-! ## Images -/

omit [Scalar α] in
theorem drawImage (h : m.Alike n) (s : Stream) (inline_ : Bool) :
    (m.drawImage env s inline_).Alike (n.drawImage env s inline_) := by
  have call : n.imageCall env s inline_ = m.imageCall env s inline_ :=
    h.same (imageCall env · s inline_) fun _ _ _ _ _ => rfl
  unfold Machine.drawImage
  rw [call]
  split
  · exact h.tell _
  · exact h.report _

omit [Scalar α] in
theorem drawInline (h : m.Alike n) (source : Content.ImageSource) :
    (m.drawInline env source).Alike (n.drawInline env source) := by
  have told : (m.reportAll source.faults).Alike (n.reportAll source.faults) := foldl (fun d h => h.report d) _ h
  unfold Machine.drawInline
  dsimp only
  split
  · exact told.drawImage _ true
  · exact told

/-! ## Parameters -/

omit [Scalar α] in
theorem modifyWith {β : Type} (h : m.Alike n) (v : Option β) (f : State α → β → State α) :
    (m.modifyWith v f).Alike (n.modifyWith v f) := by
  cases v with
  | none => exact h
  | some x => exact h.modifyState _

omit [Scalar α] in
theorem setDashes (h : m.Alike n) (st : Store) (d : Dict) : (m.setDashes st d).Alike (n.setDashes st d) := by
  unfold Machine.setDashes
  split
  · exact h
  split
  · exact h
  · exact (h.modifyState _).modifyWith _ _

theorem setFontParameter (h : m.Alike n) (d : Dict) : (m.setFontParameter env d).Alike (n.setFontParameter env d) := by
  unfold Machine.setFontParameter
  split
  · split
    · obtain ⟨f, m', n', hm, hn, h'⟩ := h.loadFont env _
      rw [hm, hn]
      exact h'.useFont f _
    · exact h
  · exact h

omit [Scalar α] in
theorem setTransfer (h : m.Alike n) (st : Store) (o : Object) : (m.setTransfer st o).Alike (n.setTransfer st o) := by
  unfold Machine.setTransfer
  split
  · exact h.modifyState _
  · exact h.report _

omit [Scalar α] in
theorem setBlendMode (h : m.Alike n) (st : Store) (o : Object) : (m.setBlendMode st o).Alike (n.setBlendMode st o) := by
  unfold Machine.setBlendMode
  split
  · exact h.modifyState _
  · exact h.report _

variable (env) in
theorem setParameter (h : m.Alike n) (d : Dict) (entry : Name × Object) :
    (m.setParameter env d entry).Alike (n.setParameter env d entry) := by
  obtain ⟨key, o⟩ := entry
  unfold Machine.setParameter
  dsimp only
  -- one branch for each key; most set a single field
  repeat' first
    | exact h.modifyWith _ _
    | exact h.setDashes _ d
    | exact h.setFontParameter d
    | exact h.setBlendMode _ o
    | exact h.setTransfer _ o
    | exact h
    | refine branch (fun _ => ?_) (fun _ => ?_)

/-! ## Forms -/

theorem enterForm (h : m.Alike n) (f : Form α) (use : FormUse α) : (enterForm f use m).Alike (enterForm f use n) := by
  have saved := (h.pushResources f.resources).save.clearPath
  have grouped := fun g => (saved.tellState .clearSoftMask).tellState (.pushTransparencyGroup · g)
  cases use with
  | plain => exact ((((saved.multiply _).setTransform _).addRect _).clipped .nonZero (.clip · false)).clearPath
  | group g | softMask g =>
    exact (((((grouped g).multiply _).setTransform _).addRect _).clipped .nonZero (.clip · false)).clearPath

omit [Scalar α] in
theorem enterGroup (h : m.Alike n) : m.enterGroup.Alike n.enterGroup := by
  have normal := h.modifyState fun s => { s with blendMode := .normal }
  unfold Machine.enterGroup
  dsimp only at normal ⊢
  rw [normal.state]
  exact (branch (fun _ => (normal.tell _).modifyState _) fun _ => normal).modifyState _

theorem leaveForm (h : m.Alike n) (use : FormUse α) : (leaveForm use m).Alike (leaveForm use n) := by
  have level {k l : Machine α} (h : k.Alike l) : k.restoreState.popResources.Alike l.restoreState.popResources :=
    h.restoreState.popResources
  cases use with
  | plain => exact level h
  | group g => exact (level (h.tellState _)).tellState _
  | softMask g mask => exact ((level (h.tellState _)).tellState _).modifyState _

/-! ## Tilings -/

theorem cellOf (h : m.Alike n) (t : Tiling α) (seed : Option (ColorSpace × Color)) :
    (m.cellOf env t seed).Alike (n.cellOf env t seed) := by
  obtain ⟨log, _, _, _, hl, rfl⟩ := h.eq
  cases seed <;> exact ⟨log, .empty, 0, hl, rfl⟩

omit [Scalar α] in
/-- The log and what was executed are taken over from other machines. -/
theorem withLog {k l : Machine α} (h : m.Alike n) (h' : k.Alike l) :
    Alike { m with log := k.log, executed := k.executed } { n with log := l.log, executed := l.executed } := by
  obtain ⟨_, history, marked, _, -, rfl⟩ := h.eq
  exact ⟨l.log, history, marked, h'.heard_eq.symm, rfl⟩

end

/-! ## What the builder answers -/

section

variable {α : Type} [Scalar α] {env : Environment α} {m n : Machine α} (hears : env.builder.HearsCalls) (h : m.Alike n)
include hears h

theorem gradientPaint (s : Shading α) (matrix : Affine α) : ∃ p m' n', m.gradientPaint env s matrix = (p, m') ∧
    n.gradientPaint env s matrix = (p, n') ∧ m'.Alike n' := by
  have placed : n.patternTransform matrix = m.patternTransform matrix :=
    h.same (·.patternTransform matrix) fun _ _ _ _ _ => rfl
  unfold Machine.gradientPaint
  rw [placed]
  split
  · exact ⟨_, _, _, rfl, rfl, h.report _⟩
  · rename_i g _
    have asked := h.tell (.addGradient g false)
    dsimp only
    rw [hears.gradient asked.calls_eq]
    exact ⟨_, _, _, rfl, rfl, asked⟩

omit [Scalar α] in
theorem unsupported? (part : Part) : n.unsupported? env part = m.unsupported? env part := by
  unfold Machine.unsupported?
  rw [h.state, hears.supports h.calls_eq]

omit [Scalar α] in
theorem fillGradient (s : Shading α) (matrix : Option (Affine α)) :
    (m.fillGradient env s matrix).Alike (n.fillGradient env s matrix) := by
  unfold Machine.fillGradient
  rw [h.clips]
  split
  · exact h
  split
  · exact h.report _
  · rename_i g _
    have asked := h.tell (.addGradient g true)
    dsimp only
    rw [hears.gradient asked.calls_eq]
    split
    · exact asked.tell _
    · exact asked

/-! ### The two that look back -/

variable {op : Operation} (seen : m.history.seenBy op = n.history.seenBy op)
include seen

theorem shadeGradient (hop : op = .shade) (s : Shading α) : (m.shadeGradient env s).Alike (n.shadeGradient env s) := by
  subst hop
  have saw : sawConcat n.history = sawConcat m.history := (List.cons.inj seen).1.symm
  unfold Machine.shadeGradient
  rw [saw, h.clips, hears.transform h.calls_eq]
  dsimp only
  generalize (if sawConcat m.history && m.clips.current.isSome then env.builder.transform n.log else none) = matrix
  have placed : Alike (if matrix.isSome then m.tell (.setTransform .identity) else m)
      (if matrix.isSome then n.tell (.setTransform .identity) else n) := branch (fun _ => h.tell _) fun _ => h
  exact (placed.clipToBounds s .clip).fillGradient hears s matrix

theorem shade (hop : op = .shade) (name : Name) : (m.shade env name).Alike (n.shade env name) := by
  unfold Machine.shade Machine.requireResource
  rw [h.resource?]
  cases m.resource? env.store "Shading" name with
  | none => exact h.report _
  | some o =>
    dsimp only
    split
    · exact h.report _
    · exact branch (fun _ => h.shadeGradient hears seen hop _) fun _ => h.shadeCells _

theorem concat (hop : op = .concat) (t : Affine α) : (m.concat env t).Alike (n.concat env t) := by
  subst hop
  have last : (n.history.previous 1 == "q") = (m.history.previous 1 == "q") := (List.cons.inj seen).1.symm
  have placed : (n.history.previous 1 == "cm" || n.history.previous 1 == "startPage") =
      (m.history.previous 1 == "cm" || m.history.previous 1 == "startPage") :=
    (List.cons.inj (List.cons.inj seen).2).1.symm
  have moved := h.multiply t
  unfold Machine.concat
  dsimp only
  rw [last, placed, hears.transform moved.calls_eq]
  refine fontChanged (branch (fun _ => moved.setTransform t) fun _ => branch (fun _ => moved.setTransform _) fun _ => ?_) true
  exact (moved.tell .pushGroup).setTransform t

end

end Alike

end Machine

end PdfContent
