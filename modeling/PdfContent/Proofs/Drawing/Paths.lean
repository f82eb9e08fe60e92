import PdfContent.Proofs.Drawing.Command
import PdfContent.Proofs.Drawing.Marks
import PdfContent.Proofs.Geometry.Outline
/-!
# Paths — the path under construction by itself

Operators that draw paths and operators that set the graphics state do not get in each other's way.  A path operator
acts on the path, on the clip that waits for its end and on what was told about paths, and looks at nothing else as long
as no pattern is in use (`Ready`).  The other operators leave all three alone: a save keeps the path, and a restore puts
it together from its steps, which loses nothing (`Outline.Restorable`).
-/
namespace PdfContent

open Scalar

/-- Something that happens to a path, in user space. -/
inductive PathEvent (α : Type) where
  | painted (path : Path α) (fill stroke evenOdd : Bool)
  | clipped (path : Path α) (evenOdd : Bool)
  | missing (label : String)

def Event.path? {α : Type} : Event α → Option (PathEvent α)
  | .call (.addPath s fill stroke evenOdd) => some (.painted s.path fill.isSome stroke.isSome evenOdd)
  | .call (.clip s evenOdd) => some (.clipped s.path evenOdd)
  | .report (.noCurrentPoint label) => some (.missing label)
  | _ => none

/-- The path under construction, the clip that waits for its end, and what happened to paths, the last first. -/
structure Drawn (α : Type) where
  outline : Outline α
  pendingClip : Option FillRule
  events : List (PathEvent α)

namespace Content

def pathWords : List Bytes :=
  ["m", "l", "c", "v", "y", "h", "re", "W", "W*", "S", "s", "f", "F", "f*", "B", "B*", "b", "b*", "n"].map Bytes.ofText

/-- Operators that set the graphics state: its coordinate system, line style, device colors and text parameters. -/
def stateWords : List Bytes :=
  ["q", "Q", "cm", "w", "J", "j", "M", "d", "ri", "i", "g", "G", "rg", "RG", "k", "K", "Tc", "Tw", "Tz", "TL", "Tr",
    "Ts"].map Bytes.ofText

structure Command where
  name : Bytes
  operands : List Object

/-- The operands are exactly those of the operator. -/
def Command.Fits (c : Command) : Prop :=
  ∃ op, Operator.find? c.name = some op ∧ op.select c.operands = .ok c.operands

def Command.isPath (c : Command) : Bool := pathWords.contains c.name

inductive Commands : List Item → List Command → Prop where
  | nil : Commands [] []
  | cons (args : List (Object × Thunk Nat)) (name : Bytes) {is : List Item} {cs : List Command} :
      Commands is cs → Commands (operandItems args ++ .command name none :: is) (⟨name, args.map Prod.fst⟩ :: cs)

def commandItems (cs : List Command) : List Item :=
  cs.flatMap fun c => operandItems (c.operands.map fun o => (o, .pure 0)) ++ [.command c.name none]

theorem Commands.ofItems (cs : List Command) : Commands (commandItems cs) cs := by
  induction cs with
  | nil => exact .nil
  | cons c cs ih =>
    have row := Commands.cons (c.operands.map fun o => (o, .pure 0)) c.name ih
    rw [List.map_map, Function.comp_def, List.map_id'] at row
    rw [commandItems, List.flatMap_cons, List.append_assoc]
    exact row

end Content

namespace Operation

def onPath : Operation → Bool
  | moveTo | lineTo | curveTo | curveFromCurrent | curveToEnd | closePath | rectangle => true
  | endPath | paint _ | clip _ => true
  | _ => false

def onState : Operation → Bool
  | save | restore | concat | lineWidth | lineCap | lineJoin | miterLimit | dash | intent | flatness | deviceColor ..
  | charSpace | wordSpace | scaling | leading | textMode | rise => true
  | _ => false

end Operation

namespace Machine

open Content (Item Command Commands operandItems pathWords stateWords)

variable {α : Type} [Scalar α] {env : Environment α} {inner : Inner α} {m n k : Machine α}

def drawn (m : Machine α) : Drawn α := ⟨m.state.outline, m.pendingClip, m.log.filterMap Event.path?⟩

/-- No pattern is in use or waits among the saved states, and the path can be put together from its steps. -/
structure Ready (m : Machine α) : Prop where
  outline : m.state.outline.Restorable
  plain : ∀ s ∈ m.state :: m.saved, ∀ part, (s.ink part).space.isPattern = false

theorem Ready.setOutline (h : m.Ready) {o : Outline α} (ho : o.Restorable) : (m.setOutline o).Ready := by
  refine ⟨ho, fun s hs part => ?_⟩
  cases hs with
  | head =>
    have before := h.plain m.state (.head _) part
    cases part <;> exact before
  | tail _ hs => exact h.plain s (.tail _ hs) part

/-- Nothing happens to the path. -/
structure Spares (m n : Machine α) : Prop where
  drawn : m.Ready → n.drawn = m.drawn
  ready : m.Ready → n.Ready

namespace Spares

theorem refl (m : Machine α) : Spares m m := ⟨fun _ => rfl, id⟩

theorem trans (h : Spares m n) (h' : Spares n k) : Spares m k :=
  ⟨fun hm => (h'.drawn (h.ready hm)).trans (h.drawn hm), h'.ready ∘ h.ready⟩

/-- The log alone gets longer, by nothing that counts. -/
theorem log {e : Event α} (h : e.path? = none) : Spares m { m with log := e :: m.log } where
  drawn _ := by simp [Machine.drawn, h]
  ready hm := ⟨hm.outline, hm.plain⟩

theorem tellState {c : State α → Call α} (h : (Event.call (c m.state)).path? = none) : Spares m (m.tellState c) := log h

theorem report {d : Diagnostic} (h : (Event.report (α := α) d).path? = none) : Spares m (m.report d) := log h

theorem modifyState {f : State α → State α} (ho : (f m.state).outline = m.state.outline)
    (hi : m.Ready → ∀ part, ((f m.state).ink part).space.isPattern = false) : Spares m (m.modifyState f) where
  drawn _ := by simp [Machine.drawn, Machine.modifyState, ho]
  ready hm := by
    refine ⟨by simpa [Machine.modifyState, ho] using hm.outline, fun s hs => ?_⟩
    cases hs with
    | head => exact hi hm
    | tail _ hs => exact hm.plain s (.tail _ hs)

theorem style {f : State α → State α} (ho : (f m.state).outline = m.state.outline)
    (hf : (f m.state).fill = m.state.fill) (hs : (f m.state).stroke = m.state.stroke) : Spares m (m.modifyState f) := by
  refine modifyState ho fun hm part => ?_
  have before := hm.plain m.state (.head _) part
  cases part
  · exact (congrArg (·.space.isPattern) hf).trans before
  · exact (congrArg (·.space.isPattern) hs).trans before

theorem restyle {f : State α → State α} (ho : (f m.state).outline = m.state.outline)
    (hf : (f m.state).fill = m.state.fill) (hs : (f m.state).stroke = m.state.stroke) : Spares m (m.restyle f) :=
  (style ho hf hs).trans (tellState rfl)

theorem modifyText (f : TextState α → TextState α) (m : Machine α) : Spares m (m.modifyText f) := style rfl rfl rfl

theorem fontChanged (m : Machine α) : Spares m { m with fontChanged := true } :=
  ⟨fun _ => rfl, fun hm => ⟨hm.outline, hm.plain⟩⟩

theorem withSome {β : Type} {f : β → Machine α → Machine α} (v : Option β) (h : ∀ x, Spares m (f x m)) :
    Spares m (m.withSome v f) := by
  cases v with
  | none => exact refl m
  | some x => exact h x

theorem save (m : Machine α) : Spares m m.save where
  drawn _ := rfl
  ready hm := by
    refine ⟨hm.outline, fun s hs => ?_⟩
    cases hs with
    | head => exact hm.plain _ (.head _)
    | tail _ hs => exact hm.plain s hs

theorem restoreState (m : Machine α) : Spares m m.restoreState := by
  cases h : m.saved with
  | nil => rw [Machine.restoreState, h]; exact refl m
  | cons s saved =>
    rw [restoreState_cons h]
    refine ⟨fun hm => ?_, fun hm => ⟨?_, fun t ht part => ?_⟩⟩
    · -- the path is not that of the saved state but this one, put together from its steps
      have same : Outline.ofPath m.state.path = m.state.outline := hm.outline
      simp only [same]
      rfl
    · exact .ofPath m.state.path
    · have below : ∀ t ∈ s :: saved, ∀ part, (t.ink part).space.isPattern = false :=
        fun t ht => hm.plain t (.tail _ (h ▸ ht))
      cases ht with
      | head =>
        have kept := below s (.head _) part
        cases part <;> exact kept
      | tail _ ht => exact below t (.tail _ ht) part

theorem restore (m : Machine α) : Spares m m.restore := by
  unfold Machine.restore
  split
  · exact report rfl
  · exact restoreState m

theorem multiply (t : Affine α) (m : Machine α) : Spares m (m.multiply t) := style rfl rfl rfl

theorem setTransform (t : Affine α) (m : Machine α) : Spares m (m.setTransform t) where
  drawn _ := rfl
  ready hm := ⟨hm.outline, hm.plain⟩

theorem concat (t : Affine α) (m : Machine α) : Spares m (m.concat env t) := by
  have moved := multiply t m
  unfold Machine.concat
  refine .trans ?_ (fontChanged _)
  split
  · exact moved.trans (setTransform _ _)
  · split
    · exact moved.trans (setTransform _ _)
    · exact (moved.trans (log rfl)).trans (setTransform _ _)

theorem select (part : Part) (space : ColorSpace) (hs : space.isPattern = false) (color : Color)
    (pattern : Option (Pattern α)) (m : Machine α) : Spares m (m.select part space color pattern) := by
  refine .trans (modifyState ?_ fun hm other => ?_) (tellState rfl)
  · cases part <;> rfl
  · have before := hm.plain m.state (.head _) other
    cases part <;> cases other <;> first | exact hs | exact before

end Spares

/-- **An operator that sets the graphics state spares the path.** -/
theorem execute_spares {op : Operator} (h : op.operation.onState = true) (a : Operands)
    (image : Option Content.ImageSource) (m : Machine α) : Spares m (m.execute env inner op a image) := by
  obtain ⟨name, arity, checks, operation⟩ := op
  cases operation with
  | save => exact .save m
  | restore => exact .restore m
  | concat => exact .concat a.matrix m
  | lineWidth | lineCap | lineJoin | miterLimit => exact .restyle rfl rfl rfl
  | dash =>
    refine .restyle ?_ ?_ ?_
    all_goals split <;> rfl
  | intent => exact .withSome _ fun n => Spares.style (m := m) rfl rfl rfl
  | flatness =>
    simp only [execute, executeState]
    exact .style rfl rfl rfl
  | deviceColor part space => exact .select part _ (by cases space <;> rfl) _ none m
  | charSpace | wordSpace | leading | rise =>
    simp only [execute, executeText]
    exact .modifyText _ m
  | scaling => exact ((Spares.modifyText _ m).trans (.tellState rfl)).trans (.fontChanged _)
  | textMode =>
    refine .withSome _ fun mode => ?_
    unfold setTextMode
    split
    · exact (Spares.modifyText _ m).trans (.tellState rfl)
    · exact .refl m
  | _ => cases h

/-! ## Operators on paths -/

/-- Two machines with the same paths, whatever else they are. -/
structure Abreast (m n : Machine α) : Prop where
  drawn : m.drawn = n.drawn
  left : m.Ready
  right : n.Ready

namespace Abreast

theorem outline (h : Abreast m n) : m.state.outline = n.state.outline := congrArg Drawn.outline h.drawn

theorem path (h : Abreast m n) : m.state.path = n.state.path := congrArg Outline.path h.outline

theorem pendingClip (h : Abreast m n) : m.pendingClip = n.pendingClip := congrArg Drawn.pendingClip h.drawn

theorem events (h : Abreast m n) : m.log.filterMap Event.path? = n.log.filterMap Event.path? :=
  congrArg Drawn.events h.drawn

theorem spares {m' n' : Machine α} (h : Abreast m n) (hm : Spares m m') (hn : Spares n n') : Abreast m' n' :=
  ⟨(hm.drawn h.left).trans (h.drawn.trans (hn.drawn h.right).symm), hm.ready h.left, hn.ready h.right⟩

/-- Both logs get longer by the same that counts. -/
theorem log {e e' : Event α} (h : Abreast m n) (he : e.path? = e'.path?) :
    Abreast { m with log := e :: m.log } { n with log := e' :: n.log } where
  drawn := by simp [Machine.drawn, h.outline, h.pendingClip, h.events, List.filterMap_cons, he]
  left := ⟨h.left.outline, h.left.plain⟩
  right := ⟨h.right.outline, h.right.plain⟩

theorem report (h : Abreast m n) (d : Diagnostic) : Abreast (m.report d) (n.report d) := h.log rfl

theorem setOutline (h : Abreast m n) {o : Outline α} (ho : o.Restorable) :
    Abreast (m.setOutline o) (n.setOutline o) where
  drawn := by simp [Machine.drawn, Machine.setOutline, Machine.modifyState, h.pendingClip, h.events]
  left := h.left.setOutline ho
  right := h.right.setOutline ho

theorem extend (h : Abreast m n) (label : String) {f : Outline α → Option (Outline α)}
    (hf : ∀ o o', o.Restorable → f o = some o' → o'.Restorable) : Abreast (m.extend label f) (n.extend label f) := by
  unfold Machine.extend
  rw [← h.outline]
  cases ho : f m.state.outline with
  | none => exact h.report _
  | some o => exact h.setOutline (hf _ o h.left.outline ho)

theorem waitClip (h : Abreast m n) (rule : Option FillRule) :
    Abreast { m with pendingClip := rule } { n with pendingClip := rule } where
  drawn := by simp [Machine.drawn, h.outline, h.events]
  left := ⟨h.left.outline, h.left.plain⟩
  right := ⟨h.right.outline, h.right.plain⟩

theorem setClips (h : Abreast m n) (c c' : ClipHistory α) : Abreast { m with clips := c } { n with clips := c' } where
  drawn := h.drawn
  left := ⟨h.left.outline, h.left.plain⟩
  right := ⟨h.right.outline, h.right.plain⟩

theorem endPath (h : Abreast m n) : Abreast m.endPath n.endPath := by
  unfold Machine.endPath
  refine waitClip (setOutline ?_ .empty) none
  rw [← h.pendingClip]
  cases m.pendingClip with
  | none => exact h
  | some rule =>
    dsimp only
    rw [← h.outline]
    split
    · refine setClips (h.log ?_) _ _
      simp only [Event.path?, h.path]
    · exact h

end Abreast

omit [Scalar α] in
theorem unsupported_none {part : Part} (h : (m.state.ink part).space.isPattern = false) :
    m.unsupported? env part = none := by simp [unsupported?, h]

/-- Without patterns a path is painted in one call. -/
theorem paintCurrent_plain (h : m.Ready) (how : PathPainting) : m.paintCurrent env inner how =
    if how.fill || how.stroke then
      m.tellState fun s => .addPath s
        (if how.fill then some (.color (m.state.fill.space.toRgb m.state.fill.color) m.state.fill.opacity) else none)
        (if how.stroke then some (.color (m.state.stroke.space.toRgb m.state.stroke.color) m.state.stroke.opacity)
          else none) how.evenOdd
    else m := by
  have fill : (m.state.ink .fill).space.isPattern = false := h.plain _ (.head _) .fill
  have stroke : (m.state.ink .stroke).space.isPattern = false := h.plain _ (.head _) .stroke
  obtain ⟨close, evenOdd, f, s⟩ := how
  cases f <;> cases s <;>
    simp [paintCurrent, paintBoth, paintOf, unsupported_none fill, unsupported_none stroke, fill, stroke] <;> rfl

theorem Abreast.paintPath (h : Abreast m n) (how : PathPainting) :
    Abreast (m.paintPath env inner how) (n.paintPath env inner how) := by
  unfold Machine.paintPath
  rw [← h.outline]
  split
  · exact h.report _
  · have closed : Abreast (if how.close then m.setOutline (m.state.outline.close?.getD m.state.outline) else m)
        (if how.close then n.setOutline (m.state.outline.close?.getD m.state.outline) else n) := by
      split
      · refine h.setOutline ?_
        cases ho : m.state.outline.close? with
        | none => exact h.left.outline
        | some o => exact h.left.outline.close? ho
      · exact h
    dsimp only
    generalize (if how.close then m.setOutline (m.state.outline.close?.getD m.state.outline) else m) = m' at closed ⊢
    generalize (if how.close then n.setOutline (m.state.outline.close?.getD m.state.outline) else n) = n' at closed ⊢
    refine endPath ?_
    rw [paintCurrent_plain closed.left, paintCurrent_plain closed.right, ← closed.outline]
    split
    · split
      · refine closed.log ?_
        simp only [Event.path?, closed.path]
        cases how.fill <;> cases how.stroke <;> rfl
      · exact closed
    · exact closed

/-- **An operator on paths looks at nothing but the paths.** -/
theorem execute_abreast (h : Abreast m n) {op : Operator} (ho : op.operation.onPath = true) (a : Operands)
    (image : Option Content.ImageSource) :
    Abreast (m.execute env inner op a image) (n.execute env inner op a image) := by
  obtain ⟨name, arity, checks, operation⟩ := op
  cases operation with
  | moveTo =>
    simp only [execute, executePath, ← h.outline]
    exact h.setOutline (h.left.outline.move _)
  | lineTo => exact h.extend _ fun _ _ hr ho => hr.line? ho
  | curveTo | curveToEnd => exact h.extend _ fun _ _ hr ho => hr.curve? ho
  | curveFromCurrent =>
    simp only [execute, executePath]
    refine h.extend _ fun o o' hr ho => ?_
    obtain ⟨p, -, ho⟩ := Option.bind_eq_some_iff.mp ho
    exact hr.curve? ho
  | closePath => exact h.extend _ fun _ _ hr ho => hr.close? ho
  | rectangle =>
    simp only [execute, executePath, addRect, ← h.outline]
    exact h.setOutline (h.left.outline.rect _)
  | endPath => exact h.endPath
  | paint how => exact h.paintPath how
  | clip rule => exact h.waitClip (some rule)
  | _ => cases ho

/-! ## Commands -/

theorem state_operator : ∀ name ∈ stateWords, name ∉ pathWords ∧
    ∃ op, Operator.find? name = some op ∧ op.operation.onState = true := by
  decide

theorem path_operator : ∀ name ∈ pathWords, ∃ op, Operator.find? name = some op ∧ op.operation.onPath = true := by
  decide

def commands (env : Environment α) (inner : Inner α) (cs : List Command) (m : Machine α) : Machine α :=
  cs.foldl (fun m c => m.command env inner c.name c.operands none) m

theorem noted_spares (m : Machine α) (name : String) :
    Spares m { m with history := m.history.push name } :=
  ⟨fun _ => rfl, fun hm => ⟨hm.outline, hm.plain⟩⟩

theorem record_spares (m : Machine α) (e : Executed α) : Spares m (m.record e) :=
  ⟨fun _ => rfl, fun hm => ⟨hm.outline, hm.plain⟩⟩

theorem command_of_fits {c : Command} {op : Operator} (hf : c.Fits) (hop : Operator.find? c.name = some op)
    (m : Machine α) :
    m.command env inner c.name c.operands none = m.perform env inner op c.operands none := by
  obtain ⟨op', hop', hs⟩ := hf
  obtain rfl : op' = op := Option.some.inj (hop'.symm.trans hop)
  simp only [command, hop, hs]

theorem command_spares {c : Command} (hf : c.Fits) (hn : c.name ∈ stateWords) (m : Machine α) :
    Spares m (m.command env inner c.name c.operands none) := by
  obtain ⟨-, op, hop, ho⟩ := state_operator c.name hn
  rw [command_of_fits hf hop]
  exact ((noted_spares m op.name).trans (execute_spares ho _ _ _)).trans (record_spares _ _)

theorem Abreast.command (h : Abreast m n) {c : Command} (hf : c.Fits) (hn : c.name ∈ pathWords) :
    Abreast (m.command env inner c.name c.operands none) (n.command env inner c.name c.operands none) := by
  obtain ⟨op, hop, ho⟩ := path_operator c.name hn
  rw [command_of_fits hf hop, command_of_fits hf hop]
  have noted := h.spares (noted_spares m op.name) (noted_spares n op.name)
  exact (execute_abreast noted ho _ _).spares (record_spares _ _) (record_spares _ _)

/-- The machine that executes all commands and one that executes the path commands among them have the same paths. -/
theorem Abreast.commands {cs : List Command} (hc : ∀ c ∈ cs, c.Fits ∧ (c.name ∈ pathWords ∨ c.name ∈ stateWords))
    (h : Abreast m n) : Abreast (m.commands env inner cs) (n.commands env inner (cs.filter (·.isPath))) := by
  induction cs generalizing m n with
  | nil => exact h
  | cons c cs ih =>
    obtain ⟨fits, word⟩ := hc c (.head _)
    have rest : ∀ c ∈ cs, c.Fits ∧ (c.name ∈ pathWords ∨ c.name ∈ stateWords) := fun c h => hc c (.tail _ h)
    -- a command on paths is executed by both machines, any other by the first alone
    rcases word with hn | hn
    · rw [List.filter_cons_of_pos (by simpa [Command.isPath] using hn)]
      exact ih rest (h.command fits hn)
    · rw [List.filter_cons_of_neg (by simpa [Command.isPath] using (state_operator c.name hn).1)]
      exact ih rest (h.spares (command_spares fits hn m) (.refl n))

/-! ## Content -/

def bound : Arity → Nat
  | .exact n | .atMost n => n

theorem bound_le : ∀ op ∈ Operator.all, bound op.arity ≤ maxOperands := by
  decide

/-- What fits an operator is not cut off. -/
theorem length_of_fits {c : Command} (h : c.Fits) : c.operands.length ≤ maxOperands := by
  obtain ⟨op, hop, hs⟩ := h
  have small := bound_le op (Operator.find?_eq_some_iff.mp hop).1
  obtain ⟨accepted, taken⟩ | ⟨-, d, failed, -⟩ := op.select_eq c.operands
  · have all : op.relevant c.operands = c.operands := Except.ok.inj (taken.symm.trans hs)
    have admitted := accepted.admits
    unfold Operator.relevant at all
    unfold Operator.Admits at admitted
    cases ha : op.arity with
    | exact n =>
      simp only [ha, bound] at all admitted small
      have dropped := congrArg List.length all
      rw [List.length_drop] at dropped
      omega
    | atMost n =>
      simp only [ha, bound] at admitted small
      omega
  · cases hs.symm.trans failed

theorem foldl_operands (args : List (Object × Thunk Nat)) (xs : List Object) (m : Machine α)
    (h : args.length + xs.length ≤ maxOperands) :
    (operandItems args).foldl (item env inner) (xs, m) = ((args.map Prod.fst).reverse ++ xs, m) := by
  induction args generalizing xs with
  | nil => rfl
  | cons a args ih =>
    rw [List.length_cons] at h
    have first : item env inner (xs, m) (.operand a.1 a.2) = (a.1 :: xs, m) := if_pos (by omega)
    have rest := ih (a.1 :: xs) (by rw [List.length_cons]; omega)
    rw [List.map_cons, List.reverse_cons, List.append_assoc, List.singleton_append, ← rest, ← first]
    rfl

/-- Content whose commands have their own operands executes the commands, one after the other. -/
theorem content_commands {is : List Item} {cs : List Command} (h : Commands is cs) (hc : ∀ c ∈ cs, c.Fits)
    (m : Machine α) : m.content env inner is = m.commands env inner cs := by
  have drawn : is.foldl (item env inner) ([], m) = ([], m.commands env inner cs) := by
    induction h generalizing m with
    | nil => rfl
    | @cons args name is cs _ ih =>
      have fits := length_of_fits (hc _ (.head _))
      rw [List.length_map] at fits
      have read : (operandItems args).foldl (item env inner) ([], m) = ((args.map Prod.fst).reverse ++ [], m) :=
        foldl_operands args [] m fits
      rw [List.foldl_append, read, List.append_nil, List.foldl_cons]
      have first : item env inner ((args.map Prod.fst).reverse, m) (.command name none) =
          ([], m.command env inner name (args.map Prod.fst) none) := by
        rw [item, List.reverse_reverse]
      rw [first]
      exact ih (fun c h => hc c (.tail _ h)) _
  unfold content
  rw [drawn]
  rfl

/-- There is no path yet at the start, and both colors are black. -/
theorem opening_ready (env : Environment α) (origin : Origin α) : (opening env origin).Ready := by
  have level (p : PageParams α) : (pageLevel env p).Ready := by
    refine ⟨.empty, fun s hs part => ?_⟩
    cases hs with
    | head => cases part <;> rfl
    | tail _ hs =>
      cases List.mem_singleton.mp hs
      cases part <;> rfl
  cases origin with
  | cell resources bounds =>
    refine ⟨.empty, fun s hs part => ?_⟩
    cases List.mem_singleton.mp hs
    cases part <;> rfl
  | page p =>
    have cropped (r : Rect α) : ((pageLevel env p).crop p.frame.2.1 p.frame.2.2 r).Ready := by
      unfold crop
      split
      · exact level p
      · have ready := (level p).setOutline .empty
        exact ⟨ready.outline, ready.plain⟩
    cases h : p.crop with
    | none =>
      have ready := level p
      simp only [opening, startPage, h]
      exact ⟨ready.outline, ready.plain⟩
    | some r =>
      have ready := cropped r
      simp only [opening, startPage, h]
      exact ⟨ready.outline, ready.plain⟩

variable (env) in
/-- **The path under construction is independent of the rest of the graphics state.**  In content whose commands have
their own operands and that draws paths and sets the graphics state in any order, with saves and restores that need not
match, the operators on paths could stand alone: after every command the path with its current point, the clip that
waits, and all paths that were painted and clipped to or missed are the same without the others. -/
theorem paths_alone {cs : List Command} (hc : ∀ c ∈ cs, c.Fits ∧ (c.name ∈ pathWords ∨ c.name ∈ stateWords))
    {is is' : List Item} (h : Commands is cs) (h' : Commands is' (cs.filter (·.isPath))) (hm : m.Ready) :
    let inner := run env (levels - 1)
    run env levels is m = m.commands env inner cs ∧
      run env levels is' m = m.commands env inner (cs.filter (·.isPath)) ∧
      ∀ k, (m.commands env inner (cs.take k)).drawn = (m.commands env inner ((cs.take k).filter (·.isPath))).drawn := by
  refine ⟨content_commands h (fun c hmem => (hc c hmem).1) m,
    content_commands h' (fun c hmem => (hc c (List.mem_of_mem_filter hmem)).1) m, fun k => ?_⟩
  have same : Abreast m m := ⟨rfl, hm, hm⟩
  exact (same.commands fun c hmem => hc c (List.mem_of_mem_take hmem)).drawn

/-- A line that is begun on a level of its own and goes on below it, with a restore too many in between. -/
theorem restored_line_alone :
    let env : Environment Float := ⟨.empty, .silent, true, .default⟩
    let page : Machine Float := opening env (.page ⟨⟨0, 0, 10, 10⟩, 0, .empty, none⟩)
    let command (name : String) (operands : List Int) : Command :=
      ⟨Bytes.ofText name, operands.map fun i => .num (.int i)⟩
    let cs := [command "q" [], command "m" [1, 2], command "Q" [], command "Q" [], command "l" [3, 4], command "S" []]
    let n := run env levels (Content.commandItems cs) page
    page.Ready ∧ (∀ c ∈ cs, c.Fits ∧ (c.name ∈ pathWords ∨ c.name ∈ stateWords)) ∧
      n.drawn = (run env levels (Content.commandItems (cs.filter (·.isPath))) page).drawn ∧ n.drawn.events.length = 1 := by
  intro env page command cs n
  have ready : page.Ready := opening_ready env _
  have words : ∀ c ∈ cs, c.Fits ∧ (c.name ∈ pathWords ∨ c.name ∈ stateWords) := by
    simp only [cs, List.forall_mem_cons]
    exact ⟨⟨⟨_, rfl, rfl⟩, by decide⟩, ⟨⟨_, rfl, rfl⟩, by decide⟩, ⟨⟨_, rfl, rfl⟩, by decide⟩,
      ⟨⟨_, rfl, rfl⟩, by decide⟩, ⟨⟨_, rfl, rfl⟩, by decide⟩, ⟨⟨_, rfl, rfl⟩, by decide⟩, List.forall_mem_nil _⟩
  obtain ⟨drawn, drawn', same⟩ :=
    paths_alone env words (Commands.ofItems cs) (Commands.ofItems (cs.filter (·.isPath))) ready
  have all := same cs.length
  rw [List.take_length, ← drawn, ← drawn'] at all
  have told : (page.commands env (run env (levels - 1)) cs).drawn.events.length = 1 := by decide +kernel +zetaReduce
  exact ⟨ready, words, all, by rw [← told, ← drawn]⟩

end Machine

end PdfContent
