import PdfContent.Proofs.Content.Steps
import PdfContent.Proofs.Drawing.Begins
import PdfContent.Proofs.Geometry.Outline
/-!
# Carried — what a form carries out of its content

The path under construction, the clip that waits for its end and the counts of open sections are not among the states
that are saved.  The content of a form starts with an empty path and with the other three as they are where the form is
drawn, and whatever it makes of the four is what the content around the form goes on with (`form_carries`).
-/
namespace PdfContent

/-- What is carried from one content to the other past the states that are saved. -/
structure Carried (α : Type) where
  outline : Outline α
  pendingClip : Option FillRule
  compatibility : Nat
  markedContent : Nat

def Moment.carried {α : Type} (m : Moment α) : Carried α :=
  ⟨m.state.outline, m.pendingClip, m.compatibility, m.markedContent⟩

variable {α : Type} [Scalar α]

/-- A restore keeps the path, and counts its current point anew. -/
def Carried.restored (c : Carried α) : Carried α := { c with outline := .ofPath c.outline.path }

theorem Carried.restored_restored (c : Carried α) : c.restored.restored = c.restored := by
  unfold restored
  rw [Outline.path_ofPath]

namespace Machine

variable {env : Environment α} {inner : Inner α}

/-! ## Forms -/

theorem restoreState_carried {m : Machine α} {s : State α} {saved : List (State α)} (h : m.saved = s :: saved) :
    m.restoreState.carried = m.carried.restored := by
  rw [restoreState_cons h]
  rfl

theorem restoreTo_carried (depth : Nat) (m : Machine α) : (m.restoreTo depth).carried.restored = m.carried.restored := by
  refine restoreTo_eq (f := fun m => m.carried.restored) (fun m => ?_) depth m
  cases h : m.saved with
  | nil => rw [restoreState, h]
  | cons s saved => rw [restoreState_carried h, Carried.restored_restored]

omit [Scalar α] in
theorem popResources_carried (m : Machine α) : m.popResources.carried = m.carried := by
  obtain ⟨_, hp⟩ := popResources_eq m
  rw [hp]
  rfl

theorem leaveForm_carried (use : FormUse α) {m : Machine α} {s : State α} {saved : List (State α)}
    (h : m.saved = s :: saved) : (m.leaveForm use).carried = m.carried.restored := by
  have left (k : Machine α) (hs : k.saved = m.saved) (hk : k.carried = m.carried) :
      k.restoreState.popResources.carried = m.carried.restored := by
    rw [popResources_carried, restoreState_carried (hs.trans h), hk]
  rw [leaveForm_eq]
  cases use <;> exact left _ rfl rfl

def inForm (f : Form α) (use : FormUse α) (m : Machine α) : Machine α :=
  let m := enterForm f use { m with nesting := m.nesting + 1 }
  let m := if use.group?.isSome then m.enterGroup else m
  { m with baseMatrix := m.state.ctm }

theorem formTask_eq (f : Form α) (use : FormUse α) (m : Machine α) : formTask env f use m =
    ⟨contentOf env.store f.content, { inForm f use m with restoreFloor := (inForm f use m).saved.length }⟩ := rfl

variable (env inner) in
theorem drawForm_eq (f : Form α) (use : FormUse α) (m : Machine α) : ∃ baseMatrix nesting, m.drawForm env inner f use =
    { leaveForm use { (inForm f use m).runNested env inner f.content with baseMatrix } with nesting } :=
  ⟨_, _, rfl⟩

theorem enterForm_same (f : Form α) (use : FormUse α) (m : Machine α) :
    (enterForm f use m).carried = { m.carried with outline := .empty } ∧ (enterForm f use m).saved = m.state :: m.saved ∧
      (enterForm f use m).resources = f.resources :: m.resources := by
  cases use <;> exact ⟨rfl, rfl, rfl⟩

omit [Scalar α] in
theorem enterGroup_same (m : Machine α) : m.enterGroup.carried = m.carried ∧ m.enterGroup.saved = m.saved ∧
    m.enterGroup.resources = m.resources := by
  unfold enterGroup
  dsimp only
  split <;> exact ⟨rfl, rfl, rfl⟩

/-- Inside of a form there is no path yet, one more state is saved, and the form has its resources. -/
theorem inForm_same (f : Form α) (use : FormUse α) (m : Machine α) :
    (inForm f use m).carried = { m.carried with outline := .empty } ∧ (inForm f use m).saved = m.state :: m.saved ∧
      (inForm f use m).resources = f.resources :: m.resources := by
  have entered := enterForm_same f use { m with nesting := m.nesting + 1 }
  unfold inForm
  generalize enterForm f use { m with nesting := m.nesting + 1 } = n at entered ⊢
  dsimp only
  split
  · obtain ⟨hc, hs, hr⟩ := enterGroup_same n
    exact ⟨hc.trans entered.1, hs.trans entered.2.1, hr.trans entered.2.2⟩
  · exact entered

/-- What is carried out of a form is what its content has in the end, whether it is drawn by itself, as a group or as a
soft mask. -/
theorem drawForm_carried (hinner : ∀ items m, Draws env .content m (inner items m)) (f : Form α) (use : FormUse α)
    (m : Machine α) : (m.drawForm env inner f use).carried =
      (inner (formTask env f use m).items (formTask env f use m).machine).carried.restored := by
  obtain ⟨-, saved, resources⟩ := inForm_same f use m
  have resources : (inForm f use m).resources ≠ [] := resources ▸ List.cons_ne_nil _ _
  obtain ⟨baseMatrix, nesting, drawn⟩ := drawForm_eq env inner f use m
  rw [formTask_eq, drawn]
  generalize inForm f use m = n at saved resources ⊢
  have level : (n.runNested env inner f.content).saved = m.state :: m.saved :=
    ((Draws.runNested hinner f.content n).frames resources).2.1.trans saved
  have left : (leaveForm use { n.runNested env inner f.content with baseMatrix }).carried =
      (n.runNested env inner f.content).carried.restored := leaveForm_carried use level
  exact left.trans (restoreTo_carried _ _)

/-- **What a form carries out of its content.**  Drawing a form of the resources that nests too deeply, or has no bounds,
leaves the path under construction, the pending clip and the counts of open sections as they are.  Any other form begins
with no path, with the pending clip and with the counts of the content around it, and that content goes on with what the
content of the form has made of all four; so it finds them as it left them only if the form ends with the same path and
counts, and the current point was where the path ends.  Where the color space of a group cannot even be made without a
panic, nothing of the form is drawn. -/
theorem form_carries (env : Environment α) (level : Nat) {m : Machine α} {name : Name} {o : Object} {s : Stream}
    (hr : m.resource? env.store "XObject" name = some o) (ho : env.store.resolve o = .stream s)
    (hs : (env.store.lookup? s.dict "Subtype" : Option Name) = some (.ofText "Form")) :
    let drawn := m.drawObject env (run env level) name
    (m.nesting > maxContentNesting ∨ (Form.ofStream? env.store s : Option (Form α)) = none →
      drawn.carried = m.carried) ∧
    ∀ f : Form α, m.nesting ≤ maxContentNesting → Form.ofStream? env.store s = some f →
      (∀ p, f.useOf env.store = .error p → drawn = m.report (.panic p)) ∧
      ∀ use, f.useOf env.store = .ok use →
      let start := formTask env f use m
      let left := run env level start.items start.machine
      start.machine.carried = { m.carried with outline := .empty } ∧
      drawn.carried = { left.carried with outline := .ofPath left.state.path } ∧
      (drawn.carried = m.carried ↔ m.state.outline = .ofPath left.state.path ∧ left.pendingClip = m.pendingClip ∧
        left.compatibility = m.compatibility ∧ left.markedContent = m.markedContent) := by
  intro drawn
  have form : drawn = m.drawFormStream env (run env level) s := drawObject_form _ hr ho hs
  rw [form, drawFormStream]
  refine ⟨fun h => ?_, fun f hn hf => ?_⟩
  · by_cases hn : m.nesting > maxContentNesting
    · rw [if_pos hn]
    · rw [if_neg hn, h.resolve_left hn]
      rfl
  · rw [if_neg (Nat.not_lt.mpr hn), hf]
    refine ⟨fun p panics => ?_, fun use uses => ?_⟩
    · dsimp only
      rw [panics]
      rfl
    intro start left
    dsimp only
    rw [uses]
    have carried : (m.drawForm env (run env level) f use).carried = left.carried.restored :=
      drawForm_carried (Draws.run level) f use m
    refine ⟨(inForm_same f use m).1, carried, ?_⟩
    rw [show m.withChecked (.ok use) (drawForm env (run env level) f) = m.drawForm env (run env level) f use from rfl,
      carried]
    constructor
    · intro h
      exact ⟨(congrArg Carried.outline h).symm, congrArg Carried.pendingClip h, congrArg Carried.compatibility h,
        congrArg Carried.markedContent h⟩
    · rintro ⟨ho, hp, hc, hm⟩
      show Carried.mk (.ofPath left.state.path) left.pendingClip left.compatibility left.markedContent = m.carried
      rw [← ho, hp, hc, hm]
      rfl

/-- Content that ends nothing of what it begins. -/
def openContent : Bytes := Bytes.ofText "W BX /P BMC 1 1 m"

theorem items_open (st : Store) : ∃ a b c : Thunk Nat, Content.items st openContent =
    [.command (Bytes.ofText "W") none, .command (Bytes.ofText "BX") none, .operand (.name (.ofText "P")) a,
      .command (Bytes.ofText "BMC") none, .operand (.num (.int 1)) b, .operand (.num (.int 1)) c,
      .command (Bytes.ofText "m") none] :=
  ⟨_, _, _, Content.items_of_plain 9 rfl⟩

/-- A rectangle is under construction where the form is drawn; its content begins another path, and sections that it does
not end, and waits with a clip. -/
theorem open_form_carries :
    let form : Stream := ⟨.ofList [(.ofText "Subtype", .name (.ofText "Form")),
      (.ofText "BBox", .array (List.replicate 4 (.num (.int 0))))], openContent⟩
    let resources : Dict := .ofList [(.ofText "XObject", .dict (.ofList [(.ofText "F", .stream form)]))]
    let env : Environment Float := ⟨.empty, .silent, true, .default⟩
    let page : Machine Float := (session env (.cell resources ⟨0, 0, 0, 0⟩) []).addRect ⟨0, 0, 10, 10⟩
    let drawn := page.drawObject env (run env levels) (.ofText "F")
    page.resource? env.store "XObject" (.ofText "F") = some (.stream form) ∧
      env.store.resolve (.stream form) = .stream form ∧
      (env.store.lookup? form.dict "Subtype" : Option Name) = some (.ofText "Form") ∧
      page.state.path.length = 5 ∧ drawn.state.path.length = 1 ∧
      page.pendingClip = none ∧ drawn.pendingClip = some .nonZero ∧
      page.compatibility = 0 ∧ drawn.compatibility = 1 ∧ page.markedContent = 0 ∧ drawn.markedContent = 1 := by
  intro form resources env page drawn
  obtain ⟨bounds, hf⟩ : ∃ bounds, Form.ofStream? env.store form = some (⟨form, bounds, .identity, .empty⟩ : Form Float) :=
    ⟨⟨_, _, _, _⟩, rfl⟩
  have found : page.resource? env.store "XObject" (.ofText "F") = some (.stream form) := rfl
  let start := formTask env ⟨form, bounds, .identity, .empty⟩ .plain page
  let left := run env levels start.items start.machine
  have carried : drawn.carried = left.carried.restored :=
    (((form_carries env levels found rfl rfl).2 _ (Nat.zero_le _) hf).2 .plain rfl).2.1
  obtain ⟨outline, hleft, hpath⟩ : ∃ outline, left.carried = ⟨outline, some .nonZero, 1, 1⟩ ∧ outline.path.length = 1 := by
    obtain ⟨a, b, c, items⟩ := items_open env.store
    exact ⟨_, congrArg (fun is => (run env levels is start.machine).carried) items, rfl⟩
  rw [hleft] at carried
  clear_value drawn
  have path : drawn.state.outline = .ofPath outline.path := congrArg Carried.outline carried
  refine ⟨found, rfl, rfl, rfl, ?_, rfl, congrArg Carried.pendingClip carried, rfl,
    congrArg Carried.compatibility carried, rfl, congrArg Carried.markedContent carried⟩
  rw [State.path, path, Outline.path_ofPath, hpath]

end Machine

end PdfContent
