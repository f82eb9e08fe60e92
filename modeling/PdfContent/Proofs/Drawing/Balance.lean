import PdfContent.Proofs.Drawing.Command
import PdfContent.Proofs.Drawing.Outcome
import PdfContent.Proofs.Drawing.Session
/-!
# Balance — content between a save and its restore leaves the graphics state as it was

Of the operators only the two that save and restore reach the saved states; all others, whatever nests in them, stay on
their level (`Draws.sameLevel`).  Content whose own saves and restores match therefore ends on the level it started on
(`foldl_balanced`), and from in between a save and its restore nothing gets out but the path, unless a panic ends it all
(`bracket_restores`).
-/
namespace PdfContent

namespace Content

def saveName : Bytes := Bytes.ofText "q"

def restoreName : Bytes := Bytes.ofText "Q"

/-- Every restore of the content matches an earlier save of it, and no save stays open. -/
inductive Balanced : List Item → Prop where
  | nil : Balanced []
  | operand (o : Object) (stop : Thunk Nat) {items : List Item} : Balanced items → Balanced (.operand o stop :: items)
  | command {name : Bytes} (image : Option ImageSource) {items : List Item} (hs : name ≠ saveName)
      (hr : name ≠ restoreName) : Balanced items → Balanced (.command name image :: items)
  | level (image image' : Option ImageSource) {inside items : List Item} : Balanced inside → Balanced items →
      Balanced (.command saveName image :: (inside ++ .command restoreName image' :: items))

end Content

/-! ## The two operators -/

namespace Operator

theorem saveName_of_save : ∀ op ∈ all, op.operation = .save → Bytes.ofText op.name = Content.saveName := by
  decide

theorem restoreName_of_restore : ∀ op ∈ all, op.operation = .restore → Bytes.ofText op.name = Content.restoreName := by
  decide

/-- An operator without operands takes none. -/
theorem select_plain (name : String) (o : Operation) (operands : List Object) :
    (plain name o).select operands = .ok [] := by
  have taken : (plain name o).take operands = .ok [] := by
    simp [take, plain, of]
  unfold select
  rw [taken]
  rfl

end Operator

namespace Machine

variable {α : Type} [Scalar α] {env : Environment α} {inner : Inner α}

theorem command_plain {name : String} {o : Operation} (h : Operator.plain name o ∈ Operator.all)
    (operands : List Object) (image : Option Content.ImageSource) (m : Machine α) :
    m.command env inner (Bytes.ofText name) operands image =
      m.perform env inner (Operator.plain name o) [] image := by
  have found : Operator.find? (Bytes.ofText name) = some (Operator.plain name o) :=
    Operator.find?_eq_some_iff.mpr ⟨h, rfl⟩
  unfold command
  simp only [found, Operator.select_plain]

variable (env inner) in
theorem command_save (operands : List Object) (image : Option Content.ImageSource) (m : Machine α) :
    ∃ history, (m.command env inner Content.saveName operands image).toMoment =
      ({ m with history } : Machine α).save.toMoment := by
  have row : Operator.plain "q" .save ∈ Operator.all := by decide
  refine ⟨m.history.push "q", ?_⟩
  rw [Content.saveName, command_plain row]
  rfl

variable (env inner) in
/-- Above its floor content may restore. -/
theorem command_restore (operands : List Object) (image : Option Content.ImageSource) {m : Machine α}
    (hf : m.restoreFloor < m.saved.length) :
    ∃ history, (m.command env inner Content.restoreName operands image).toMoment =
      ({ m with history } : Machine α).restoreState.toMoment := by
  have allowed : ({ m with history := m.history.push "Q" } : Machine α).restore =
      ({ m with history := m.history.push "Q" } : Machine α).restoreState := if_neg (Nat.not_le.mpr hf)
  have row : Operator.plain "Q" .restore ∈ Operator.all := by decide
  refine ⟨m.history.push "Q", ?_⟩
  rw [← allowed, Content.restoreName, command_plain row]
  rfl

/-! ## Content on one level -/

/-- Between the two moments everything that was saved has been restored, and nothing else. -/
structure SameLevel (m n : Moment α) : Prop where
  around : n.around = m.around
  saved : n.saved = m.saved
  clips : n.clips.saved = m.clips.saved

omit [Scalar α] in
theorem SameLevel.refl (m : Moment α) : SameLevel m m := ⟨rfl, rfl, rfl⟩

omit [Scalar α] in
theorem SameLevel.trans {m n k : Moment α} (h : SameLevel m n) (h' : SameLevel n k) : SameLevel m k :=
  ⟨h'.around.trans h.around, h'.saved.trans h.saved, h'.clips.trans h.clips⟩

omit [Scalar α] in
theorem SameLevel.sound {m n : Machine α} (h : SameLevel m.toMoment n.toMoment) (hm : m.Sound) : n.Sound :=
  sound_of_same hm h.around h.saved h.clips

end Machine

open Machine

variable {α : Type} [Scalar α] {env : Environment α}

/-- An operator that does not save or restore stays on its level. -/
theorem Draws.sameLevel {o : Operation} {m n : Machine α} (h : Draws env (.operator o) m n) (hm : m.resources ≠ [])
    (hs : o ≠ .save) (hr : o ≠ .restore) : SameLevel m.toMoment n.toMoment := by
  cases h with
  | effect _ h =>
    obtain ⟨hf, hs, hc⟩ := h.frames hm
    exact ⟨hf, hs, hc⟩
  | save => exact absurd rfl hs
  | restore => exact absurd rfl hr
  | concat t =>
    obtain ⟨hf, hs, hc⟩ := concat_same env t m
    exact ⟨hf, hs, hc⟩
  | shade h h' =>
    obtain ⟨hf, hs, hc⟩ := h.frames hm
    obtain ⟨hf', hs', hc'⟩ := h'.frames (resources_of_around hf hm)
    exact ⟨hf'.trans hf, hs'.trans hs, hc'.trans hc⟩

namespace Machine

variable {inner : Inner α}

/-- Content that stays on its level, between a save and a restore. -/
theorem foldl_level {inside : List Content.Item}
    (h : ∀ x : List Object × Machine α, x.2.Sound → SameLevel x.2.toMoment (inside.foldl (item env inner) x).2.toMoment)
    (image image' : Option Content.ImageSource) (operands : List Object) {m : Machine α} (hm : m.Sound) :
    ∃ n : Machine α, (.command Content.saveName image :: (inside ++ [.command Content.restoreName image'])).foldl
        (item env inner) (operands, m) = ([], n) ∧
      n.around = m.around ∧ (∃ outline, n.state = { m.state with outline }) ∧ n.saved = m.saved ∧ n.clips = m.clips := by
  obtain ⟨history, opens⟩ := command_save env inner operands.reverse image m
  rw [List.foldl_cons, List.foldl_append, item]
  generalize m.command env inner Content.saveName operands.reverse image = s at opens ⊢
  have level : SameLevel ({ m with history } : Machine α).save.toMoment s.toMoment := opens ▸ .refl _
  have saved : ({ m with history } : Machine α).save.Sound := save_sound ⟨hm.resources, hm.depth, hm.floor, hm.base⟩
  have kept := level.trans (h ([], s) (level.sound saved))
  generalize inside.foldl (item env inner) ([], s) = x at kept ⊢
  have above : x.2.restoreFloor < x.2.saved.length := by
    rw [kept.saved, Moment.floor_of_around kept.around]
    exact Nat.lt_succ_of_le hm.floor
  obtain ⟨history', closes⟩ := command_restore env inner x.1.reverse image' above
  have left : ({ x.2 with history := history' } : Machine α).restoreState = _ :=
    restoreState_of_save (m := m) kept.saved kept.clips
  rw [left] at closes
  refine ⟨_, rfl, ?_⟩
  rw [closes]
  exact ⟨kept.around, ⟨_, rfl⟩, rfl, rfl⟩

section

variable (hinner : ∀ items m, Draws env .content m (inner items m))
include hinner

theorem command_sameLevel {name : Bytes} (operands : List Object) (image : Option Content.ImageSource) {m : Machine α}
    (hm : m.resources ≠ []) (hs : name ≠ Content.saveName) (hr : name ≠ Content.restoreName) :
    SameLevel m.toMoment (m.command env inner name operands image).toMoment := by
  unfold command
  split
  · split
    · exact ⟨rfl, rfl, rfl⟩
    · exact .refl _
  · rename_i op found
    obtain ⟨row, named⟩ := Operator.find?_eq_some_iff.mp found
    split
    · exact ⟨rfl, rfl, rfl⟩
    · rename_i taken _
      have performed : SameLevel ({ m with history := m.history.push op.name } : Machine α).toMoment
          ({ m with history := m.history.push op.name }.execute env inner op ⟨taken⟩ image).toMoment :=
        (Draws.execute hinner op ⟨taken⟩ image _).sameLevel hm
          (fun ho => hs (named.symm.trans (Operator.saveName_of_save op row ho)))
          (fun ho => hr (named.symm.trans (Operator.restoreName_of_restore op row ho)))
      exact ⟨performed.around, performed.saved, performed.clips⟩

/-- **Balanced content stays on its level**, whatever else stands in it. -/
theorem foldl_balanced {items : List Content.Item} (hb : Content.Balanced items) :
    ∀ x : List Object × Machine α, x.2.Sound →
      SameLevel x.2.toMoment (items.foldl (item env inner) x).2.toMoment := by
  induction hb with
  | nil => exact fun x _ => .refl _
  | operand o stop _ ih =>
    intro x hx
    have first : SameLevel x.2.toMoment (item env inner x (.operand o stop)).2.toMoment := by
      unfold item
      dsimp only
      split
      · exact .refl _
      · exact ⟨rfl, rfl, rfl⟩
    exact first.trans (ih _ (first.sound hx))
  | command image hs hr _ ih =>
    intro x hx
    have first := command_sameLevel hinner x.1.reverse image hx.resources hs hr
    exact first.trans (ih ([], _) (first.sound hx))
  | @level image image' inside items _ _ ih ih' =>
    intro x hx
    obtain ⟨n, hn, hf, -, hs, hc⟩ := foldl_level ih image image' x.1 hx
    have first : SameLevel x.2.toMoment n.toMoment := ⟨hf, hs, congrArg ClipHistory.saved hc⟩
    have split : .command Content.saveName image :: (inside ++ .command Content.restoreName image' :: items) =
        (.command Content.saveName image :: (inside ++ [.command Content.restoreName image'])) ++ items := by
      simp
    rw [split, List.foldl_append, hn]
    exact first.trans (ih' ([], n) (first.sound hx))

end

/-- **A save and its restore bring back the graphics state.**  From any sound machine, and with whatever operands are
waiting, a save, balanced content and a restore leave the state as it was but for the path under construction, and
likewise the clip and everything that is saved, if there is no panic on the way.  Every moment of a session is sound,
those before and after each operator included, however deeply nested the content it stands in. -/
theorem bracket_restores (env : Environment α) (level : Nat) (m : Machine α) (hm : m.Sound) (operands : List Object)
    {inside : List Content.Item} (hb : Content.Balanced inside) (image image' : Option Content.ImageSource) :
    (∃ n : Machine α, (.command Content.saveName image :: (inside ++ [.command Content.restoreName image'])).foldl
        (item env (run env level)) (operands, m) = ([], n) ∧
      ∀ k, n.outcome = .ok k → (∃ outline, k.state = { m.state with outline }) ∧ k.clips = m.clips ∧ k.saved = m.saved) ∧
    ∀ origin requests, (session env origin requests).Sound ∧
      ∀ e, (session env origin requests).executed e → e.before.Sound ∧ e.after.Sound := by
  obtain ⟨n, hn, -, hstate, hs, hc⟩ := foldl_level (foldl_balanced (Draws.run level) hb) image image' operands hm
  refine ⟨⟨n, hn, fun k whole => ?_⟩, session_sound env⟩
  rw [(outcome_ok_iff.mp whole).1]
  exact ⟨hstate, hc, hs⟩

/-- The line width is set, on the level and on one inside of it, while an operand waits. -/
theorem line_width_restored :
    let env : Environment Float := ⟨.empty, .silent, true, .default⟩
    let page : Machine Float := session env (.cell .empty ⟨0, 0, 0, 0⟩) []
    let five : Content.Item := .operand (.num (.int 5)) (Thunk.pure 0)
    let width : Content.Item := .command (Bytes.ofText "w") none
    let inside : List Content.Item :=
      [five, width, .command Content.saveName none, five, width, .command Content.restoreName none]
    page.Sound ∧ Content.Balanced inside ∧
      ∃ n : Machine Float, (.command Content.saveName none :: (inside ++ [.command Content.restoreName none])).foldl
          (item env (run env levels)) ([.null], page) = ([], n) ∧ n.outcome = .ok n ∧
        (∃ outline, n.state = { page.state with outline }) ∧ n.clips = page.clips ∧ n.saved = page.saved := by
  intro env page five width inside
  have sound : page.Sound := (session_sound env _ []).1
  have set (items : List Content.Item) (h : Content.Balanced items) : Content.Balanced (five :: width :: items) :=
    .operand _ _ (.command none (by decide) (by decide) h)
  have balanced : Content.Balanced inside := set _ (.level none none (set [] .nil) .nil)
  obtain ⟨n, drawn, restored⟩ := (bracket_restores env levels page sound [.null] balanced none none).1
  have whole : n.outcome = .ok n := by
    obtain rfl : _ = n := congrArg Prod.snd drawn
    rfl
  exact ⟨sound, balanced, n, drawn, whole, restored n whole⟩

end Machine

end PdfContent
