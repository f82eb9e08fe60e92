import PdfContent.Proofs.Content.Item
import PdfContent.Proofs.Drawing.Session
/-!
# Masks — which soft mask the builder has when something is painted

The soft mask is kept twice, by the graphics state and by the builder, and both are saved and restored together.  The
two part where a group begins under a mask, since only the builder's is removed, and at a tiling, since its cell starts
with a state of its own while the builder goes on with what it has.  What the state has can always be told from the
calls (`stateMask`), and as long as no group and no tiling has parted them the builder has the same (`session_masks`).
-/
namespace PdfContent

open Scalar

/-! ## Masks of a log -/

def Call.builderMasks {α : Type} : Call α → List (Option (SoftMask α)) → List (Option (SoftMask α))
  | .setSoftMask _ k, _ :: r => some k :: r
  | .clearSoftMask _, _ :: r => none :: r
  | .save, k :: r => k :: k :: r
  | .restore, _ :: r => r
  | _, ks => ks

/-- What a call tells of the masks of the states.  The mask is removed from the builder alone unless it is removed from
the state that comes with the call, and the cell of a tiling has states of its own. -/
def Call.stateMasks {α : Type} : Call α → List (Option (SoftMask α)) → List (Option (SoftMask α))
  | .setSoftMask _ k, _ :: r => some k :: r
  | .clearSoftMask s, _ :: r => s.softMask :: r
  | .save, k :: r => k :: k :: r
  | .restore, _ :: r => r
  | .pushTiling .., ks => none :: ks
  | .popTiling, _ :: r => r
  | _, ks => ks

def builderMasks {α : Type} : Log α → List (Option (SoftMask α))
  | [] => [none]
  | .report _ :: log => builderMasks log
  | .call c :: log => c.builderMasks (builderMasks log)

def stateMasks {α : Type} : Log α → List (Option (SoftMask α))
  | [] => [none]
  | .report _ :: log => stateMasks log
  | .call c :: log => c.stateMasks (stateMasks log)

def builderMask {α : Type} (log : Log α) : Option (SoftMask α) := (builderMasks log).head?.join

def stateMask {α : Type} (log : Log α) : Option (SoftMask α) := (stateMasks log).head?.join

/-- Whether a call keeps the masks of the builder and the state together, if `mask` is the builder's: groups begin in an
unmasked state, and tilings begin and end without a mask. -/
def Call.Shares {α : Type} (mask : Option (SoftMask α)) : Call α → Prop
  | .clearSoftMask s => s.softMask = none
  | .pushTiling .. | .popTiling => mask = none
  | _ => True

/-- Nothing has parted the masks of the builder and the state. -/
def Shared {α : Type} : Log α → Prop
  | [] => True
  | .report _ :: log => Shared log
  | .call c :: log => c.Shares (builderMask log) ∧ Shared log

def Call.painted? {α : Type} : Call α → Option (State α)
  | .addPath s .. | .addChar s _ | .addImageMask s .. | .addImage s .. | .addMaskedImage s ..
  | .addSoftMaskedImage s .. => some s
  | _ => none

/-- What is painted is painted in a state with the mask that the calls before tell. -/
def PaintsMasked {α : Type} (log : Log α) : Prop :=
  ∀ c s earlier, .call c :: earlier <:+ log → c.painted? = some s →
    s.softMask = stateMask earlier ∧ (Shared earlier → s.softMask = builderMask earlier)

section

variable {α : Type} {c : Call α} {s : State α} {k : Option (SoftMask α)} {ks : List (Option (SoftMask α))}

/-- A plain call changes no mask of a state, and it changes that of the builder only to the one of its state. -/
theorem Call.Plain.masks (h : c.Plain s) (hk : s.softMask = k) :
    c.stateMasks (k :: ks) = k :: ks ∧ ∀ mask, c.Shares mask → c.builderMasks (k :: ks) = k :: ks := by
  obtain ⟨hp, hs⟩ := h
  cases c with
  | clearSoftMask t =>
    obtain rfl := hs t rfl
    refine ⟨by rw [← hk]; rfl, fun _ shared => ?_⟩
    have unmasked : t.softMask = none := shared
    rw [← hk, unmasked]
    rfl
  | _ => first | exact ⟨rfl, fun _ _ => rfl⟩ | cases hp

theorem Call.Plain.painted (h : c.Plain s) {t : State α} (ht : c.painted? = some t) : t = s := by
  obtain ⟨-, hs⟩ := h
  cases c <;> first | exact hs t ht | cases ht

end

namespace Machine

variable {α : Type}

/-- The masks of the state in effect and of the saved ones, from the inside out. -/
def masks (m : Machine α) : List (Option (SoftMask α)) := m.state.softMask :: m.saved.map (·.softMask)

/-- The log tells the masks of the machine's states, above those `outer` of the machines that it interrupts.  If nothing
has parted them, the builder has the same ones, above some that it had before. -/
structure Masked (outer : List (Option (SoftMask α))) (before : List (Option (SoftMask α)) → Prop) (m : Machine α) :
    Prop where
  states : stateMasks m.log = m.masks ++ outer
  builder : Shared m.log → ∃ ks, before ks ∧ builderMasks m.log = m.masks ++ ks
  painted : PaintsMasked m.log

namespace Masked

variable {outer outer' : List (Option (SoftMask α))} {before before' : List (Option (SoftMask α)) → Prop}
  {m n : Machine α}

theorem of_same (h : Masked outer before m) (hl : n.log = m.log) (hm : n.masks = m.masks) : Masked outer before n where
  states := by rw [hl, hm]; exact h.states
  builder := by rw [hl, hm]; exact h.builder
  painted := hl ▸ h.painted

theorem stateMask_eq (h : Masked outer before m) : stateMask m.log = m.state.softMask := by
  rw [stateMask, h.states]
  rfl

theorem builderMask_eq (h : Masked outer before m) (shared : Shared m.log) : builderMask m.log = m.state.softMask := by
  obtain ⟨ks, -, hk⟩ := h.builder shared
  rw [builderMask, hk]
  rfl

/-- One more call, with what it does to the masks. -/
theorem call {c : Call α} (h : Masked outer before m) (hl : n.log = .call c :: m.log)
    (hs : c.stateMasks (m.masks ++ outer) = n.masks ++ outer')
    (hb : ∀ ks, before ks → c.Shares m.state.softMask →
      ∃ ks', before' ks' ∧ c.builderMasks (m.masks ++ ks) = n.masks ++ ks')
    (hp : ∀ s, c.painted? = some s → s = m.state) : Masked outer' before' n where
  states := by rw [hl, stateMasks, h.states, hs]
  builder shared := by
    rw [hl] at shared ⊢
    obtain ⟨ks, hk, eq⟩ := h.builder shared.2
    rw [builderMasks, eq]
    exact hb ks hk (h.builderMask_eq shared.2 ▸ shared.1)
  painted := by
    rw [hl]
    intro d s earlier hd painted
    rcases List.suffix_cons_iff.mp hd with hd | hd
    · cases hd
      obtain rfl := hp s painted
      exact ⟨h.stateMask_eq.symm, fun shared => (h.builderMask_eq shared).symm⟩
    · exact h.painted d s earlier hd painted

theorem report (d : Diagnostic) (h : Masked outer before m) : Masked outer before (m.report d) where
  states := h.states
  builder := h.builder
  painted := by
    intro c s earlier hc painted
    rcases List.suffix_cons_iff.mp hc with hc | hc
    · cases hc
    · exact h.painted c s earlier hc painted

theorem tell {c : Call α} (hc : c.Plain m.state) (h : Masked outer before m) : Masked outer before (m.tell c) :=
  h.call rfl (hc.masks rfl).1 (fun ks hk shares => ⟨ks, hk, (hc.masks rfl).2 _ shares⟩) fun _ => hc.painted

/-- A call that has nothing to do with masks or painting. -/
theorem aside {c : Call α} (hs : ∀ ks, c.stateMasks ks = ks) (hb : ∀ ks, c.builderMasks ks = ks)
    (hp : ∀ s, c.painted? = some s → s = m.state) (h : Masked outer before m) : Masked outer before (m.tell c) :=
  h.call rfl (hs _) (fun ks hk _ => ⟨ks, hk, hb _⟩) hp

theorem mask (k : SoftMask α) (h : Masked outer before m) :
    Masked outer before ((m.tellState (.setSoftMask · k)).modifyState fun s => { s with softMask := some k }) :=
  h.call rfl rfl (fun ks hk _ => ⟨ks, hk, rfl⟩) fun _ hp => nomatch hp

theorem unmask (h : Masked outer before m) :
    Masked outer before ((m.modifyState fun s => { s with softMask := none }).tellState .clearSoftMask) :=
  h.call rfl rfl (fun ks hk _ => ⟨ks, hk, rfl⟩) fun _ hp => nomatch hp

theorem save (h : Masked outer before m) : Masked outer before m.save :=
  h.call rfl rfl (fun ks hk _ => ⟨ks, hk, rfl⟩) fun _ hp => nomatch hp

variable [Scalar α]

theorem restoreState (h : Masked outer before m) : Masked outer before m.restoreState := by
  cases hs : m.saved with
  | nil =>
    unfold Machine.restoreState
    rw [hs]
    exact h
  | cons s saved =>
    have hm : m.masks = m.state.softMask :: s.softMask :: saved.map (·.softMask) := by
      rw [masks, hs, List.map_cons]
    rw [restoreState_cons hs]
    refine h.call (c := .restore) rfl (by rw [hm]; rfl) (fun ks hk _ => ⟨ks, hk, by rw [hm]; rfl⟩) fun _ hp => ?_
    cases hp

theorem restoreTo (depth : Nat) (h : Masked outer before m) : Masked outer before (m.restoreTo depth) :=
  restoreTo_preserves (fun _ h => h.restoreState) depth h

theorem restore (h : Masked outer before m) : Masked outer before m.restore := by
  unfold Machine.restore
  split
  · exact h.report _
  · exact h.restoreState

theorem multiply (t : Affine α) (h : Masked outer before m) : Masked outer before (m.multiply t) := h.of_same rfl rfl

omit [Scalar α] in
theorem setTransform (t : Affine α) (h : Masked outer before m) : Masked outer before (m.setTransform t) :=
  (h.aside (c := .setTransform t) (fun _ => rfl) (fun _ => rfl) fun _ hp => nomatch hp).of_same rfl rfl

omit [Scalar α] in
theorem pushGroup (h : Masked outer before m) : Masked outer before (m.tell .pushGroup) :=
  h.aside (fun _ => rfl) (fun _ => rfl) fun _ hp => nomatch hp

theorem concat (env : Environment α) (t : Affine α) (h : Masked outer before m) :
    Masked outer before (m.concat env t) := by
  unfold Machine.concat
  dsimp only
  split
  · exact ((h.multiply t).setTransform t).of_same rfl rfl
  split
  · exact ((h.multiply t).setTransform _).of_same rfl rfl
  · exact ((h.multiply t).pushGroup.setTransform t).of_same rfl rfl

/-- What the builder had when the cell of a tiling was begun: no mask, and those of the levels around it. -/
def beneath (before : List (Option (SoftMask α)) → Prop) (m : Machine α) (ks : List (Option (SoftMask α))) : Prop :=
  m.state.softMask = none ∧ ∃ ks', before ks' ∧ ks = m.saved.map (·.softMask) ++ ks'

theorem cell (env : Environment α) (t : Tiling α) (seed : Option (ColorSpace × Color)) (told : Tiling α) (part : Part)
    (h : Masked outer before m) :
    Masked (m.masks ++ outer) (beneath before m) (cellOf env t seed (m.tell (.pushTiling told part))) := by
  have hm : (cellOf env t seed (m.tell (.pushTiling told part))).masks = [none] := by
    cases seed <;> rfl
  refine h.call (c := .pushTiling told part) (cellOf_log ..) (by rw [hm]; rfl) (fun ks hk shares => ?_)
    fun _ hp => nomatch hp
  have unmasked : m.state.softMask = none := shares
  refine ⟨_, ⟨unmasked, ks, hk, rfl⟩, ?_⟩
  rw [hm]
  exact congrArg (· :: (m.saved.map (·.softMask) ++ ks)) unmasked

omit [Scalar α] in
/-- The states are those around the cell again, but the builder keeps the mask of the cell, so this has to be none. -/
theorem endCell (h : Masked (m.masks ++ outer) (beneath before m) n) (hs : n.saved = []) :
    Masked outer before ({ m with log := n.log, executed := n.executed }.tell .popTiling) := by
  have hm : n.masks = [n.state.softMask] := by
    rw [masks, hs, List.map_nil]
  refine h.call (c := .popTiling) rfl (by rw [hm]; rfl) (fun ks hk shares => ?_) fun _ hp => nomatch hp
  obtain ⟨unmasked, ks', hk', rfl⟩ := hk
  refine ⟨ks', hk', ?_⟩
  have ended : n.state.softMask = none := shares
  rw [hm, ended]
  exact congrArg (· :: (m.saved.map (·.softMask) ++ ks')) unmasked.symm

end Masked

end Machine

namespace Draws

open Machine

variable {α : Type} [Scalar α] {env : Environment α} {p : Span} {m n : Machine α}

/-- **Every stretch of a drawing keeps the masks told**, of the states of the machine at work and of those that it
interrupts. -/
theorem masked (h : Draws env p m n) : ∀ {outer before}, Masked outer before m → Masked outer before n := by
  induction h with
  | refl | nothing => exact id
  | trans _ _ ih ih' | start _ _ ih ih' => exact fun hm => ih' (ih hm)
  | report d => exact .report d
  | tell hc => exact .tell hc
  | restyle s hs _ => exact fun hm => hm.of_same rfl (List.cons_eq_cons.mpr ⟨congrArg (·.2.2) hs, rfl⟩)
  | clip | note | font => exact fun hm => hm.of_same rfl rfl
  | announce m =>
    exact fun hm => (hm.aside (c := .updateFont m.state) (fun _ => rfl) (fun _ => rfl) fun _ hp => nomatch hp).of_same
      rfl rfl
  | char p =>
    exact .aside (fun _ => rfl) (fun _ => rfl) fun _ hp => (Option.some.inj hp).symm
  | mask k => exact .mask k
  | unmask => exact .unmask
  | @resources _ _ n _ _ ih =>
    intro _ _ hm
    obtain ⟨_, hp⟩ := popResources_eq n
    rw [hp]
    exact (ih (hm.of_same rfl rfl)).of_same rfl rfl
  | string _ _ ih | transparency _ _ ih =>
    intro _ _ hm
    refine .aside (fun _ => rfl) (fun _ => rfl) (fun _ hp => nomatch hp) (ih ?_)
    exact hm.aside (fun _ => rfl) (fun _ => rfl) fun _ hp => nomatch hp
  | nesting _ ih | glyph _ ih | base _ _ ih => exact fun hm => (ih (hm.of_same rfl rfl)).of_same rfl rfl
  | @tiling _ m n told t part seed h ih =>
    intro _ _ hm
    have above := h.kept.2 _ _ (cellOf_above env t seed (m.tell (.pushTiling told part)))
    exact ((ih (hm.cell env t seed told part)).restoreTo 0).endCell above.restoreTo.1
  | level _ ih => exact fun hm => (ih hm.save).restoreState
  | place t _ ih => exact fun hm => ih ((hm.multiply t).setTransform t)
  | unplaced _ ih | effect _ _ ih => exact ih
  | group t => exact fun hm => (hm.multiply t).pushGroup.setTransform t
  | nested _ ih => exact fun hm => ((ih (hm.of_same rfl rfl)).restoreTo _).of_same rfl rfl
  | save => exact .save
  | restore => exact .restore
  | concat t => exact .concat env t
  | shade _ _ ih ih' =>
    exact fun hm => ih' ((ih hm).aside (fun _ => rfl) (fun _ => rfl) fun _ hp => nomatch hp)
  | fault d _ ih => exact fun hm => (ih hm).report d
  | perform _ _ _ ih ih' => exact fun hm => (ih' ((ih hm).of_same rfl rfl)).of_same rfl rfl

end Draws

namespace Machine

variable {α : Type} [Scalar α]

theorem start_masked (env : Environment α) (resources : Dict) (ctm : Affine α) :
    Masked [] (· = []) (start env [] resources ctm) where
  states := rfl
  builder _ := ⟨[], rfl, rfl⟩
  painted _ _ _ h := nomatch List.suffix_nil.mp h

theorem pageLevel_masked (env : Environment α) (p : PageParams α) : Masked [] (· = []) (pageLevel env p) := by
  have page := (start_masked env p.resources p.frame.1).aside
    (c := .documentSize (p.frame.2.1 * ofFloat Style.pixelsPerPoint) (p.frame.2.2 * ofFloat Style.pixelsPerPoint))
    (fun _ => rfl) (fun _ => rfl) fun _ hp => nomatch hp
  exact page.save.aside (fun _ => rfl) (fun _ => rfl) fun _ hp => nomatch hp

theorem opening_masked (env : Environment α) (origin : Origin α) : Masked [] (· = []) (opening env origin) := by
  cases origin with
  | cell resources bounds => exact start_masked env resources _
  | page p =>
    obtain ⟨m, h, hp⟩ := startPage_draws env p
    rw [opening, hp]
    exact (h.masked (pageLevel_masked env p)).of_same rfl rfl

/-- **What is painted has the mask that the calls before it tell**, whatever is drawn, from the start of a page or a cell
to its end.  That is the mask of the builder, and there is one in the state exactly if there is one in the builder, as
long as no group has begun under a mask and no tiling has begun or ended while the builder had one. -/
theorem session_masks (env : Environment α) (origin : Origin α) (requests : List Request) {c : Call α} {s : State α}
    {earlier : Log α} (h : .call c :: earlier <:+ (session env origin requests).finish.log)
    (hc : c.painted? = some s) :
    s.softMask = stateMask earlier ∧ (Shared earlier → s.softMask = builderMask earlier) := by
  have masked : Masked [] (· = []) (session env origin requests) :=
    session_induction (opening_masked env origin) (fun _ _ h hm => h.masked hm)
      (fun _ _ _ _ hm => hm.of_same rfl rfl) requests
  exact (masked.restoreTo 0).painted c s earlier h hc

def unmaskedText : Bytes := Bytes.ofText "/G gs/F 9 Tf(A)Tj"

theorem items_unmasked (st : Store) : ∃ a b c d : Thunk Nat, Content.items st unmaskedText =
    [.operand (.name (.ofText "G")) a, .command (Bytes.ofText "gs") none, .operand (.name (.ofText "F")) b,
      .operand (.num (.int 9)) c, .command (Bytes.ofText "Tf") none, .operand (.str (Bytes.ofText "A")) d,
      .command (Bytes.ofText "Tj") none] := by
  have parameters : Content.next? unmaskedText =
      some (.operand (.name (.ofText "G")), Bytes.ofText " gs/F 9 Tf(A)Tj") :=
    Content.next?_name rfl
  have apply : Content.next? (Bytes.ofText " gs/F 9 Tf(A)Tj") =
      some (.command (Bytes.ofText "gs"), Bytes.ofText "/F 9 Tf(A)Tj") :=
    Content.next?_keyword rfl rfl
  have name : Content.next? (Bytes.ofText "/F 9 Tf(A)Tj") =
      some (.operand (.name (.ofText "F")), Bytes.ofText " 9 Tf(A)Tj") :=
    Content.next?_name rfl
  have size : Content.next? (Bytes.ofText " 9 Tf(A)Tj") = some (.operand (.num (.int 9)), Bytes.ofText " Tf(A)Tj") :=
    Content.next?_number rfl
  have select : Content.next? (Bytes.ofText " Tf(A)Tj") = some (.command (Bytes.ofText "Tf"), Bytes.ofText "(A)Tj") :=
    Content.next?_keyword rfl rfl
  have string : Content.next? (Bytes.ofText "(A)Tj") = some (.operand (.str (Bytes.ofText "A")), Bytes.ofText "Tj") :=
    Content.next?_string rfl
  have shown : Content.next? (Bytes.ofText "Tj") = some (.command (Bytes.ofText "Tj"), []) :=
    Content.next?_keyword rfl rfl
  unfold Content.items
  rw [Content.itemsFrom_operand parameters, Content.itemsFrom_command apply rfl, Content.itemsFrom_operand name,
    Content.itemsFrom_operand size, Content.itemsFrom_command select rfl, Content.itemsFrom_operand string,
    Content.itemsFrom_command shown rfl, Content.itemsFrom_nil]
  exact ⟨_, _, _, _, rfl⟩

theorem unmasked_text_painted :
    let font : Dict := .ofList [(.ofText "Subtype", .name (.ofText "Type1"))]
    let parameters : Dict := .ofList [(.ofText "SMask", .name (.ofText "None"))]
    let resources : Dict := .ofList [(.ofText "Font", .dict (.ofList [(.ofText "F", .dict font)])),
      (.ofText "ExtGState", .dict (.ofList [(.ofText "G", .dict parameters)]))]
    let env : Environment Float := ⟨.empty, .silent, true, .default⟩
    let m := session env (.cell resources ⟨0, 0, 0, 0⟩) [.content (.stream ⟨.empty, unmaskedText⟩)]
    ∃ s p earlier, .call (.addChar s p) :: earlier <:+ m.finish.log ∧ (∃ t, .call (.clearSoftMask t) ∈ earlier) ∧
      Shared earlier ∧ s.softMask = builderMask earlier := by
  intro font parameters resources env m
  obtain ⟨a, b, c, d, items⟩ := items_unmasked env.store
  have drawn : m = run env levels _ (opening env (.cell resources ⟨0, 0, 0, 0⟩)) :=
    congrArg (run env levels · (opening env (.cell resources ⟨0, 0, 0, 0⟩))) items
  have log : ∃ s p t u v w x, m.finish.log =
      [.call (.endString u), .call (.addChar s p), .call (.beginString v (Bytes.ofText "A")), .call (.updateFont t),
        .call (.updateStyle w), .call (.clearSoftMask x)] ∧ x.softMask = none := by
    rw [drawn]
    exact ⟨_, _, _, _, _, _, _, rfl, rfl⟩
  obtain ⟨s, p, t, u, v, w, x, hlog, hx⟩ := log
  have suffix : .call (.addChar s p) :: [.call (.beginString v (Bytes.ofText "A")), .call (.updateFont t),
      .call (.updateStyle w), .call (.clearSoftMask x)] <:+ m.finish.log := hlog ▸ List.suffix_cons _ _
  have shared : Shared [.call (.beginString v (Bytes.ofText "A")), .call (.updateFont t), .call (.updateStyle w),
      .call (.clearSoftMask x)] := ⟨trivial, trivial, trivial, hx, trivial⟩
  refine ⟨s, p, _, suffix, ⟨x, .tail _ (.tail _ (.tail _ (.head _)))⟩, shared, ?_⟩
  exact (session_masks env _ _ suffix rfl).2 shared

end Machine

end PdfContent
