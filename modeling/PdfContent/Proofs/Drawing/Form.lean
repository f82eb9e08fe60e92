import PdfContent.Proofs.Drawing.Text
import PdfContent.Proofs.Yields
/-!
# Form — forms, soft masks, images and parameter dictionaries as moves

A form is a level of its own under its own resources; a transparency group is opened on that level before it is placed,
and closed before the level is left.
-/
namespace PdfContent

namespace Machine

def useForm {α : Type} (use : FormUse α) (m : Machine α) : Machine α :=
  match use with
  | .plain => m
  | .group g => m.tellState (.paintTransparencyGroup · g.bounds)
  | .softMask _ mask => (m.tellState (.setSoftMask · mask)).modifyState fun s => { s with softMask := some mask }

theorem leaveForm_eq {α : Type} [Scalar α] (use : FormUse α) (m : Machine α) :
    m.leaveForm use =
      (if use.group?.isSome then m.tellState .popTransparencyGroup else m).restoreState.popResources.useForm use := by
  cases use <;> rfl

/-- A form of the resources is drawn by its name. -/
theorem drawObject_form {α : Type} [Scalar α] {env : Environment α} {m : Machine α} {name : Name} {o : Object}
    {s : Stream} (inner : Inner α) (hr : m.resource? env.store "XObject" name = some o)
    (ho : env.store.resolve o = .stream s)
    (hs : (env.store.lookup? s.dict "Subtype" : Option Name) = some (.ofText "Form")) :
    m.drawObject env inner name = m.drawFormStream env inner s := by
  have resource : m.requireResource env.store "XObject" "xobject" name = (some (.stream s), m) := by
    rw [requireResource, hr, ← ho]
  have subtype : (Name.ofText "Form" == Name.ofText "Image") = false := by decide
  unfold drawObject
  simp only [resource, hs, subtype, beq_self_eq_true, if_true, Bool.false_eq_true, if_false]

end Machine

namespace Draws

open Machine

variable {α : Type} [Scalar α] {env : Environment α} {b : Bool}

/-! ## Images -/

omit [Scalar α] in
theorem softMasked_plain (m : Machine α) (image : ImageData) (map : ColorMap) (s : Stream) :
    Yields (·.Plain m.state) (m.softMasked env image map s) := by
  unfold Machine.softMasked
  refine .bind fun mask => .bind fun space => ?_
  split
  · exact .bind fun _ => .pure (.of_some rfl rfl)
  · exact .throw _

omit [Scalar α] in
theorem masked_plain (m : Machine α) (image : ImageData) (map : ColorMap) (s : Stream) :
    Yields (·.Plain m.state) (m.masked env image map s) := by
  have drawn : Yields (·.Plain m.state) (do
      return Call.addMaskedImage m.state image map (← readImage env.store s) (isInverted env.store s.dict)) :=
    .bind fun _ => .pure (.of_some rfl rfl)
  exact .branch (.bind fun _ => drawn) drawn

omit [Scalar α] in
theorem imageCall_plain (m : Machine α) (s : Stream) (inline_ : Bool) :
    Yields (·.Plain m.state) (m.imageCall env s inline_) := by
  refine .bind fun image => .branch ?_ (.bind fun space => .bind fun map => ?_)
  · exact .branch (.bind fun _ => .pure (.of_some rfl rfl)) (.pure (.of_some rfl rfl))
  · split
    · exact .branch (.throw _) (softMasked_plain m image map _)
    · exact .bind fun _ => .pure (.of_some rfl rfl)
    · exact .branch (.throw _) (masked_plain m image map _)
    · exact .pure (.of_some rfl rfl)

theorem drawImage (s : Stream) (inline_ : Bool) (m : Machine α) :
    Draws env (.part b) m (m.drawImage env s inline_) := by
  unfold Machine.drawImage
  split
  · rename_i h
    exact .tell (imageCall_plain m s inline_ _ h)
  · exact .report _ m

theorem drawInline (source : Content.ImageSource) (m : Machine α) :
    Draws env (.part b) m (m.drawInline env source) := by
  unfold Machine.drawInline
  dsimp only
  split
  · exact (reportAll _ m).trans (drawImage _ true _)
  · exact reportAll _ m

/-! ## Forms -/

theorem updateStyle (m : Machine α) : Draws env (.part b) m (m.tellState .updateStyle) := tellState rfl rfl

theorem clearMask (m : Machine α) : Draws env (.part b) m (m.tellState .clearSoftMask) := tellState rfl rfl

/-- The clip of a form to its bounds. -/
theorem clipBounds (r : Rect α) (m : Machine α) : Draws env (.part b) m
    ({ m.addRect r with clips := m.clips.set (m.addRect r).state.path .nonZero }.tellState
      (.clip · false)).clearPath :=
  (addRect r m).trans ((Draws.clip _ _ _).trans (.trans (tellState rfl rfl) (clearPath _)))

theorem enterGroup (m : Machine α) : Draws env (.part b) m m.enterGroup := by
  have opaqueFill (k : Machine α) : Draws env (.part b) k
      (if k.state.fill.opacity != 1 then
        (k.tell (.setGroupOpacity k.state.fill.opacity)).modifyState fun s =>
          { s with fill := { s.fill with opacity := 1 } }
      else k) :=
    .branch (fun _ => .trans (.tell (.of_none _ rfl rfl)) (modifyState rfl id)) (fun _ => .refl k)
  unfold Machine.enterGroup
  exact .trans (modifyState rfl id) ((opaqueFill _).trans (modifyState rfl id))

theorem useForm (use : FormUse α) (m : Machine α) : Draws env (.part b) m (m.useForm use) := by
  unfold Machine.useForm
  split
  · exact .refl m
  · exact tellState rfl rfl
  · exact .mask _ m

section

variable {inner : Inner α} (hinner : ∀ items m, Draws env .content m (inner items m))
include hinner

/-- What is drawn of a form once its level is placed: its content, with the form as the space of patterns. -/
theorem drawContent (f : Form α) (m : Machine α) : Draws env (.part true) m
    { Machine.runNested env inner f.content { m with baseMatrix := m.state.ctm } with baseMatrix := m.baseMatrix } :=
  .base _ (runNested hinner _ _)

/-- **A form is a level of its own** under its resources; what it is used for comes after that. -/
theorem drawForm_level (f : Form α) (use : FormUse α) (m : Machine α) :
    ∃ n, Draws env .fresh ({ m with nesting := m.nesting + 1 }.pushResources f.resources).save n ∧
      m.drawForm env inner f use =
        { n.restoreState.popResources.useForm use with
          nesting := (n.restoreState.popResources.useForm use).nesting - 1 } := by
  refine ⟨_, ?_, congrArg (fun m : Machine α => { m with nesting := m.nesting - 1 }) (leaveForm_eq use _)⟩
  cases use with
  | plain => exact .start (clearPath _) (.place f.matrix ((clipBounds f.bounds _).trans (drawContent hinner f _)))
  | group g | softMask g =>
    refine .start (.trans (clearPath _) (clearMask _)) (.transparency g ?_)
    exact .place f.matrix ((clipBounds f.bounds _).trans ((enterGroup _).trans (drawContent hinner f _)))

theorem drawForm (f : Form α) (use : FormUse α) (m : Machine α) :
    Draws env (.part b) m (m.drawForm env inner f use) := by
  obtain ⟨n, h, hn⟩ := drawForm_level hinner f use m
  rw [hn]
  exact .nesting (.trans (.resources f.resources (.level h)) (useForm use _))

theorem drawFormStream (s : Stream) (m : Machine α) :
    Draws env (.part b) m (m.drawFormStream env inner s) := by
  unfold Machine.drawFormStream
  refine .branch (fun _ => .refl m) (fun _ => ?_)
  split
  · exact .report _ m
  · exact withChecked _ m fun use => drawForm hinner _ use m

theorem drawObject (name : Name) (m : Machine α) : Draws env (.part b) m (m.drawObject env inner name) := by
  unfold Machine.drawObject
  split
  · rename_i hr
    refine (requireResource hr).trans ?_
    split
    · exact .branch (fun _ => drawImage _ false _)
        (fun _ => .branch (fun _ => drawFormStream hinner _ _) (fun _ => .refl _))
    · exact .refl _
  · exact requireResource (by assumption)

/-! ## Parameters -/

theorem drawSoftMask (source : MaskSource) (m : Machine α) :
    Draws env (.part b) m (m.drawSoftMask env inner source) := by
  unfold Machine.drawSoftMask
  refine .branch (fun _ => .refl m) (fun _ => ?_)
  split
  · exact .report _ m
  · exact drawForm hinner _ _ m

theorem setSoftMask (o : Object) (m : Machine α) : Draws env (.part b) m (m.setSoftMask env inner o) := by
  unfold Machine.setSoftMask
  split
  · exact .branch (fun _ => .unmask m) (fun _ => .report _ m)
  · split
    · exact drawSoftMask hinner _ m
    · exact .report _ m
  · exact .report _ m

omit hinner

theorem modifyWith {β : Type} (v : Option β) {f : State α → β → State α} (m : Machine α)
    (h : ∀ s x, (f s x).basis = s.basis) (ho : ∀ s x, (f s x).outline = s.outline) :
    Draws env (.part b) m (m.modifyWith v f) := by
  cases v with
  | none => exact .refl m
  | some x => exact .restyle (f m.state x) (h _ x) fun restorable => by rw [ho]; exact restorable

theorem setDashes (st : Store) (d : Dict) (m : Machine α) : Draws env (.part b) m (m.setDashes st d) := by
  unfold Machine.setDashes
  split
  · exact .refl m
  split
  · exact .refl m
  · exact .trans (modifyState rfl id) (modifyWith _ _ (fun _ _ => rfl) fun _ _ => rfl)

theorem setFontParameter (d : Dict) (m : Machine α) : Draws env (.part b) m (m.setFontParameter env d) := by
  unfold Machine.setFontParameter
  split
  · split
    · exact (loadFont _ m).trans (.font _ _ _)
    · exact .refl m
  · exact .refl m

theorem setTransfer (st : Store) (o : Object) (m : Machine α) : Draws env (.part b) m (m.setTransfer st o) := by
  unfold Machine.setTransfer
  split
  · exact modifyState rfl id
  · exact .report _ m

theorem setBlendMode (st : Store) (o : Object) (m : Machine α) : Draws env (.part b) m (m.setBlendMode st o) := by
  unfold Machine.setBlendMode
  split
  · exact modifyState rfl id
  · exact .report _ m

theorem setParameter (d : Dict) (m : Machine α) (entry : Name × Object) :
    Draws env (.part b) m (m.setParameter env d entry) := by
  obtain ⟨key, o⟩ := entry
  unfold Machine.setParameter
  dsimp only
  -- one branch for each key; most set a single field
  repeat' first
    | exact modifyWith _ m (fun _ _ => rfl) fun _ _ => rfl
    | exact setDashes _ d m
    | exact setFontParameter d m
    | exact setBlendMode _ o m
    | exact setTransfer _ o m
    | exact .refl m
    | refine .branch (fun _ => ?_) (fun _ => ?_)

include hinner

theorem setParameters (name : Name) (m : Machine α) :
    Draws env (.part b) m (m.setParameters env inner name) := by
  unfold Machine.setParameters
  split
  · exact requireResource (by assumption)
  · rename_i d _ hr
    refine (requireResource hr).trans ((foldl (setParameter d) d.entries _).trans (.trans ?_ (updateStyle _)))
    split
    · exact setSoftMask hinner _ _
    · exact .refl _
  · rename_i hr
    exact (requireResource hr).trans (.report _ _)

end

end Draws

end PdfContent
