import PdfContent.Proofs.Drawing.Inks
import PdfContent.Proofs.Drawing.Session
/-!
# Colors — every color of a page fits its space

Each operator keeps the inks fitting (`Colored.execute`), content does because its operators do, and nested content
because content one level further down does (`Colored.run`).  The cell of a tiling is a drawing of its own: it may start
with a color that does not fit, but it leaves the page as it was.
-/
namespace PdfContent

/-! ## The operands of device colors -/

def Operation.deviceSpace? : Operation → Option DeviceSpace
  | deviceColor _ space => some space
  | _ => none

namespace Operator

theorem device_arity : ∀ op ∈ all, ∀ space ∈ op.operation.deviceSpace?, op.arity = .exact space.space.components := by
  decide

end Operator

variable {α : Type} [Scalar α]

namespace Machine

variable {env : Environment α} {st : Store} {k : Nat} {m n : Machine α}

/-- Content that keeps the inks fitting, under any number of tilings. -/
def KeepsColors (env : Environment α) (inner : Inner α) : Prop :=
  ∀ k items m, m.Colored env.store k → (inner items m).Colored env.store k

namespace Colored

/-! ## Text and images -/

theorem withSome {β : Type} {f : β → Machine α → Machine α} (v : Option β) (h : m.Colored st k)
    (hf : ∀ x, (f x m).Colored st k) : (m.withSome v f).Colored st k := by
  cases v with
  | none => exact h
  | some x => exact hf x

theorem concat (t : Affine α) (h : m.Colored st k) : (m.concat env t).Colored st k := by
  have moved : (m.multiply t).Colored st k := h
  unfold Machine.concat
  dsimp only
  split
  · exact moved.tell rfl
  split
  · exact moved.tell rfl
  · exact (moved.tell rfl).tell rfl

theorem popResources (h : m.Colored st k) : m.popResources.Colored st k := by
  obtain ⟨_, hp⟩ := popResources_eq m
  rw [hp]
  exact h

theorem beginText (h : m.Colored st k) : m.beginText.Colored st k := by
  have started : (m.modifyText fun t => { t with matrix := .identity }.moveTo .origin).Colored st k := h
  exact (started.tell rfl).tell rfl

theorem loadFont (o : Object) (h : m.Colored st k) : (m.loadFont env o).2.Colored st k := by
  unfold Machine.loadFont
  split
  · exact h
  split
  · exact h
  · exact h.report _

theorem setFont (name : Name) (size : α) (h : m.Colored st k) : (m.setFont env name size).Colored st k := by
  unfold Machine.setFont
  split
  · exact h.report _
  · exact h.loadFont _

theorem setTextMode (mode : Int) (h : m.Colored st k) : (m.setTextMode mode).Colored st k := by
  unfold Machine.setTextMode
  split
  · exact tell (m := m.modifyText _) h rfl
  · exact h

theorem setScaling (percent : α) (h : m.Colored st k) : (m.setScaling percent).Colored st k :=
  tell (m := m.modifyText _) h rfl

theorem moveLine (d : Point α) (h : m.Colored st k) : (m.moveLine d).Colored st k :=
  tell (m := m.modifyText _) h rfl

theorem nextLine (h : m.Colored st k) : m.nextLine.Colored st k := h.moveLine _

theorem setTextMatrix (t : Affine α) (h : m.Colored st k) : (m.setTextMatrix t).Colored st k :=
  tell (tell (m := m.modifyText _) h rfl) rfl

theorem announceFont (h : m.Colored st k) : m.announceFont.Colored st k := branch (h.tell rfl) h

theorem adjust (adjustment : Float) (h : m.Colored st k) : (m.adjust adjustment).Colored st k :=
  tell (m := m.modifyText _) h rfl

theorem concatNested (t : Affine α) (h : m.Colored st k) : (m.concatNested t).Colored st k :=
  tell (tell (m := m.multiply t) h rfl) rfl

omit [Scalar α] in
/-- The call for an image paints no path. -/
theorem imageCall_colorless (m : Machine α) (s : Stream) (inline_ : Bool) :
    Yields (·.isColorless = true) (m.imageCall env s inline_) := by
  have soft (image : ImageData) (map : ColorMap) (s : Stream) :
      Yields (·.isColorless = true) (m.softMasked env image map s) := by
    unfold Machine.softMasked
    refine .bind fun _ => .bind fun _ => ?_
    split
    · exact .bind fun _ => .pure rfl
    · exact .throw _
  have stencil (image : ImageData) (map : ColorMap) (s : Stream) :
      Yields (·.isColorless = true) (m.masked env image map s) :=
    .branch (.bind fun _ => .bind fun _ => .pure rfl) (.bind fun _ => .pure rfl)
  refine .bind fun image => .branch ?_ (.bind fun space => .bind fun map => ?_)
  · exact .branch (.bind fun _ => .pure rfl) (.pure rfl)
  · split
    · exact .branch (.throw _) (soft image map _)
    · exact .bind fun _ => .pure rfl
    · exact .branch (.throw _) (stencil image map _)
    · exact .pure rfl

theorem drawImage (s : Stream) (inline_ : Bool) (h : m.Colored st k) : (m.drawImage env s inline_).Colored st k := by
  unfold Machine.drawImage
  split
  · rename_i hc
    exact h.tell (imageCall_colorless m s inline_ _ hc)
  · exact h.report _

theorem drawInline (source : Content.ImageSource) (h : m.Colored st k) : (m.drawInline env source).Colored st k := by
  have reported : (m.reportAll source.faults).Colored st k := h.reportAll _
  unfold Machine.drawInline
  dsimp only
  split
  · exact reported.drawImage _ true
  · exact reported

/-! ## Parameters -/

theorem modifyWith {β : Type} {f : State α → β → State α} (v : Option β) (h : m.Colored st k)
    (hf : ∀ x, (m.modifyState (f · x)).Colored st k) : (m.modifyWith v f).Colored st k := by
  cases v with
  | none => exact h
  | some x => exact hf x

theorem setDashes (store : Store) (d : Dict) (h : m.Colored st k) : (m.setDashes store d).Colored st k := by
  unfold Machine.setDashes
  split
  · exact h
  split
  · exact h
  · exact modifyWith (m := m.modifyState _) _ h fun _ => h

theorem setFontParameter (d : Dict) (h : m.Colored st k) : (m.setFontParameter env d).Colored st k := by
  unfold Machine.setFontParameter
  split
  · split
    · exact h.loadFont _
    · exact h
  · exact h

theorem setTransfer (store : Store) (o : Object) (h : m.Colored st k) : (m.setTransfer store o).Colored st k := by
  unfold Machine.setTransfer
  split
  · exact h
  · exact h.report _

theorem setBlendMode (store : Store) (o : Object) (h : m.Colored st k) : (m.setBlendMode store o).Colored st k := by
  unfold Machine.setBlendMode
  split
  · exact h
  · exact h.report _

theorem setOverprint (d : Dict) (overprint : Option Bool) (h : m.Colored st k) :
    (m.setOverprint d overprint).Colored st k := by
  refine modifyWith _ h fun x => ⟨h.told, fun hk => ⟨?_, (h.inks hk).2⟩, h.saved⟩
  dsimp only [Machine.modifyState]
  split
  · exact (h.inks hk).1
  · exact (h.inks hk).1

theorem setParameter (d : Dict) (entry : Name × Object) (h : m.Colored st k) :
    (m.setParameter env d entry).Colored st k := by
  obtain ⟨key, o⟩ := entry
  unfold Machine.setParameter
  dsimp only
  -- one branch for each key; none of them sets a color
  repeat' first
    | exact modifyWith _ h fun _ => h
    | exact h.setDashes _ d
    | exact h.setFontParameter d
    | exact h.setBlendMode _ o
    | exact h.setTransfer _ o
    | exact h.setOverprint d _
    | exact h
    | refine branch ?_ ?_

/-! ## Paints -/

section

variable {inner : Inner α} (hinner : KeepsColors env inner)
include hinner

theorem runNested (s : Stream) (h : m.Colored env.store k) : (m.runNested env inner s).Colored env.store k :=
  restoreTo _ (hinner k _ { m with restoreFloor := m.saved.length } h)

omit hinner in
/-- The cell of a tiling may start with any color. -/
theorem cellOf (told t : Tiling α) (part : Part) (seed : Option (ColorSpace × Color)) (h : m.Told st k) :
    ((m.tell (.pushTiling told part)).cellOf env t seed).Colored st (k + 1) := by
  refine ⟨⟨?_, ?_, ?_⟩, nofun, nofun⟩
  · rw [cellOf_log]
    exact congrArg (· + 1) h.tilings
  · rw [cellOf_log]
    exact ⟨fun _ => trivial, h.painted⟩
  · rw [cellOf_executed]
    exact h.executed

/-- The cell of a tiling leaves the page as it was. -/
theorem tilingPaint (t : Tiling α) (part : Part) (h : m.Colored env.store k) :
    (m.tilingPaint env inner t part).2.Colored env.store k := by
  unfold Machine.tilingPaint
  split
  · exact h
  dsimp only
  generalize (if t.uncolored then (m.state.ink part).space.under?.map fun under => (under, (m.state.ink part).color)
    else none) = seed
  have cell : ((m.tell (.pushTiling { t with matrix := m.patternTransform t.matrix } part)).cellOf env t seed).Colored
      env.store (k + 1) := cellOf _ t part seed h.told
  have drawn := restoreTo 0 (hinner (k + 1) (contentOf env.store t.content) _ cell)
  -- of the machine of the cell only the log goes on
  refine ⟨⟨?_, ⟨fun _ => trivial, drawn.told.painted⟩, drawn.told.executed⟩, h.inks, h.saved⟩
  exact congrArg (· - 1) drawn.told.tilings

omit hinner in
theorem gradientPaint (s : Shading α) (matrix : Affine α) (h : m.Colored st k) :
    (m.gradientPaint env s matrix).2.Colored st k := by
  unfold Machine.gradientPaint
  split
  · exact h.report _
  · exact h.tell rfl

theorem paintOf (part : Part) (h : m.Colored env.store k) : (m.paintOf env inner part).2.Colored env.store k := by
  unfold Machine.paintOf
  dsimp only
  split
  · exact h
  split
  · exact h
  · exact h.gradientPaint _ _
  · exact h.tilingPaint hinner _ part

omit hinner in
theorem paintOf_state (env : Environment α) (inner : Inner α) (part : Part) (m : Machine α) :
    (m.paintOf env inner part).2.state = m.state := by
  unfold Machine.paintOf Machine.gradientPaint Machine.tilingPaint
  dsimp only
  repeat' split
  all_goals rfl

omit hinner in
theorem paintOf_paints (inner : Inner α) (part : Part) (h : (m.state.ink part).Fits st) :
    (m.state.ink part).Paints Ink.Complete (m.paintOf env inner part).1 := by
  unfold Machine.paintOf
  dsimp only
  split
  case isTrue hp => exact (h.complete (by simpa using hp)).paints
  case isFalse =>
    intro rgb opacity hp
    split at hp
    · cases hp
    · unfold Machine.gradientPaint at hp
      split at hp
      · cases hp
      · obtain ⟨_, _, hp⟩ := Option.map_eq_some_iff.mp hp
        cases hp
    · unfold Machine.tilingPaint at hp
      split at hp <;> cases hp

/-! ## Paths -/

omit hinner in
theorem unsupported {part : Part} {p : Pattern α} (h : m.Colored st k) (hp : m.unsupported? env part = some p)
    (hk : k = 0) : ∃ o, Pattern.ofObject st o = .ok p := by
  unfold unsupported? at hp
  dsimp only at hp
  split at hp
  · exact ((h.ink hk part).2 p (Option.filter_eq_some_iff.mp hp).1).2
  · cases hp

theorem paintPart {approximated : Option (Pattern α)} (part : Part) (evenOdd : Bool) (h : m.Colored env.store k)
    (hp : ∀ p, approximated = some p → k = 0 → ∃ o, Pattern.ofObject env.store o = .ok p) :
    (m.paintPart env inner part approximated evenOdd).Colored env.store k := by
  unfold Machine.paintPart
  split
  · exact h.approximatePattern part evenOdd (hp _ rfl)
  · have told := h.paintOf hinner part
    dsimp only
    refine branch told ?_
    have paints (hk : k = 0) : ((m.paintOf env inner part).2.state.ink part).Paints Ink.Complete
        (m.paintOf env inner part).1 := by
      rw [paintOf_state]
      exact paintOf_paints inner part (h.ink hk part)
    cases part with
    | fill => exact told.addPath fun hk => ⟨(paints hk).mono fun _ => .inl, nofun⟩
    | stroke => exact told.addPath fun hk => ⟨nofun, paints hk⟩

theorem paintIf (part : Part) (wanted : Bool) (h : m.Colored env.store k) :
    (if wanted then m.paintOf env inner part else (none, m)).2.Colored env.store k ∧
      (if wanted then m.paintOf env inner part else (none, m)).2.state = m.state ∧
      (k = 0 → (m.state.ink part).Paints Ink.Complete (if wanted then m.paintOf env inner part else (none, m)).1) := by
  cases wanted with
  | false => exact ⟨h, rfl, fun _ => nofun⟩
  | true => exact ⟨h.paintOf hinner part, paintOf_state env inner part m,
      fun hk => paintOf_paints inner part (h.ink hk part)⟩

theorem paintBoth (how : PathPainting) (h : m.Colored env.store k) :
    (m.paintBoth env inner how).Colored env.store k := by
  obtain ⟨filled, same, fill⟩ := h.paintIf hinner .fill how.fill
  obtain ⟨stroked, same', stroke⟩ := filled.paintIf hinner .stroke how.stroke
  unfold Machine.paintBoth
  refine branch (stroked.addPath fun hk => ?_) stroked
  rw [same', same]
  rw [same] at stroke
  exact ⟨(fill hk).mono fun _ => .inl, stroke hk⟩

theorem paintCurrent (how : PathPainting) (h : m.Colored env.store k) :
    (m.paintCurrent env inner how).Colored env.store k := by
  have one (part : Part) (wanted : Bool) (n : Machine α) (hn : n.Colored env.store k) :
      (if wanted then n.paintPart env inner part (if wanted then m.unsupported? env part else none) how.evenOdd
        else n).Colored env.store k := by
    cases wanted with
    | false => exact hn
    | true => exact hn.paintPart hinner part how.evenOdd fun p hp => h.unsupported hp
  unfold Machine.paintCurrent
  exact branch (h.paintBoth hinner how) (one .stroke how.stroke _ (one .fill how.fill m h))

omit hinner in
theorem endPath (h : m.Colored st k) : m.endPath.Colored st k := by
  have ended {n : Machine α} (hn : n.Colored st k) :
      ({ n.clearPath with pendingClip := none } : Machine α).Colored st k := hn
  unfold Machine.endPath
  refine ended ?_
  cases m.pendingClip with
  | none => exact h
  | some rule =>
    dsimp only
    split
    · exact h.tell rfl
    · exact h

theorem paintPath (how : PathPainting) (h : m.Colored env.store k) :
    (m.paintPath env inner how).Colored env.store k := by
  have closed : (if how.close then m.setOutline (m.state.outline.close?.getD m.state.outline) else m).Colored
      env.store k := branch h h
  exact branch (h.report _) (branch (closed.paintCurrent hinner how) closed).endPath

omit hinner in
theorem extend (label : String) (f : Outline α → Option (Outline α)) (h : m.Colored st k) :
    (m.extend label f).Colored st k := by
  unfold Machine.extend
  split
  · exact h
  · exact h.report _

/-! ## Forms -/

omit hinner in
theorem enterForm (f : Form α) (use : FormUse α) (h : m.Colored st k) : (m.enterForm f use).Colored st k := by
  have saved : (m.pushResources f.resources).save.clearPath.Colored st k := save (m := m.pushResources f.resources) h
  have grouped (g : TransparencyGroup α) := (saved.tellState (c := .clearSoftMask) rfl).tellState
    (c := (.pushTransparencyGroup · g)) rfl
  cases use with
  | plain => exact tell (tell (m := Machine.multiply f.matrix _) saved rfl) rfl
  | group g | softMask g => exact tell (tell (m := Machine.multiply f.matrix _) (grouped g) rfl) rfl

omit hinner in
theorem enterGroup (h : m.Colored st k) : m.enterGroup.Colored st k := by
  have normal : (m.modifyState fun s => { s with blendMode := .normal }).Colored st k := h
  unfold Machine.enterGroup
  dsimp only
  generalize m.modifyState (fun s => { s with blendMode := .normal }) = n at normal ⊢
  split
  · exact normal.tell rfl
  · exact normal

omit hinner in
theorem leaveForm (use : FormUse α) (h : m.Colored st k) : (m.leaveForm use).Colored st k := by
  have closed : (if use.group?.isSome then m.tellState .popTransparencyGroup else m).Colored st k :=
    branch (h.tell rfl) h
  rw [leaveForm_eq]
  cases use with
  | plain => exact closed.restoreState.popResources
  | group g => exact closed.restoreState.popResources.tell rfl
  | softMask g mask => exact closed.restoreState.popResources.tell rfl

theorem drawForm (f : Form α) (use : FormUse α) (h : m.Colored env.store k) :
    (m.drawForm env inner f use).Colored env.store k := by
  have entered : (Machine.enterForm f use { m with nesting := m.nesting + 1 }).Colored env.store k := enterForm f use h
  unfold Machine.drawForm
  dsimp only
  generalize Machine.enterForm f use { m with nesting := m.nesting + 1 } = n at entered ⊢
  have grouped := branch (c := use.group?.isSome) entered.enterGroup entered
  generalize (if use.group?.isSome then n.enterGroup else n) = g at grouped ⊢
  have ran : (Machine.runNested env inner f.content { g with baseMatrix := g.state.ctm }).Colored env.store k :=
    runNested hinner f.content grouped
  generalize Machine.runNested env inner f.content { g with baseMatrix := g.state.ctm } = r at ran ⊢
  exact leaveForm (m := { r with baseMatrix := g.baseMatrix }) use ran

theorem drawFormStream (s : Stream) (h : m.Colored env.store k) :
    (m.drawFormStream env inner s).Colored env.store k := by
  unfold Machine.drawFormStream
  split
  · exact h
  split
  · exact h.report _
  · exact h.withChecked fun use _ => h.drawForm hinner _ use

theorem drawObject (name : Name) (h : m.Colored env.store k) : (m.drawObject env inner name).Colored env.store k := by
  unfold Machine.drawObject
  split
  · rename_i hr
    have found := h.reported (requireResource_cases hr)
    split
    · exact branch (found.drawImage _ false) (branch (found.drawFormStream hinner _) found)
    · exact found
  · rename_i hr
    exact h.reported (requireResource_cases hr)

theorem drawSoftMask (source : MaskSource) (h : m.Colored env.store k) :
    (m.drawSoftMask env inner source).Colored env.store k := by
  unfold Machine.drawSoftMask
  split
  · exact h
  split
  · exact h.report _
  · exact h.drawForm hinner _ _

theorem setSoftMask (o : Object) (h : m.Colored env.store k) : (m.setSoftMask env inner o).Colored env.store k := by
  unfold Machine.setSoftMask
  split
  · exact branch (tell (m := m.modifyState _) h rfl) (h.report _)
  · split
    · exact h.drawSoftMask hinner _
    · exact h.report _
  · exact h.report _

theorem setParameters (name : Name) (h : m.Colored env.store k) :
    (m.setParameters env inner name).Colored env.store k := by
  unfold Machine.setParameters
  split
  · rename_i hr
    exact h.reported (requireResource_cases hr)
  · rename_i d _ hr
    have found := h.reported (requireResource_cases hr)
    have set : (d.entries.foldl (Machine.setParameter env d) _).Colored env.store k :=
      foldl (fun _ entry h => h.setParameter d entry) d.entries found
    refine tell ?_ rfl
    split
    · exact set.setSoftMask hinner _
    · exact set
  · rename_i hr
    exact (h.reported (requireResource_cases hr)).report _

/-! ## Showing text -/

theorem drawGlyph (f : Font) (code : Nat) (pen : Point α) (h : m.Colored env.store k) :
    (m.drawGlyph env inner f code pen).Colored env.store k := by
  have drawn (content : Stream) (n : Machine α) (hn : n.Colored env.store k) :
      (let g := Machine.runNested env inner content { n with glyphDepth := n.glyphDepth + 1 }
      ({ g with glyphDepth := g.glyphDepth - 1 } : Machine α).popResources.restoreState).Colored env.store k := by
    have ran : (Machine.runNested env inner content { n with glyphDepth := n.glyphDepth + 1 }).Colored env.store k :=
      runNested hinner content hn
    generalize Machine.runNested env inner content { n with glyphDepth := n.glyphDepth + 1 } = g at ran ⊢
    exact restoreState (popResources (m := { g with glyphDepth := g.glyphDepth - 1 }) ran)
  unfold Machine.drawGlyph
  split
  · exact h
  split
  · exact h
  · rename_i content _
    have placed := h.save.concatNested (m.state.ctm.inverse.mul (glyphMatrix m.state f pen))
    exact branch h (drawn content (Machine.pushResources (f.resources?.getD .empty) _) placed)

theorem showChar (f : Font) (size : α) (rise : Point α) (c : FontChar) (h : m.Colored env.store k) :
    (m.showChar env inner f size rise c).Colored env.store k := by
  unfold Machine.showChar
  dsimp only
  exact branch (n := m.tellState _) (h.drawGlyph hinner f c.code _) (h.tell rfl)

theorem showString (s : Bytes) (h : m.Colored env.store k) : (m.showString env inner s).Colored env.store k := by
  unfold Machine.showString
  split
  · exact h
  · have begun : (m.tellState (.beginString · s)).Colored env.store k := h.tellState rfl
    exact tell (takeAll_keeps _ begun (fun _ hn c _ => hn.showChar hinner _ _ _ c) fun _ d hn => hn.report d) rfl

theorem showText (op : String) {prepare : Machine α → Machine α} (s : Bytes) (h : m.Colored env.store k)
    (hp : ∀ n, n.Colored env.store k → (prepare n).Colored env.store k) :
    (m.showText env inner op prepare s).Colored env.store k :=
  branch (h.report _) (showString hinner s (hp _ h.announceFont))

theorem showElement (o : Object) (h : m.Colored env.store k) : (m.showElement env inner o).Colored env.store k := by
  unfold Machine.showElement
  split
  · exact h.adjust _
  · exact h.showString hinner _
  · exact h

theorem showAdjusted (op : String) (items : List Object) (h : m.Colored env.store k) :
    (m.showAdjusted env inner op items).Colored env.store k :=
  branch (h.report _) (foldl (fun _ o h => h.showElement hinner o) items h.announceFont)

/-! ## Operators and content -/

/-- The operands of a device color are as many as its space has components. -/
theorem executeState {op : Operator} {a : Operands} (h : m.Colored env.store k)
    (ha : ∀ space ∈ op.operation.deviceSpace?, a.items.length = space.space.components) :
    (m.executeState env inner op a).Colored env.store k := by
  unfold Machine.executeState
  split
  case h_1 => exact h.save
  case h_2 => exact h.restore
  case h_3 => exact h.concat _
  case h_4 | h_5 | h_6 | h_7 => exact tell (m := m.modifyState _) h rfl
  case h_8 =>
    refine tell (m := m.modifyState _) ⟨h.told, fun hk => ?_, h.saved⟩ rfl
    dsimp only [modifyState]
    split <;> exact h.inks hk
  case h_9 => exact h.withSome _ fun _ => h
  case h_10 => exact h
  case h_11 => exact h.withSome _ fun n => h.setParameters hinner n
  case h_12 part space ho =>
    exact h.select_color part ((List.length_map _).trans (ha space (by rw [ho]; rfl)))
  case h_13 part _ => exact h.withSome _ fun n => h.setColorSpace env part n
  case h_14 => exact h.setColor _ _ _
  case h_15 => exact h.setColorOrPattern _ _ _
  case h_16 => exact h

theorem executePath (op : Operator) (a : Operands) (h : m.Colored env.store k) :
    (m.executePath env inner op a).Colored env.store k := by
  unfold Machine.executePath
  split
  case h_1 | h_7 | h_11 | h_12 => exact h
  case h_2 | h_3 | h_4 | h_5 | h_6 => exact h.extend _ _
  case h_8 => exact h.endPath
  case h_9 => exact h.paintPath hinner _
  case h_10 => exact h.withSome _ fun n => h.shade n

theorem executeText (op : Operator) (a : Operands) (h : m.Colored env.store k) :
    (m.executeText env inner op a).Colored env.store k := by
  unfold Machine.executeText
  split
  case h_1 => exact h.beginText
  case h_2 => exact h.tell rfl
  case h_3 | h_4 | h_6 | h_9 | h_18 => exact h
  case h_5 => exact h.setScaling _
  case h_7 => exact h.withSome _ fun n => h.setFont n _
  case h_8 => exact h.withSome _ fun mode => h.setTextMode mode
  case h_10 => exact h.moveLine _
  case h_11 => exact moveLine (m := m.modifyText _) _ h
  case h_12 => exact h.setTextMatrix _
  case h_13 => exact h.nextLine
  case h_14 => exact h.withSome _ fun s => h.showText hinner _ s fun _ h => h
  case h_15 => exact h.withSome _ fun s => h.showText hinner _ s fun _ h => h.nextLine
  case h_16 => exact h.withSome _ fun s => h.showText hinner _ s fun n h => nextLine (m := n.modifyText _) h
  case h_17 => exact h.withSome _ fun items => h.showAdjusted hinner _ items

theorem executeObject (op : Operator) (a : Operands) (image : Option Content.ImageSource)
    (h : m.Colored env.store k) : (m.executeObject env inner op a image).Colored env.store k := by
  unfold Machine.executeObject
  split
  case h_1 => exact h.withSome _ fun n => h.drawObject hinner n
  case h_2 => exact h.withSome _ fun source => h.drawInline source
  case h_3 => exact h.report _
  case h_4 | h_5 | h_6 | h_8 => exact h
  case h_7 => exact branch (h.report _) h

/-- **Every operator keeps the inks fitting**, whatever nests in it. -/
theorem execute {op : Operator} {a : Operands} (image : Option Content.ImageSource) (h : m.Colored env.store k)
    (ha : ∀ space ∈ op.operation.deviceSpace?, a.items.length = space.space.components) :
    (m.execute env inner op a image).Colored env.store k := by
  unfold Machine.execute
  split
  all_goals first
    | exact h.executeState hinner ha
    | exact h.executePath hinner op a
    | exact h.executeText hinner op a
    | exact h.executeObject hinner op a image

theorem perform {op : Operator} {taken : List Object} (image : Option Content.ImageSource)
    (h : m.Colored env.store k)
    (ha : ∀ space ∈ op.operation.deviceSpace?, taken.length = space.space.components) :
    (m.perform env inner op taken image).Colored env.store k := by
  have done := execute hinner (m := { m with history := m.history.push op.name }) image h (a := ⟨taken⟩) ha
  -- the operator itself counts among the executed ones, and those that ran in it are known from `done`
  refine ⟨⟨done.told.tilings, done.told.painted, fun e he ho => ?_⟩, done.inks, done.saved⟩
  rcases he with rfl | he
  · have outside : k = 0 := h.told.tilings.symm.trans ho
    exact ⟨h.inks outside, done.inks outside⟩
  · exact done.told.executed e he ho

theorem command (name : Bytes) (operands : List Object) (image : Option Content.ImageSource)
    (h : m.Colored env.store k) : (m.command env inner name operands image).Colored env.store k := by
  unfold Machine.command
  split
  · exact branch (h.report _) h
  · rename_i op found
    obtain ⟨row, -⟩ := Operator.find?_eq_some_iff.mp found
    split
    · exact h.report _
    · rename_i taken selected
      exact h.perform hinner image fun space hs =>
        Operator.length_of_select selected (Operator.device_arity op row space hs)

theorem item (x : List Object × Machine α) (i : Content.Item) (h : x.2.Colored env.store k) :
    (Machine.item env inner x i).2.Colored env.store k := by
  cases i with
  | operand o stop =>
    unfold Machine.item
    dsimp only
    split
    · exact h
    · exact h.report _
  | command name image => exact h.command hinner name _ image
  | panic p => exact h.report _

theorem content (is : List Content.Item) (h : m.Colored env.store k) :
    (m.content env inner is).Colored env.store k := by
  have drawn : (is.foldl (Machine.item env inner) ([], m)).2.Colored env.store k :=
    List.foldlRecOn (motive := fun x => x.2.Colored env.store k) is _ h fun x hx i _ => item hinner x i hx
  exact branch drawn (drawn.report _)

end

/-- **All content keeps the inks fitting**, on however many levels. -/
theorem run (env : Environment α) : ∀ depth, KeepsColors env (Machine.run env depth)
  | 0, _, _, _, h => h
  | depth + 1, _, items, _, h => h.content (run env depth) items

/-! ## Pages -/

theorem start (env : Environment α) (resources : Dict) (ctm : Affine α) :
    (Machine.start env [] resources ctm).Colored st 0 := by
  have black : (Ink.black : Ink α).Fits st := ⟨fun _ => rfl, fun _ h => by cases h⟩
  exact ⟨⟨rfl, trivial, fun _ he => he.elim⟩, fun _ => ⟨black, black⟩, fun _ => List.forall_mem_nil _⟩

theorem crop (width height : α) (r : Rect α) (h : m.Colored st k) : (m.crop width height r).Colored st k :=
  branch h (tell (m := m.addRect r) h rfl)

theorem startPage (env : Environment α) (p : PageParams α) : (Machine.startPage env p).Colored st 0 := by
  have level : (pageLevel env p).Colored st 0 := tell (save (tell (start env _ _) rfl)) rfl
  unfold Machine.startPage
  cases hc : p.crop with
  | none => exact level
  | some r => exact level.crop _ _ r

theorem serve (r : Request) (h : m.Colored env.store k) : (m.serve env r).Colored env.store k := by
  cases r with
  | content o =>
    show ((m.draw env o).toOption.getD m).Colored env.store k
    unfold draw
    cases contentBytes env.store o with
    | error e => exact h
    | ok data => exact run env levels k _ m h
  | precision type delta maxDepth => exact h

end Colored

/-- **The colors of a page fit their spaces.**  Whatever is drawn on a page, before and after every operator outside of
tilings, also of those in forms, soft masks and glyphs, the fill and the stroke fit.  Every flat paint of a path is
computed from a complete color, except that the cells of a shading have the values of its color function, complete or
not. -/
theorem page_colors_fit (env : Environment α) (p : PageParams α) (requests : List Request) :
    (session env (.page p) requests).state.Fits env.store ∧
      (∀ e, (session env (.page p) requests).executed e → openTilings e.before.log = 0 →
        e.before.state.Fits env.store ∧ e.after.state.Fits env.store) ∧
      ∀ later c earlier, (session env (.page p) requests).finish.log = later ++ .call c :: earlier →
        openTilings earlier = 0 → c.PaintsFlat env.store := by
  have colored : (session env (.page p) requests).Colored env.store 0 :=
    List.foldlRecOn requests (serve env) (Colored.startPage env p) fun _ h r _ => h.serve r
  have finished : (session env (.page p) requests).finish.Colored env.store 0 := colored.restoreTo 0
  exact ⟨colored.inks rfl, colored.told.executed,
    fun later c earlier hl => PaintedFlat.at_call later (hl ▸ finished.told.painted)⟩

end Machine

end PdfContent
