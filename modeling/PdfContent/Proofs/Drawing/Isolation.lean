import PdfContent.Proofs.Drawing.Session
/-!
# Isolation — forms, soft masks, glyphs and tilings do not leak

Whatever their content does, the machine is afterwards as it was before: saved states and clips, resources, the space of
patterns, the floors and the counts of nesting.  Of the graphics state only the path may differ, and the soft mask once
one was drawn.
-/
namespace PdfContent

/-- By itself a form is never drawn as a soft mask. -/
theorem Form.useOf_cases {α : Type} [Scalar α] (st : Store) (f : Form α) :
    Yields (fun use => use = .plain ∨ ∃ g, use = .group g) (f.useOf st) := by
  unfold Form.useOf
  split
  · exact .branch (.map fun _ => .inr ⟨_, rfl⟩) (.pure (.inl rfl))
  · exact .pure (.inl rfl)

namespace Machine

variable {α : Type}

/-- Nothing but the graphics state, the log and what is only told or counted may differ. -/
structure Isolated (m n : Machine α) : Prop where
  saved : n.saved = m.saved
  clips : n.clips = m.clips
  resources : n.resources = m.resources
  baseMatrix : n.baseMatrix = m.baseMatrix
  restoreFloor : n.restoreFloor = m.restoreFloor
  baseDepth : n.baseDepth = m.baseDepth
  nesting : n.nesting = m.nesting
  glyphDepth : n.glyphDepth = m.glyphDepth

namespace Isolated

theorem refl (m : Machine α) : Isolated m m := ⟨rfl, rfl, rfl, rfl, rfl, rfl, rfl, rfl⟩

variable [Scalar α] {env : Environment α} {m : Machine α} {inner : Inner α}

/-- A level of its own gives back the state it was saved with, under the path of the content. -/
theorem level {n : Machine α} (hm : m.resources ≠ []) (h : Draws env .fresh m.save n) :
    Isolated m n.restoreState ∧ ∃ outline, n.restoreState.state = { m.state with outline } := by
  obtain ⟨hf, hs, hc⟩ := h.frames hm
  rw [restoreState_of_save hs hc]
  exact ⟨⟨rfl, rfl, congrArg Surroundings.resources hf, congrArg Surroundings.baseMatrix hf,
    congrArg Surroundings.restoreFloor hf, congrArg Surroundings.baseDepth hf, congrArg Surroundings.nesting hf,
    congrArg Surroundings.glyphDepth hf⟩, _, rfl⟩

variable (hinner : ∀ items m, Draws env .content m (inner items m))
include hinner

theorem drawGlyph (hm : m.resources ≠ []) (f : Font) (code : Nat) (pen : Point α) :
    Isolated m (m.drawGlyph env inner f code pen) ∧
      ∃ outline, (m.drawGlyph env inner f code pen).state = { m.state with outline } := by
  obtain h | ⟨n, h, hn⟩ := Draws.drawGlyph_level hinner f code pen m
  · rw [h]
    exact ⟨refl m, m.state.outline, rfl⟩
  · rw [hn]
    exact level hm h

theorem drawForm (hm : m.resources ≠ []) (f : Form α) (use : FormUse α) :
    Isolated m (m.drawForm env inner f use) ∧ ∃ outline, (m.drawForm env inner f use).state =
      match use with
      | .plain | .group _ => { m.state with outline }
      | .softMask _ mask => { m.state with outline, softMask := some mask } := by
  obtain ⟨n, h, hn⟩ := Draws.drawForm_level hinner f use m
  obtain ⟨hf, hs, hc⟩ := h.frames (List.cons_ne_nil _ _)
  have left := restoreState_of_save hs hc
  have dropped : n.restoreState.popResources = { n.restoreState with resources := m.resources } :=
    popResources_of_push (m := { m with nesting := m.nesting + 1 }) hm ((restoreState_around n).trans hf)
  rw [hn, dropped, left]
  refine ⟨?_, .ofPath n.state.path, ?_⟩
  · cases use <;> exact ⟨rfl, rfl, rfl, congrArg Surroundings.baseMatrix hf, congrArg Surroundings.restoreFloor hf,
      congrArg Surroundings.baseDepth hf, congrArg (fun f => f.nesting - 1) hf, congrArg Surroundings.glyphDepth hf⟩
  · cases use <;> rfl

theorem drawFormStream (hm : m.resources ≠ []) (s : Stream) :
    Isolated m (m.drawFormStream env inner s) ∧
      ∃ outline, (m.drawFormStream env inner s).state = { m.state with outline } := by
  unfold Machine.drawFormStream
  split
  · exact ⟨refl m, m.state.outline, rfl⟩
  split
  · exact ⟨⟨rfl, rfl, rfl, rfl, rfl, rfl, rfl, rfl⟩, m.state.outline, rfl⟩
  rename_i f _
  cases uses : f.useOf env.store with
  | error p => exact ⟨⟨rfl, rfl, rfl, rfl, rfl, rfl, rfl, rfl⟩, m.state.outline, rfl⟩
  | ok use =>
    obtain ⟨hi, outline, hs⟩ := drawForm hinner hm f use
    refine ⟨hi, outline, hs.trans ?_⟩
    obtain rfl | ⟨g, rfl⟩ := Form.useOf_cases env.store f use uses <;> rfl

theorem drawSoftMask (hm : m.resources ≠ []) (source : MaskSource) :
    Isolated m (m.drawSoftMask env inner source) ∧ ∃ outline softMask,
      (m.drawSoftMask env inner source).state = { m.state with outline, softMask } := by
  unfold Machine.drawSoftMask
  split
  · exact ⟨refl m, m.state.outline, m.state.softMask, rfl⟩
  split
  · exact ⟨⟨rfl, rfl, rfl, rfl, rfl, rfl, rfl, rfl⟩, m.state.outline, m.state.softMask, rfl⟩
  · obtain ⟨hi, outline, hs⟩ := drawForm hinner hm _ _
    exact ⟨hi, outline, _, hs⟩

omit hinner in
theorem tilingPaint (t : Tiling α) (part : Part) :
    Isolated m (m.tilingPaint env inner t part).2 ∧ (m.tilingPaint env inner t part).2.state = m.state := by
  unfold Machine.tilingPaint
  split
  · exact ⟨refl m, rfl⟩
  · exact ⟨⟨rfl, rfl, rfl, rfl, rfl, rfl, rfl, rfl⟩, rfl⟩

end Isolated

/-- **Nested content does not leak**: after a form, a soft mask, a glyph or a tiling, whatever its content and however
deep more content nests in it, the machine is as it was, and the graphics state differs at most in the path and in a
soft mask that was drawn.  It only takes resources, which the machine has before every operator of a session. -/
theorem nested_isolated [Scalar α] (env : Environment α) (level : Nat) (m : Machine α) (hm : m.resources ≠ []) :
    (∀ s, Isolated m (m.drawFormStream env (run env level) s) ∧
      ∃ outline, (m.drawFormStream env (run env level) s).state = { m.state with outline }) ∧
    (∀ source, Isolated m (m.drawSoftMask env (run env level) source) ∧ ∃ outline softMask,
      (m.drawSoftMask env (run env level) source).state = { m.state with outline, softMask }) ∧
    (∀ f code pen, Isolated m (m.drawGlyph env (run env level) f code pen) ∧
      ∃ outline, (m.drawGlyph env (run env level) f code pen).state = { m.state with outline }) ∧
    (∀ t part, Isolated m (m.tilingPaint env (run env level) t part).2 ∧
      (m.tilingPaint env (run env level) t part).2.state = m.state) ∧
    ∀ origin requests e, (session env origin requests).executed e → e.before.resources ≠ [] := by
  have hinner : ∀ is m, Draws env .content m (run env level is m) := Draws.run level
  refine ⟨?_, ?_, ?_, ?_, ?_⟩
  · exact Isolated.drawFormStream hinner hm
  · exact Isolated.drawSoftMask hinner hm
  · exact Isolated.drawGlyph hinner hm
  · exact Isolated.tilingPaint
  · exact fun origin requests e he => ((session_sound env origin requests).2 e he).1.resources

/-- A form whose content restores twice and saves once. -/
theorem unbalanced_form_isolated :
    let env : Environment Float := ⟨.empty, .silent, true, .default⟩
    let page : Machine Float := start env [] .empty .identity
    let bounds : Dict := .ofList [(.ofText "BBox", .array (List.replicate 4 (.num (.int 0))))]
    page.resources ≠ [] ∧ Isolated page (page.drawFormStream env (run env levels) ⟨bounds, Bytes.ofText "Q Q q"⟩) :=
  ⟨List.cons_ne_nil _ _, ((nested_isolated _ levels _ (List.cons_ne_nil _ _)).1 _).1⟩

end Machine

end PdfContent
