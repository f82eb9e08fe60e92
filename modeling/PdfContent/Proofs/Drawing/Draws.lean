import PdfContent.Drawing.Page
import PdfContent.Proofs.Geometry.Outline
/-!
# Draws — what a stretch of a drawing can do to a machine

`Draws env span m n` lists, move by move, all that can lead from the machine `m` to the machine `n` in a stretch of the
given kind.  That every operator and all content keep to these moves is shown once (`Draws.run`); what holds along every
drawing is then an induction on `Draws`, which never looks into an operator again.
-/
namespace PdfContent

namespace Call

variable {α : Type}

def state? : Call α → Option (State α)
  | addPath s .. | clip s _ | setClipPath s _ | updateStyle s | beginText s | endText s | updateFont s
  | updateTextMatrix s | updateTextShift s _ | beginString s _ | addChar s _ | endString s | addImageMask s ..
  | addImage s .. | addMaskedImage s .. | addSoftMaskedImage s .. | pushTransparencyGroup s _ | popTransparencyGroup s
  | paintTransparencyGroup s _ | setSoftMask s _ | clearSoftMask s => some s
  | documentSize .. | save | restore | pushGroup | setTransform _ | addGradient .. | addShadedFill .. | pushTiling ..
  | popTiling | updateTextPosition _ | setGroupOpacity _ => none

/-- Whether a call opens nothing, closes nothing, places no group, tells no font, shows no character and sets no
mask. -/
def isPlain : Call α → Bool
  | save | restore | pushGroup | setTransform _ | pushTiling .. | popTiling | beginString .. | endString _
  | pushTransparencyGroup .. | popTransparencyGroup _ | updateFont _ | addChar .. | setSoftMask .. => false
  | _ => true

/-- A plain call that comes with no other state than the given one. -/
structure Plain (s : State α) (c : Call α) : Prop where
  plain : c.isPlain = true
  state : ∀ t ∈ c.state?, t = s

theorem Plain.of_some {s : State α} {c : Call α} (h : c.isPlain = true) (hs : c.state? = some s) : c.Plain s :=
  ⟨h, fun t ht => by rw [hs] at ht; exact (Option.some.inj ht).symm⟩

theorem Plain.of_none (s : State α) {c : Call α} (h : c.isPlain = true) (hs : c.state? = none) : c.Plain s :=
  ⟨h, fun t ht => by rw [hs] at ht; cases ht⟩

end Call

def TextState.face {α : Type} (t : TextState α) : Option Font × α := (t.font, t.size)

/-- What a state keeps unless a move says otherwise: the coordinate system, the font with its size, and the soft
mask. -/
def State.basis {α : Type} (s : State α) : Affine α × (Option Font × α) × Option (SoftMask α) :=
  (s.ctm, s.text.face, s.softMask)

/-- The kinds of stretches of a drawing. -/
inductive Span where
  /-- Inside of an operator.  Unless it `moves`, the coordinate system is the same in the end. -/
  | part (moves : Bool)
  /-- Inside of an operator, on a level that was just saved, before it gets a transform. -/
  | fresh
  | operator (o : Operation)
  /-- Any number of commands, one after the other. -/
  | content

open Machine in
/-- **What can happen in a stretch of a drawing.** -/
inductive Draws {α : Type} [Scalar α] (env : Environment α) : Span → Machine α → Machine α → Prop where
  | refl {b} (m) : Draws env (.part b) m m
  | trans {b m n k} : Draws env (.part b) m n → Draws env (.part b) n k → Draws env (.part b) m k
  | report {b} (d m) : Draws env (.part b) m (m.report d)
  | tell {b c m} (h : c.Plain m.state) : Draws env (.part b) m (m.tell c)
  /-- The path may change as well, but its current point stays where its steps end. -/
  | restyle {b m} (s) (h : s.basis = m.state.basis) (ho : m.state.outline.Restorable → s.outline.Restorable) :
      Draws env (.part b) m { m with state := s }
  | clip {b} (path rule m) : Draws env (.part b) m { m with clips := m.clips.set path rule }
  | note {b} (pendingClip compatibility markedContent m) :
      Draws env (.part b) m { m with pendingClip, compatibility, markedContent }
  | font {b} (font size m) : Draws env (.part b) m (m.useFont font size)
  | announce {b} (m) : Draws env (.part b) m { m.tellState .updateFont with fontChanged := false }
  /-- A character in a font that did not change since the builder was told one. -/
  | char {b m} (p) (hf : m.state.text.font ≠ none) (hc : m.fontChanged = false) :
      Draws env (.part b) m (m.tellState (.addChar · p))
  | mask {b} (k m) : Draws env (.part b) m
      ((m.tellState (.setSoftMask · k)).modifyState fun s => { s with softMask := some k })
  | unmask {b} (m) :
      Draws env (.part b) m ((m.modifyState fun s => { s with softMask := none }).tellState .clearSoftMask)
  | resources {b m n} (d) : Draws env (.part b) (m.pushResources d) n → Draws env (.part b) m n.popResources
  | string {b m n} (s) :
      Draws env (.part b) (m.tellState (.beginString · s)) n → Draws env (.part b) m (n.tellState .endString)
  | nesting {b m n} : Draws env (.part b) { m with nesting := m.nesting + 1 } n →
      Draws env (.part b) m { n with nesting := n.nesting - 1 }
  /-- The cell of a tiling, drawn by a machine of its own. -/
  | tiling {b m n} (told t part seed) : Draws env .content (cellOf env t seed (m.tell (.pushTiling told part))) n →
      Draws env (.part b) m
        ({ m with log := (n.restoreTo 0).log, executed := (n.restoreTo 0).executed }.tell .popTiling)
  /-- A level of its own. -/
  | level {b m n} : Draws env .fresh m.save n → Draws env (.part b) m n.restoreState
  | start {m n k} : Draws env (.part false) m n → Draws env .fresh n k → Draws env .fresh m k
  | place {m n} (t) : Draws env (.part true) ((m.multiply t).setTransform t) n → Draws env .fresh m n
  | unplaced {m n} : Draws env (.part true) m n → Draws env .fresh m n
  | transparency {m n} (g) :
      Draws env .fresh (m.tellState (.pushTransparencyGroup · g)) n →
        Draws env .fresh m (n.tellState .popTransparencyGroup)
  | group (t m) : Draws env (.part true) m (((m.multiply t).tell .pushGroup).setTransform t)
  | glyph {m n} : Draws env (.part true) { m with glyphDepth := m.glyphDepth + 1 } n →
      Draws env (.part true) m { n with glyphDepth := n.glyphDepth - 1 }
  | base {m n} (t) : Draws env (.part true) { m with baseMatrix := t } n →
      Draws env (.part true) m { n with baseMatrix := m.baseMatrix }
  | nested {m n} : Draws env .content { m with restoreFloor := m.saved.length } n →
      Draws env (.part true) m { n.restoreTo m.saved.length with restoreFloor := m.restoreFloor }
  | effect {m n} (o) : Draws env (.part false) m n → Draws env (.operator o) m n
  | save (m) : Draws env (.operator .save) m m.save
  | restore (m) : Draws env (.operator .restore) m m.restore
  | concat (t m) : Draws env (.operator .concat) m (m.concat env t)
  /-- A gradient that is placed without the transform of the group. -/
  | shade {m n k} : Draws env (.part false) m n → Draws env (.part false) (n.tell (.setTransform .identity)) k →
      Draws env (.operator .shade) m k
  | nothing (m) : Draws env .content m m
  | fault {m n} (d) : Draws env .content m n → Draws env .content m (n.report d)
  | perform {m n k} (op : Operator) : Draws env .content m n →
      Draws env (.operator op.operation) { n with history := n.history.push op.name } k →
      Draws env .content m (k.record ⟨op, n.toMoment, k.toMoment⟩)

end PdfContent
