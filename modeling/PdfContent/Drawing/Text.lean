import PdfContent.Drawing.Machine
/-!
# Text — the operators that show text

Each character is told to the builder with the place of the pen before it.  Glyphs that are content are drawn in its
place instead, in a saved state of their own.
-/
namespace PdfContent.Machine

open Scalar

variable {α : Type} [Scalar α]

def beginText (m : Machine α) : Machine α :=
  let m := m.modifyText fun t => { t with matrix := .identity }.moveTo .origin
  { m.tell (.updateTextPosition .origin) with fontChanged := true }.tellState .beginText

def loadFont (env : Environment α) (o : Object) (m : Machine α) : Option Font × Machine α :=
  match (env.store.resolve o).dict? with
  | none => (none, m)
  | some d =>
    match Font.ofDict env.store d with
    | .ok f => (some f, m)
    | .error e => (none, m.report e)

def useFont (font : Option Font) (size : α) (m : Machine α) : Machine α :=
  { m.modifyText fun t => { t with font, size } with fontChanged := true }

def setFont (env : Environment α) (name : Name) (size : α) (m : Machine α) : Machine α :=
  match m.resource? env.store "Font" name with
  | none => (m.report (.missingResource "font" name.text)).useFont none size
  | some o => let (font, m) := m.loadFont env o; m.useFont font size

/-- Sets what becomes of glyphs.  A mode that does not exist is ignored. -/
def setTextMode (mode : Int) (m : Machine α) : Machine α :=
  match TextMode.ofInt? mode with
  | some mode => (m.modifyText fun t => { t with mode }).tellState .updateStyle
  | none => m

/-- Sets the horizontal scaling, which is given in percent. -/
def setScaling (percent : α) (m : Machine α) : Machine α :=
  let m := (m.modifyText fun t => { t with scaling := percent / ofInt 100 }).tellState .updateTextMatrix
  { m with fontChanged := true }

/-- Moves to the start of another line, by a distance from the current one. -/
def moveLine (d : Point α) (m : Machine α) : Machine α :=
  let p := m.state.text.line.add d
  (m.modifyText (·.moveTo p)).tell (.updateTextPosition p)

def nextLine (m : Machine α) : Machine α := m.moveLine ⟨zero, -m.state.text.leading⟩

def setTextMatrix (t : Affine α) (m : Machine α) : Machine α :=
  let m := (m.modifyText fun s => { s with matrix := t }.moveTo .origin).tellState .updateTextMatrix
  { m.tell (.updateTextPosition .origin) with fontChanged := true }

def announceFont (m : Machine α) : Machine α :=
  if m.fontChanged then { m.tellState .updateFont with fontChanged := false } else m

/-- The coordinate system of a glyph, relative to that of the page, with its origin at the pen. -/
def glyphMatrix (s : State α) (f : Font) (pen : Point α) : Affine α :=
  let t := s.text
  (((s.ctm.mul t.matrix).mul (.scaleNonUniform (t.size * t.scaling) t.size)).mul (f.matrix.map ofFloat)).withOrigin
    (s.ctm.apply pen)

def drawGlyph (env : Environment α) (inner : Inner α) (f : Font) (code : Nat) (pen : Point α) (m : Machine α) :
    Machine α :=
  if m.glyphDepth > maxContentNesting then m
  else
    match f.procedure? code with
    | none => m
    | some content =>
      let ctm := m.state.ctm
      if !ctm.isInvertible then m
      else
        let glyph := glyphMatrix m.state f pen
        let m := (m.save.concatNested (ctm.inverse.mul glyph)).pushResources (f.resources?.getD .empty)
        let m := runNested env inner content { m with glyphDepth := m.glyphDepth + 1 }
        { m with glyphDepth := m.glyphDepth - 1 }.popResources.restoreState

/-- Where a character is shown, and how far the pen moves.  `rise` is the text rise in user space. -/
def place (t : TextState α) (vertical : Bool) (size : α) (rise : Point α) (c : FontChar) : Placement α × Point α :=
  let wordSpace := if c.length == 1 && c.code == 0x20 then t.wordSpace else zero
  let dx := ofFloat c.dx * size
  let dy := ofFloat c.dy * size
  let (dx, dy) :=
    if vertical then (dx, dy + t.charSpace + wordSpace) else ((dx + t.charSpace + wordSpace) * t.scaling, dy)
  (⟨t.pen.add rise, dx, dy, t.delta (ofFloat c.originX * size) (ofFloat c.originY * size), c.code, c.length, c.text⟩,
    t.delta dx dy)

def showChar (env : Environment α) (inner : Inner α) (f : Font) (size : α) (rise : Point α) (m : Machine α)
    (c : FontChar) : Machine α :=
  let (placement, advance) := place m.state.text f.isVertical size rise c
  let m :=
    if f.type = .type3 && env.drawsGlyphs then m.drawGlyph env inner f c.code placement.pen
    else m.tellState (.addChar · placement)
  m.modifyText (·.shift advance)

def showString (env : Environment α) (inner : Inner α) (s : Bytes) (m : Machine α) : Machine α :=
  match m.state.text.font with
  | none => m
  | some f =>
    let t := m.state.text
    let m := m.tellState (.beginString · s)
    (m.takeAll (showChar env inner f t.size (t.delta zero t.rise)) (f.chars s)).tellState .endString

/-- The operators that show one string: `prepare` sets the spacing and the line.  Without a font they do nothing. -/
def showText (env : Environment α) (inner : Inner α) (op : String) (prepare : Machine α → Machine α) (s : Bytes)
    (m : Machine α) : Machine α :=
  if m.state.text.font.isNone then m.report (.noFont op)
  else (prepare m.announceFont).showString env inner s

/-- Moves the pen by an adjustment, in thousandths of the size of the font and against the direction of writing. -/
def adjust (adjustment : Float) (m : Machine α) : Machine α :=
  let t := m.state.text
  let shift := -ofFloat adjustment * ofFloat 0.001 * abs t.size
  let m := m.modifyText fun t => if t.isVertical then t.advance zero shift else t.advance shift zero
  m.tellState (.updateTextShift · adjustment)

def showElement (env : Environment α) (inner : Inner α) (m : Machine α) : Object → Machine α
  | .num n => m.adjust n.toFloat
  | .str s => m.showString env inner s
  | _ => m

def showAdjusted (env : Environment α) (inner : Inner α) (op : String) (items : List Object) (m : Machine α) :
    Machine α :=
  if m.state.text.font.isNone then m.report (.noFont op)
  else items.foldl (showElement env inner) m.announceFont

end PdfContent.Machine
