import PdfContent.Proofs.Drawing.Session
/-!
# Begins — where a drawing begins nested content

Content is drawn with a way to draw the content nested in it.  It uses that way at three places only: for the content of
a form, of the cell of a tiling and of a glyph, each within its limit (`Begins`).  So two ways that agree there draw the
same (`Agree.content`).
-/
namespace PdfContent

structure Task (α : Type) where
  items : List Content.Item
  machine : Machine α

inductive Nest where
  /-- A form, drawn by itself or as a soft mask. -/
  | form
  | tiling
  | glyph
deriving DecidableEq

namespace Machine

variable {α : Type} [Scalar α]

/-! ## What a machine can begin -/

def formTask (env : Environment α) (f : Form α) (use : FormUse α) (m : Machine α) : Task α :=
  let m := enterForm f use { m with nesting := m.nesting + 1 }
  let m := if use.group?.isSome then m.enterGroup else m
  let m := { m with baseMatrix := m.state.ctm }
  ⟨contentOf env.store f.content, { m with restoreFloor := m.saved.length }⟩

def glyphTask (env : Environment α) (f : Font) (content : Stream) (pen : Point α) (m : Machine α) : Task α :=
  let t := m.state.ctm.inverse.mul (glyphMatrix m.state f pen)
  let m := (m.save.concatNested t).pushResources (f.resources?.getD .empty)
  let m := { m with glyphDepth := m.glyphDepth + 1 }
  ⟨contentOf env.store content, { m with restoreFloor := m.saved.length }⟩

def tilingTask (env : Environment α) (t : Tiling α) (seed : Option (ColorSpace × Color)) (m : Machine α) : Task α :=
  ⟨contentOf env.store t.content, m.cellOf env t seed⟩

/-- The contents that drawing can begin on a machine: those of forms, tilings and glyphs, up to the limits. -/
inductive Begins (env : Environment α) (m : Machine α) : Nest → Task α → Prop where
  | form (f use) (h : m.nesting ≤ maxContentNesting) : Begins env m .form (formTask env f use m)
  | tiling (t seed told part) (h : m.nesting ≤ maxContentNesting) :
      Begins env m .tiling (tilingTask env t seed (m.tell (.pushTiling told part)))
  | glyph (f content pen) (h : m.glyphDepth ≤ maxContentNesting) : Begins env m .glyph (glyphTask env f content pen m)

def AtDepth (nesting glyphs : Nat) (m : Machine α) : Prop := m.nesting = nesting ∧ m.glyphDepth = glyphs

variable {env : Environment α} {m : Machine α} {kind : Nest} {t : Task α}

theorem formTask_atDepth (f : Form α) (use : FormUse α) (m : Machine α) :
    AtDepth (m.nesting + 1) m.glyphDepth (formTask env f use m).machine := by
  have group (n : Machine α) : AtDepth n.nesting n.glyphDepth n.enterGroup := by
    unfold enterGroup
    dsimp only
    split <;> exact ⟨rfl, rfl⟩
  cases use with
  | plain => exact ⟨rfl, rfl⟩
  | group | softMask => exact group _

theorem tilingTask_atDepth (t : Tiling α) (seed : Option (ColorSpace × Color)) (m : Machine α) :
    AtDepth (m.nesting + 1) 0 (tilingTask env t seed m).machine := by
  cases seed <;> exact ⟨rfl, rfl⟩

/-- **What nested content counts**: a form and a tiling one level of nesting, a glyph one of glyphs, and a tiling begins
the glyphs anew. -/
theorem Begins.counts (h : Begins env m kind t) :
    (kind = .form ∧ m.nesting ≤ maxContentNesting ∧ AtDepth (m.nesting + 1) m.glyphDepth t.machine) ∨
      (kind = .tiling ∧ m.nesting ≤ maxContentNesting ∧ AtDepth (m.nesting + 1) 0 t.machine) ∨
      (kind = .glyph ∧ m.glyphDepth ≤ maxContentNesting ∧ AtDepth m.nesting (m.glyphDepth + 1) t.machine) := by
  cases h with
  | form f use h => exact .inl ⟨rfl, h, formTask_atDepth f use m⟩
  | tiling t seed told part h => exact .inr (.inl ⟨rfl, h, tilingTask_atDepth t seed _⟩)
  | glyph f content pen h => exact .inr (.inr ⟨rfl, h, rfl, rfl⟩)

end Machine

/-! ## Counts along a drawing -/

open Machine in
/-- **Every stretch of a drawing keeps the counts.** -/
theorem Draws.atDepth {α : Type} [Scalar α] {env : Environment α} {p : Span} {m n : Machine α} (h : Draws env p m n) :
    AtDepth m.nesting m.glyphDepth n := by
  have around {k l : Machine α} (h : l.around = k.around) : AtDepth k.nesting k.glyphDepth l :=
    ⟨congrArg Surroundings.nesting h, congrArg Surroundings.glyphDepth h⟩
  induction h with
  | refl | report | tell | restyle | clip | note | font | announce | char | mask | unmask | group | tiling | save
  | nothing => exact ⟨rfl, rfl⟩
  | trans _ _ ih ih' | start _ _ ih ih' | shade _ _ ih ih' | perform _ _ _ ih ih' =>
    exact ⟨ih'.1.trans ih.1, ih'.2.trans ih.2⟩
  | string _ _ ih | place _ _ ih | transparency _ _ ih | unplaced _ ih | base _ _ ih | effect _ _ ih | fault _ _ ih =>
    exact ih
  | @resources _ _ n _ _ ih =>
    obtain ⟨_, hp⟩ := popResources_eq n
    rw [hp]
    exact ih
  | nesting _ ih => exact ⟨by rw [ih.1, Nat.add_sub_cancel], ih.2⟩
  | glyph _ ih => exact ⟨ih.1, by rw [ih.2, Nat.add_sub_cancel]⟩
  | @level _ _ n _ ih =>
    have hr := around (restoreState_around n)
    exact ⟨hr.1.trans ih.1, hr.2.trans ih.2⟩
  | @nested m n _ ih =>
    have hr := around (restoreTo_around m.saved.length n)
    exact ⟨hr.1.trans ih.1, hr.2.trans ih.2⟩
  | restore m => exact around (restore_around m)
  | concat t m => exact around (concat_same env t m).1

theorem Machine.AtDepth.draws {α : Type} [Scalar α] {env : Environment α} {p : Span} {m n : Machine α} {a b : Nat}
    (hm : AtDepth a b m) (h : Draws env p m n) : AtDepth a b n :=
  ⟨h.atDepth.1.trans hm.1, h.atDepth.2.trans hm.2⟩

/-! ## Drawing depends on no other nested content -/

namespace Machine

variable {α : Type} [Scalar α] {env : Environment α} {inner inner' : Inner α} {a b : Nat} {m : Machine α}

/-- Two ways to draw nested content agree on all that machines with the given counts can begin. -/
structure Agree (env : Environment α) (a b : Nat) (inner inner' : Inner α) : Prop where
  draws : ∀ items m, Draws env .content m (inner items m)
  same : ∀ {m kind t}, AtDepth a b m → Begins env m kind t → inner t.items t.machine = inner' t.items t.machine

omit [Scalar α] in
theorem foldl_congr {β : Type} {f g : Machine α → β → Machine α} (h : ∀ m x, AtDepth a b m → f m x = g m x)
    (hf : ∀ m x, AtDepth a b m → AtDepth a b (f m x)) :
    ∀ (xs : List β) {m : Machine α}, AtDepth a b m → xs.foldl f m = xs.foldl g m
  | [], _, _ => rfl
  | x :: xs, m, hm => by
    rw [List.foldl_cons, List.foldl_cons, ← h m x hm]
    exact foldl_congr h hf xs (hf m x hm)

/-! ### Characters keep what moves keep, whatever font the builder knows -/

/-- What drawing keeps, and what any call to the builder keeps. -/
structure Lasting (env : Environment α) (p : Machine α → Prop) : Prop where
  draws : ∀ {m n}, Draws env (.part false) m n → p m → p n
  tell : ∀ c {m}, p m → p (m.tell c)

theorem AtDepth.lasting : Lasting env (AtDepth (α := α) a b) := ⟨fun h hm => AtDepth.draws hm h, fun _ _ hm => hm⟩

namespace Lasting

variable {p : Machine α → Prop} (h : Lasting env p) (hinner : ∀ items m, Draws env .content m (inner items m)) (hm : p m)
include h hinner hm

theorem showChar (f : Font) (size : α) (rise : Point α) (c : FontChar) : p (m.showChar env inner f size rise c) := by
  have moved {n : Machine α} (hn : p n) (d : Point α) : p (n.modifyText (·.shift d)) := h.draws (.modifyText n rfl) hn
  unfold Machine.showChar
  dsimp only
  split
  · exact moved (h.draws (.drawGlyph hinner f c.code _ m) hm) _
  · exact moved (h.tell _ hm) _

theorem showString (s : Bytes) : p (m.showString env inner s) := by
  unfold Machine.showString
  split
  · exact hm
  · refine h.tell _ (takeAll_keeps _ (h.tell _ hm) (fun _ hn c _ => h.showChar hinner hn _ _ _ c) fun n d hn => ?_)
    exact h.draws (.report d n) hn

theorem showElement (o : Object) : p (m.showElement env inner o) := by
  unfold Machine.showElement
  split
  · exact h.draws (.adjust _ m) hm
  · exact h.showString hinner hm _
  · exact hm

end Lasting

omit [Scalar α] in
theorem withSome_congr {β : Type} {f g : β → Machine α → Machine α} (v : Option β) (h : ∀ x, f x m = g x m) :
    m.withSome v f = m.withSome v g := by
  cases v with
  | none => rfl
  | some x => exact h x

omit [Scalar α] in
theorem withChecked_congr {β : Type} {f g : β → Machine α → Machine α} (v : Checked β) (h : ∀ x, f x m = g x m) :
    m.withChecked v f = m.withChecked v g := by
  cases v with
  | ok x => exact h x
  | error p => rfl

namespace Agree

variable (h : Agree env a b inner inner') (hm : AtDepth a b m)
include h hm

/-! ### The three places where content begins -/

theorem drawForm (f : Form α) (use : FormUse α) (hn : m.nesting ≤ maxContentNesting) :
    m.drawForm env inner f use = m.drawForm env inner' f use := by
  have same := h.same hm (.form f use hn)
  unfold Machine.drawForm runNested
  dsimp only [formTask] at same ⊢
  rw [same]

theorem drawGlyph (f : Font) (code : Nat) (pen : Point α) :
    m.drawGlyph env inner f code pen = m.drawGlyph env inner' f code pen := by
  unfold Machine.drawGlyph runNested
  split
  · rfl
  rename_i hn
  split
  · rfl
  rename_i content _
  have same := h.same hm (.glyph f content pen (Nat.not_lt.mp hn))
  dsimp only [glyphTask] at same ⊢
  rw [same]

theorem tilingPaint (t : Tiling α) (part : Part) :
    m.tilingPaint env inner t part = m.tilingPaint env inner' t part := by
  unfold Machine.tilingPaint
  split
  · rfl
  rename_i hn
  -- the cell is begun once the builder was told, on a machine with the color of the uncolored tiling
  let ink := m.state.ink part
  let seed := if t.uncolored then ink.space.under?.map fun under => (under, ink.color) else none
  let told := { t with matrix := m.patternTransform t.matrix }
  have same := h.same hm (.tiling t seed told part (Nat.not_lt.mp hn))
  have cell : (m.tell (.pushTiling told part)).runTiling env inner t seed =
      (m.tell (.pushTiling told part)).runTiling env inner' t seed := by
    unfold runTiling
    dsimp only [tilingTask] at same ⊢
    rw [same]
  exact congrArg (fun n : Machine α => (some _, n.tell .popTiling)) cell

/-! ### Paths -/

theorem paintOf (part : Part) : m.paintOf env inner part = m.paintOf env inner' part := by
  unfold Machine.paintOf
  simp only [h.tilingPaint hm]

theorem paintPart (part : Part) (approximated : Option (Pattern α)) (evenOdd : Bool) :
    m.paintPart env inner part approximated evenOdd = m.paintPart env inner' part approximated evenOdd := by
  unfold Machine.paintPart
  rw [h.paintOf hm]

theorem paintBoth (how : PathPainting) : m.paintBoth env inner how = m.paintBoth env inner' how := by
  have hn : AtDepth a b (if how.fill then m.paintOf env inner .fill else (none, m)).2 := by
    split
    · exact hm.draws (Draws.paintOf (b := false) h.draws .fill m)
    · exact hm
  unfold Machine.paintBoth
  rw [h.paintOf hm] at hn ⊢
  dsimp only
  rw [h.paintOf hn]

theorem paintCurrent (how : PathPainting) : m.paintCurrent env inner how = m.paintCurrent env inner' how := by
  let fill := if how.fill then m.unsupported? env .fill else none
  have hn : AtDepth a b (if how.fill then m.paintPart env inner .fill fill how.evenOdd else m) := by
    split
    · exact hm.draws (Draws.paintPart (b := false) h.draws .fill fill how.evenOdd m)
    · exact hm
  unfold Machine.paintCurrent
  rw [h.paintPart hm] at hn
  dsimp only
  rw [h.paintBoth hm, h.paintPart hm, h.paintPart hn]

theorem paintPath (how : PathPainting) : m.paintPath env inner how = m.paintPath env inner' how := by
  have hn : AtDepth a b (if how.close then m.setOutline (m.state.outline.close?.getD m.state.outline) else m) := by
    split <;> exact hm
  unfold Machine.paintPath
  dsimp only
  rw [h.paintCurrent hn]

theorem executePath (op : Operator) (args : Operands) :
    m.executePath env inner op args = m.executePath env inner' op args := by
  unfold Machine.executePath
  simp only [h.paintPath hm]

/-! ### Forms and soft masks -/

theorem drawFormStream (s : Stream) : m.drawFormStream env inner s = m.drawFormStream env inner' s := by
  unfold Machine.drawFormStream
  split
  · rfl
  rename_i hn
  simp only [withChecked_congr _ fun use => h.drawForm hm _ use (Nat.not_lt.mp hn)]

theorem drawObject (name : Name) : m.drawObject env inner name = m.drawObject env inner' name := by
  unfold Machine.drawObject
  split
  · rename_i hr
    simp only [h.drawFormStream (hm.draws (Draws.requireResource (b := false) hr))]
  · rfl

theorem executeObject (op : Operator) (args : Operands) (image : Option Content.ImageSource) :
    m.executeObject env inner op args image = m.executeObject env inner' op args image := by
  unfold Machine.executeObject
  rw [withSome_congr args.name? fun n => h.drawObject hm n]

theorem drawSoftMask (source : MaskSource) :
    m.drawSoftMask env inner source = m.drawSoftMask env inner' source := by
  unfold Machine.drawSoftMask
  split
  · rfl
  rename_i hn
  simp only [h.drawForm hm _ _ (Nat.not_lt.mp hn)]

theorem setSoftMask (o : Object) : m.setSoftMask env inner o = m.setSoftMask env inner' o := by
  unfold Machine.setSoftMask
  simp only [h.drawSoftMask hm]

theorem setParameters (name : Name) : m.setParameters env inner name = m.setParameters env inner' name := by
  unfold Machine.setParameters
  split
  · rfl
  · rename_i d n hr
    have found : AtDepth a b n := hm.draws (Draws.requireResource (b := false) hr)
    have hn : AtDepth a b (d.entries.foldl (setParameter env d) n) :=
      found.draws (Draws.foldl (b := false) (Draws.setParameter d) d.entries n)
    simp only [h.setSoftMask hn]
  · rfl

theorem executeState (op : Operator) (args : Operands) :
    m.executeState env inner op args = m.executeState env inner' op args := by
  unfold Machine.executeState
  rw [withSome_congr args.name? fun n => h.setParameters hm n]

/-! ### Text -/

theorem showChar (f : Font) (size : α) (rise : Point α) (c : FontChar) :
    m.showChar env inner f size rise c = m.showChar env inner' f size rise c := by
  unfold Machine.showChar
  simp only [h.drawGlyph hm]

theorem showString (s : Bytes) : m.showString env inner s = m.showString env inner' s := by
  unfold Machine.showString
  split
  · rfl
  rename_i f _
  dsimp only
  unfold takeAll
  rw [foldl_congr (fun _ c hm => h.showChar hm f _ _ c) (fun _ c hm => AtDepth.lasting.showChar h.draws hm f _ _ c)]
  exact hm

theorem showText (op : String) {prepare : Machine α → Machine α} (s : Bytes)
    (hp : ∀ m, Draws env (.part false) m (prepare m)) :
    m.showText env inner op prepare s = m.showText env inner' op prepare s := by
  have announced : Draws env (.part false) m m.announceFont := Draws.announceFont m
  unfold Machine.showText
  rw [h.showString ((hm.draws announced).draws (hp _))]

theorem showElement (o : Object) : m.showElement env inner o = m.showElement env inner' o := by
  unfold Machine.showElement
  simp only [h.showString hm]

theorem showAdjusted (op : String) (items : List Object) :
    m.showAdjusted env inner op items = m.showAdjusted env inner' op items := by
  have announced : Draws env (.part false) m m.announceFont := Draws.announceFont m
  unfold Machine.showAdjusted
  rw [foldl_congr (fun _ o hm => h.showElement hm o) (fun _ o hm => AtDepth.lasting.showElement h.draws hm o) items
    (hm.draws announced)]

theorem executeText (op : Operator) (args : Operands) :
    m.executeText env inner op args = m.executeText env inner' op args := by
  have shows (prepare : Machine α → Machine α) (hp : ∀ m, Draws env (.part false) m (prepare m)) :
      m.withSome args.string? (Machine.showText env inner op.name prepare) =
        m.withSome args.string? (Machine.showText env inner' op.name prepare) :=
    withSome_congr args.string? fun s => h.showText hm op.name s hp
  have spaced (n : Machine α) : Draws env (.part false) n
      ((n.modifyText fun t => { t with wordSpace := args.scalar 0, charSpace := args.scalar 1 }).nextLine) :=
    (Draws.modifyText n rfl).trans (Draws.nextLine _)
  unfold Machine.executeText
  rw [shows id .refl, shows nextLine Draws.nextLine, shows _ spaced,
    withSome_congr args.array? fun items => h.showAdjusted hm op.name items]

/-! ### Commands and content -/

theorem execute (op : Operator) (args : Operands) (image : Option Content.ImageSource) :
    m.execute env inner op args image = m.execute env inner' op args image := by
  unfold Machine.execute
  rw [h.executeState hm, h.executePath hm, h.executeText hm, h.executeObject hm]

theorem command (name : Bytes) (operands : List Object) (image : Option Content.ImageSource) :
    m.command env inner name operands image = m.command env inner' name operands image := by
  have perform (op : Operator) (taken : List Object) :
      m.perform env inner op taken image = m.perform env inner' op taken image := by
    have hn : AtDepth a b { m with history := m.history.push op.name } := hm
    unfold Machine.perform
    rw [h.execute hn]
  unfold Machine.command
  simp only [perform]

omit hm

theorem item (x : List Object × Machine α) (i : Content.Item) (hx : AtDepth a b x.2) :
    Machine.item env inner x i = Machine.item env inner' x i := by
  cases i with
  | operand o stop => rfl
  | command name image => exact congrArg (Prod.mk []) (h.command hx name x.1.reverse image)
  | panic p => rfl

theorem items (is : List Content.Item) (x : List Object × Machine α) (hx : AtDepth a b x.2) :
    is.foldl (Machine.item env inner) x = is.foldl (Machine.item env inner') x := by
  induction is generalizing x with
  | nil => rw [List.foldl_nil, List.foldl_nil]
  | cons i is ih =>
    rw [List.foldl_cons, List.foldl_cons, ← h.item x i hx]
    exact ih _ (hx.draws (Draws.item h.draws x i (.nothing x.2)))

include hm in
/-- **Content depends on nested content only where it begins it**: it is drawn alike in two ways that agree on all that
machines with its counts can begin. -/
theorem content (is : List Content.Item) : m.content env inner is = m.content env inner' is := by
  unfold Machine.content
  rw [h.items is ([], m) hm]

end Agree

end Machine

end PdfContent
