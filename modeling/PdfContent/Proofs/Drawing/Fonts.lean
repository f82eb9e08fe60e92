import Mathlib.Data.Nat.PSub
import PdfContent.Proofs.Content.Item
import PdfContent.Proofs.Drawing.Session
/-!
# Fonts — which font the builder knows when a character is shown

The font is told late: operators only note that it is to be told, and showing text tells it.  A restored state brings
its font back without a note, so the builder is left with the font of the level that was closed.  Up to there it is
always right: a character is in the font that was told last, as long as the level in which it was told is open
(`session_fonts`).
-/
namespace PdfContent

def Call.told {α : Type} : Call α → Option (State α) → Option (State α)
  | .updateFont s, _ => some s
  | _, t => t

/-- What a call does to the number of levels that are open inside of the one in which a font was told last. -/
def Call.since {α : Type} : Call α → Option Nat → Option Nat
  | .updateFont _, _ => some 0
  | .save, n | .pushTiling .., n => n.map (· + 1)
  | .restore, n | .popTiling, n => n.bind Nat.ppred
  | _, n => n

def toldFont {α : Type} : Log α → Option (State α)
  | [] => none
  | .report _ :: log => toldFont log
  | .call c :: log => c.told (toldFont log)

/-- How many levels are open inside of the one in which a font was told last, if that one is open itself. -/
def levelsSince {α : Type} : Log α → Option Nat
  | [] => none
  | .report _ :: log => levelsSince log
  | .call c :: log => c.since (levelsSince log)

/-- Before every character a font was told, and it is that of the character if the level in which it was told last is
still open. -/
def FontsTold {α : Type} : Log α → Prop
  | [] => True
  | .report _ :: log => FontsTold log
  | .call (.addChar s _) :: log =>
    (∃ t, toldFont log = some t ∧ ((levelsSince log).isSome → t.text.face = s.text.face)) ∧ FontsTold log
  | .call _ :: log => FontsTold log

/-- Whether a call has to do with neither fonts nor levels. -/
def Call.isAside {α : Type} : Call α → Bool
  | save | restore | pushTiling .. | popTiling | updateFont _ | addChar .. => false
  | _ => true

section

variable {α : Type} {c : Call α}

theorem Call.Plain.isAside {s : State α} (h : c.Plain s) : c.isAside = true := by
  obtain ⟨hp, -⟩ := h
  cases c <;> first | rfl | cases hp

theorem Call.told_aside (h : c.isAside = true) (t : Option (State α)) : c.told t = t := by
  cases c <;> first | rfl | cases h

theorem Call.since_aside (h : c.isAside = true) (n : Option Nat) : c.since n = n := by
  cases c <;> first | rfl | cases h

theorem FontsTold.at_char {s : State α} {p : Placement α} {earlier : Log α} :
    ∀ {log : Log α}, FontsTold log → .call (.addChar s p) :: earlier <:+ log →
      ∃ t, toldFont earlier = some t ∧ ((levelsSince earlier).isSome → t.text.face = s.text.face) := by
  intro log hl hc
  fun_induction FontsTold log with
  | case1 => cases List.suffix_nil.mp hc
  | case2 _ _ ih =>
    rcases List.suffix_cons_iff.mp hc with hc | hc
    · cases hc
    · exact ih hl hc
  | case3 _ _ _ ih =>
    rcases List.suffix_cons_iff.mp hc with hc | hc
    · cases hc
      exact hl.1
    · exact ih hl.2 hc
  | case4 _ _ other ih =>
    rcases List.suffix_cons_iff.mp hc with hc | hc
    · cases hc
      exact (other s p rfl).elim
    · exact ih hl hc

theorem FontsTold.aside {log : Log α} (h : c.isAside = true) (hl : FontsTold log) : FontsTold (.call c :: log) := by
  cases c <;> first | exact hl | cases h

end

/-! ## What is known of one state -/

/-- If a state with `k` levels above it has a font, the builder was told one, and it is the same unless the level in
which it was told is above the state or closed. -/
def Knows {α : Type} (log : Log α) (k : Nat) (x : Option Font × α) : Prop :=
  x.1 ≠ none → ∃ t, toldFont log = some t ∧ ∀ j, levelsSince log = some j → k ≤ j → t.text.face = x

namespace Knows

variable {α : Type} {log : Log α} {c : Call α} {k : Nat} {x : Option Font × α}

theorem of_none (hx : x.1 = none) : Knows log k x := fun h => absurd hx h

theorem aside (hc : c.isAside = true) (h : Knows log k x) : Knows (.call c :: log) k x := by
  unfold Knows
  rw [toldFont, levelsSince, c.told_aside hc, c.since_aside hc]
  exact h

theorem told {s : State α} (h : k = 0 → s.text.face = x) : Knows (.call (.updateFont s) :: log) k x :=
  -- no level is open above it yet, so only the state in effect can be meant
  fun _ => ⟨s, rfl, fun j hj hk => h (by cases hj; exact Nat.le_zero.mp hk)⟩

theorem opened {k' : Nat} (ht : ∀ t, c.told t = t) (hs : ∀ n, c.since n = n.map (· + 1))
    (hk : ∀ j, k' ≤ j + 1 → k ≤ j) (h : Knows log k x) : Knows (.call c :: log) k' x := by
  intro hx
  obtain ⟨t, hl, hj⟩ := h hx
  refine ⟨t, (ht _).trans hl, fun j hc hle => ?_⟩
  obtain ⟨i, hi, rfl⟩ := Option.map_eq_some_iff.mp ((hs _).symm.trans hc)
  exact hj i hi (hk i hle)

theorem closed (ht : ∀ t, c.told t = t) (hs : ∀ n, c.since n = n.bind Nat.ppred) (h : Knows log (k + 1) x) :
    Knows (.call c :: log) k x := by
  intro hx
  obtain ⟨t, hl, hj⟩ := h hx
  refine ⟨t, (ht _).trans hl, fun j hc hle => ?_⟩
  obtain ⟨i, hi, hp⟩ := Option.bind_eq_some_iff.mp ((hs _).symm.trans hc)
  obtain rfl := Nat.ppred_eq_some.mp hp
  exact hj (j + 1) hi (Nat.succ_le_succ hle)

end Knows

namespace Machine

variable {α : Type}

/-- The fonts of the state in effect and of the saved ones, from the inside out. -/
def faces (m : Machine α) : List (Option Font × α) := m.state.text.face :: m.saved.map (·.text.face)

/-- The builder knows the font of every state of the machine as long as no change is noted, and that of all states
`outer` of the machines that it interrupts, each with its distance from them. -/
structure Synced (outer : Nat → Option Font × α → Prop) (m : Machine α) : Prop where
  characters : FontsTold m.log
  own : m.fontChanged = false → ∀ k x, m.faces[k]? = some x → Knows m.log k x
  outer : ∀ i x, outer i x → Knows m.log (m.faces.length + i) x

/-- The states below those of a cell that the machine draws, as far as the builder knows their fonts. -/
def beneath (outer : Nat → Option Font × α → Prop) (m : Machine α) (k : Nat) (x : Option Font × α) : Prop :=
  m.fontChanged = false ∧ m.faces[k]? = some x ∨ ∃ i, k = m.faces.length + i ∧ outer i x

namespace Synced

variable {outer : Nat → Option Font × α → Prop} {m n : Machine α}

theorem of_same (h : Synced outer m) (hl : n.log = m.log) (hf : n.faces = m.faces)
    (hc : n.fontChanged = m.fontChanged) : Synced outer n where
  characters := hl ▸ h.characters
  own := by rw [hl, hf, hc]; exact h.own
  outer := by rw [hl, hf]; exact h.outer

theorem of_fontless (hl : FontsTold m.log) (hf : ∀ x ∈ m.faces, x.1 = none)
    (ho : ∀ i x, outer i x → Knows m.log (m.faces.length + i) x) : Synced outer m :=
  ⟨hl, fun _ _ x hx => .of_none (hf x (List.mem_of_getElem? hx)), ho⟩

theorem knows {k : Nat} {x : Option Font × α} (h : Synced outer m) (hx : m.beneath outer k x) : Knows m.log k x := by
  obtain ⟨hc, hx⟩ | ⟨i, rfl, hx⟩ := hx
  · exact h.own hc k x hx
  · exact h.outer i x hx

theorem report (d : Diagnostic) (h : Synced outer m) : Synced outer (m.report d) := ⟨h.characters, h.own, h.outer⟩

theorem tell {c : Call α} (hc : c.isAside = true) (h : Synced outer m) : Synced outer (m.tell c) where
  characters := h.characters.aside hc
  own hn k x hx := (h.own hn k x hx).aside hc
  outer i x hx := (h.outer i x hx).aside hc

theorem restyle {s : State α} (hs : s.text.face = m.state.text.face) (h : Synced outer m) :
    Synced outer { m with state := s } :=
  h.of_same rfl (List.cons_eq_cons.mpr ⟨hs, rfl⟩) rfl

theorem useFont (font : Option Font) (size : α) (h : Synced outer m) : Synced outer (m.useFont font size) :=
  ⟨h.characters, fun hn => (nomatch hn), h.outer⟩

theorem announce (h : Synced outer m) : Synced outer { m.tellState .updateFont with fontChanged := false } where
  characters := h.characters
  own _ k x hx := .told fun hk => by subst hk; exact Option.some.inj hx
  outer i x _ := .told fun hk => by cases (Nat.add_eq_zero_iff.mp hk).1

theorem char (p : Placement α) (hf : m.state.text.font ≠ none) (hc : m.fontChanged = false) (h : Synced outer m) :
    Synced outer (m.tellState (.addChar · p)) where
  characters := by
    obtain ⟨t, ht, hj⟩ := h.own hc 0 m.state.text.face rfl hf
    refine ⟨⟨t, ht, fun hs => ?_⟩, h.characters⟩
    obtain ⟨j, hs⟩ := Option.isSome_iff_exists.mp hs
    exact hj j hs (Nat.zero_le j)
  own := h.own
  outer := h.outer

theorem save (h : Synced outer m) : Synced outer m.save where
  characters := h.characters
  own hn
    | 0, x, hx => (h.own hn 0 x hx).opened (fun _ => rfl) (fun _ => rfl) fun j _ => Nat.zero_le j
    | k + 1, x, hx => (h.own hn k x hx).opened (fun _ => rfl) (fun _ => rfl) fun _ => Nat.le_of_succ_le_succ
  outer i x hx := by
    have ho : Knows m.save.log (m.faces.length + i + 1) x :=
      (h.outer i x hx).opened (fun _ => rfl) (fun _ => rfl) fun _ => Nat.le_of_succ_le_succ
    rwa [Nat.add_right_comm] at ho

variable [Scalar α]

theorem restoreState (h : Synced outer m) : Synced outer m.restoreState := by
  cases hs : m.saved with
  | nil =>
    unfold Machine.restoreState
    rw [hs]
    exact h
  | cons s saved =>
    have hf : m.faces = m.state.text.face :: s.text.face :: saved.map (·.text.face) := by
      rw [faces, hs, List.map_cons]
    rw [restoreState_cons hs]
    refine ⟨h.characters, fun hn k x hx => ?_, fun i x hx => ?_⟩
    · exact (h.own hn (k + 1) x (hf ▸ hx)).closed (fun _ => rfl) fun _ => rfl
    · have ho := h.outer i x hx
      rw [hf, List.length_cons, Nat.add_right_comm] at ho
      exact ho.closed (fun _ => rfl) fun _ => rfl

theorem restoreTo (depth : Nat) (h : Synced outer m) : Synced outer (m.restoreTo depth) :=
  restoreTo_preserves (fun _ h => h.restoreState) depth h

theorem restore (h : Synced outer m) : Synced outer m.restore := by
  unfold Machine.restore
  split
  · exact h.report _
  · exact h.restoreState

theorem multiply (t : Affine α) (h : Synced outer m) : Synced outer (m.multiply t) := h.restyle rfl

omit [Scalar α] in
theorem setTransform (t : Affine α) (h : Synced outer m) : Synced outer (m.setTransform t) :=
  (h.tell (c := .setTransform t) rfl).of_same rfl rfl rfl

theorem concat (env : Environment α) (t : Affine α) (h : Synced outer m) : Synced outer (m.concat env t) := by
  -- the change is noted without another font
  have noted {n : Machine α} (h : Synced outer n) : Synced outer { n with fontChanged := true } :=
    h.useFont n.state.text.font n.state.text.size
  unfold Machine.concat
  dsimp only
  split
  · exact noted ((h.multiply t).setTransform t)
  split
  · exact noted ((h.multiply t).setTransform _)
  · exact noted (((h.multiply t).tell rfl).setTransform t)

/-- The cell of a tiling has no font to begin with, and a level more than the machine that it interrupts. -/
theorem cell (env : Environment α) (t : Tiling α) (seed : Option (ColorSpace × Color)) (told : Tiling α) (part : Part)
    (h : Synced outer m) : Synced (m.beneath outer) (cellOf env t seed (m.tell (.pushTiling told part))) := by
  have hf : (cellOf env t seed (m.tell (.pushTiling told part))).faces = [(TextState.initial : TextState α).face] := by
    cases seed <;> rfl
  refine .of_fontless ?characters ?own fun k x hx => ?outer
  case characters => rw [cellOf_log]; exact h.characters
  case own => rw [hf]; exact fun x hx => List.mem_singleton.mp hx ▸ rfl
  case outer =>
    rw [cellOf_log, hf]
    exact (h.knows hx).opened (fun _ => rfl) (fun _ => rfl) (by rintro j hj; rw [List.length_singleton] at hj; omega)

omit [Scalar α] in
/-- Whatever the cell told is forgotten with its level. -/
theorem endCell (h : Synced (m.beneath outer) n) (hs : n.saved = []) :
    Synced outer ({ m with log := n.log, executed := n.executed }.tell .popTiling) := by
  have known {k : Nat} {x : Option Font × α} (hx : m.beneath outer k x) : Knows (.call .popTiling :: n.log) k x := by
    have hn := h.outer k x hx
    rw [faces, hs, List.map_nil, List.length_singleton, Nat.add_comm] at hn
    exact hn.closed (fun _ => rfl) fun _ => rfl
  exact ⟨h.characters, fun hc k x hx => known (.inl ⟨hc, hx⟩), fun i x hx => known (.inr ⟨i, rfl, hx⟩)⟩

end Synced

end Machine

namespace Draws

open Machine

variable {α : Type} [Scalar α] {env : Environment α} {p : Span} {m n : Machine α}

/-- **Every stretch of a drawing keeps the builder in step**, with the states of the machine at work and with those of
the machines that it interrupts. -/
theorem synced (h : Draws env p m n) : ∀ {outer}, Synced outer m → Synced outer n := by
  induction h with
  | refl | nothing => exact id
  | trans _ _ ih ih' | start _ _ ih ih' => exact fun hm => ih' (ih hm)
  | report d => exact .report d
  | tell hc => exact .tell hc.isAside
  | restyle s hs _ => exact .restyle (congrArg (·.2.1) hs)
  | clip | note => exact fun hm => hm.of_same rfl rfl rfl
  | font font size => exact .useFont font size
  | announce => exact .announce
  | char p hf hc => exact .char p hf hc
  | mask => exact fun hm => (hm.tell rfl).restyle rfl
  | unmask m => exact fun hm => .tell rfl (hm.restyle (s := { m.state with softMask := none }) rfl)
  | @resources _ _ n _ _ ih =>
    intro _ hm
    obtain ⟨_, hp⟩ := popResources_eq n
    rw [hp]
    exact (ih (hm.of_same rfl rfl rfl)).of_same rfl rfl rfl
  | string _ _ ih | transparency _ _ ih => exact fun hm => .tell rfl (ih (.tell rfl hm))
  | nesting _ ih | glyph _ ih | base _ _ ih => exact fun hm => (ih (hm.of_same rfl rfl rfl)).of_same rfl rfl rfl
  | @tiling _ m n told t part seed h ih =>
    intro _ hm
    have above := h.kept.2 _ _ (cellOf_above env t seed (m.tell (.pushTiling told part)))
    exact ((ih (hm.cell env t seed told part)).restoreTo 0).endCell above.restoreTo.1
  | level _ ih => exact fun hm => (ih hm.save).restoreState
  | place t _ ih => exact fun hm => ih ((hm.multiply t).setTransform t)
  | unplaced _ ih | effect _ _ ih => exact ih
  | group t => exact fun hm => ((hm.multiply t).tell rfl).setTransform t
  | nested _ ih => exact fun hm => ((ih (hm.of_same rfl rfl rfl)).restoreTo _).of_same rfl rfl rfl
  | save => exact .save
  | restore => exact .restore
  | concat t => exact .concat env t
  | shade _ _ ih ih' => exact fun hm => ih' (.tell rfl (ih hm))
  | fault d _ ih => exact fun hm => (ih hm).report d
  | perform _ _ _ ih ih' => exact fun hm => (ih' ((ih hm).of_same rfl rfl rfl)).of_same rfl rfl rfl

end Draws

namespace Machine

variable {α : Type} [Scalar α]

theorem pageLevel_synced (env : Environment α) (p : PageParams α) : Synced (fun _ _ => False) (pageLevel env p) := by
  refine .of_fontless trivial (fun x hx => ?_) fun _ _ h => h.elim
  have both : x ∈ List.replicate 2 (TextState.initial : TextState α).face := hx
  exact List.eq_of_mem_replicate both ▸ rfl

theorem opening_synced (env : Environment α) (origin : Origin α) : Synced (fun _ _ => False) (opening env origin) := by
  cases origin with
  | cell => exact .of_fontless trivial (fun x hx => List.mem_singleton.mp hx ▸ rfl) fun _ _ h => h.elim
  | page p =>
    obtain ⟨m, h, hp⟩ := startPage_draws env p
    rw [opening, hp]
    exact (h.synced (pageLevel_synced env p)).of_same rfl rfl rfl

/-- **A character is in the font that the builder was told last.**  Whatever is drawn, from the start of a page or a cell
to its end: before every character a font was told, and the one told last is that of the character, of the same size,
unless the level in which it was told has been closed. -/
theorem session_fonts (env : Environment α) (origin : Origin α) (requests : List Request) {s : State α} {p : Placement α}
    {earlier : Log α} (h : .call (.addChar s p) :: earlier <:+ (session env origin requests).finish.log) :
    ∃ t, toldFont earlier = some t ∧ ((levelsSince earlier).isSome → t.text.face = s.text.face) := by
  have synced : Synced (fun _ _ => False) (session env origin requests) :=
    session_induction (opening_synced env origin) (fun _ _ h hm => h.synced hm)
      (fun _ _ _ _ hm => hm.of_same rfl rfl rfl) requests
  exact (synced.restoreTo 0).characters.at_char h

def shownText : Bytes := Bytes.ofText "/F 9 Tf(A)Tj"

theorem items_shown (st : Store) : ∃ a b c : Thunk Nat, Content.items st shownText =
    [.operand (.name (.ofText "F")) a, .operand (.num (.int 9)) b, .command (Bytes.ofText "Tf") none,
      .operand (.str (Bytes.ofText "A")) c, .command (Bytes.ofText "Tj") none] := by
  have name : Content.next? shownText = some (.operand (.name (.ofText "F")), Bytes.ofText " 9 Tf(A)Tj") :=
    Content.next?_name rfl
  have size : Content.next? (Bytes.ofText " 9 Tf(A)Tj") = some (.operand (.num (.int 9)), Bytes.ofText " Tf(A)Tj") :=
    Content.next?_number rfl
  have select : Content.next? (Bytes.ofText " Tf(A)Tj") = some (.command (Bytes.ofText "Tf"), Bytes.ofText "(A)Tj") :=
    Content.next?_keyword rfl rfl
  have string : Content.next? (Bytes.ofText "(A)Tj") = some (.operand (.str (Bytes.ofText "A")), Bytes.ofText "Tj") :=
    Content.next?_string rfl
  have shown : Content.next? (Bytes.ofText "Tj") = some (.command (Bytes.ofText "Tj"), []) :=
    Content.next?_keyword rfl rfl
  unfold Content.items
  rw [Content.itemsFrom_operand name, Content.itemsFrom_operand size, Content.itemsFrom_command select rfl,
    Content.itemsFrom_operand string, Content.itemsFrom_command shown rfl, Content.itemsFrom_nil]
  exact ⟨_, _, _, rfl⟩

theorem shown_text_font :
    let font : Dict := .ofList [(.ofText "Subtype", .name (.ofText "Type1"))]
    let resources : Dict := .ofList [(.ofText "Font", .dict (.ofList [(.ofText "F", .dict font)]))]
    let env : Environment Float := ⟨.empty, .silent, true, .default⟩
    let m := session env (.cell resources ⟨0, 0, 0, 0⟩) [.content (.stream ⟨.empty, shownText⟩)]
    ∃ s p earlier, .call (.addChar s p) :: earlier <:+ m.finish.log ∧
      ∃ t, toldFont earlier = some t ∧ t.text.face = s.text.face := by
  intro font resources env m
  obtain ⟨a, b, c, items⟩ := items_shown env.store
  have drawn : m = run env levels _ (opening env (.cell resources ⟨0, 0, 0, 0⟩)) :=
    congrArg (run env levels · (opening env (.cell resources ⟨0, 0, 0, 0⟩))) items
  have log : ∃ s p t u v, m.finish.log =
      [.call (.endString u), .call (.addChar s p), .call (.beginString v (Bytes.ofText "A")), .call (.updateFont t)] := by
    rw [drawn]
    exact ⟨_, _, _, _, _, rfl⟩
  obtain ⟨s, p, t, u, v, hlog⟩ := log
  have suffix : .call (.addChar s p) :: [.call (.beginString v (Bytes.ofText "A")), .call (.updateFont t)] <:+
      m.finish.log := hlog ▸ List.suffix_cons _ _
  obtain ⟨t', ht, same⟩ := session_fonts env _ _ suffix
  exact ⟨s, p, _, suffix, t', ht, same rfl⟩

end Machine

end PdfContent
