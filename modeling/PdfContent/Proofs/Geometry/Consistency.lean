import Mathlib.Data.List.Chain
import PdfContent.Proofs.Geometry.Outline
/-!
# Consistency — the path under construction after any operations

The steps of an outline say everything about it.  Whatever is done to it (`Reached`), they are in a normal form, the
current point is where they end (`Consistent`), and an outline that is put together again from them cannot be told apart
from it by anything that is done to both (`Alike`).  They need not be equal: where the last subpath of a path began is
left behind when the path is discarded, and is not looked at any more.
-/
namespace PdfContent

variable {α : Type}

namespace PathStep

def end? : PathStep α → Option (Point α)
  | .move p | .line p | .quad _ p | .curve _ _ p => some p
  | .close => none

def moved? : PathStep α → Option (Point α)
  | .move p => some p
  | _ => none

/-- What may follow a step: no move follows a move, and nothing else follows a close. -/
def Precedes (s t : PathStep α) : Prop := (s.isMove → ¬t.isMove) ∧ (s.isClose → t.isMove)

theorem precedes_move {s : PathStep α} (h : ¬s.isMove) (p : Point α) : s.Precedes (.move p) :=
  ⟨fun hs => absurd hs h, fun _ => rfl⟩

theorem precedes_segment {s t : PathStep α} (hs : ¬s.isClose) (ht : ¬t.isMove) : s.Precedes t :=
  ⟨fun _ => ht, fun h => absurd h hs⟩

end PathStep

namespace Path

def lastStart? (path : Path α) : Option (Point α) := path.reverse.findSome? PathStep.moved?

/-- Where a path ends: at the end of its last step, or where its last subpath begins if that step closes it. -/
def end? (path : Path α) : Option (Point α) :=
  match path.getLast? with
  | none => none
  | some .close => path.lastStart?
  | some s => s.end?

theorem lastStart?_concat (path : Path α) (s : PathStep α) :
    lastStart? (path ++ [s]) = s.moved?.or (lastStart? path) := by
  unfold lastStart?
  rw [List.reverse_append, List.reverse_singleton, List.singleton_append, List.findSome?_cons]
  cases s.moved? <;> rfl

theorem lastStart?_isSome {path : Path α} {s : PathStep α} (hs : s ∈ path) (hm : s.isMove) :
    path.lastStart?.isSome := by
  unfold lastStart?
  rw [List.findSome?_isSome_iff]
  refine ⟨s, List.mem_reverse.mpr hs, ?_⟩
  cases s <;> first | rfl | cases hm

end Path

namespace Outline

inductive Op (α : Type) where
  | move (p : Point α)
  | line (p : Point α)
  | curve (p₁ p₂ p : Point α)
  | close
  | rect (r : Rect α)
  /-- Puts another path in place of the path. -/
  | set (path : Path α)
  /-- Discards the path. -/
  | clear

/-- Discards the steps and the current point.  Where the last subpath began is left behind. -/
def clear (o : Outline α) : Outline α := { o with reversed := [], current := none }

/-- Outlines with the same steps and the same current point, of which a subpath that can go on began at the same
point. -/
structure Alike (o k : Outline α) : Prop where
  reversed : o.reversed = k.reversed
  current : o.current = k.current
  start : o.current.isSome → o.start = k.start

namespace Alike

variable {o k l : Outline α}

theorem refl (o : Outline α) : o.Alike o := ⟨rfl, rfl, fun _ => rfl⟩

theorem symm (h : o.Alike k) : k.Alike o :=
  ⟨h.reversed.symm, h.current.symm, fun hk => (h.start (h.current ▸ hk)).symm⟩

theorem trans (h : o.Alike k) (h' : k.Alike l) : o.Alike l :=
  ⟨h.reversed.trans h'.reversed, h.current.trans h'.current,
    fun ho => (h.start ho).trans (h'.start (h.current ▸ ho))⟩

end Alike

variable {o k : Outline α}

theorem Alike.move (h : o.Alike k) (p : Point α) : o.move p = k.move p := by
  unfold Outline.move
  rw [h.reversed]

theorem Alike.reopen (h : o.Alike k) (ho : o.current.isSome) : o.reopen = k.reopen := by
  unfold Outline.reopen
  rw [h.reversed, h.start ho]

theorem Alike.rect (h : o.Alike k) (r : Rect α) : o.rect r = k.rect r := by
  unfold Outline.rect
  rw [h.move]

/-- Without a current point, an operation that needs one is done to neither of two outlines that are alike. -/
theorem Alike.needs (h : o.Alike k) (f : Outline α → Outline α) (hf : o.current.isSome → (f o).Alike (f k)) :
    Option.Rel Alike (o.current.map fun _ => f o) (k.current.map fun _ => f k) := by
  rw [← h.current]
  cases hc : o.current with
  | none => exact .none
  | some p => exact .some (hf (by rw [hc]; rfl))

variable [Scalar α]

/-- The outline after an operation, unless it needs a current point and there is none. -/
def Op.outcome? : Op α → Outline α → Option (Outline α)
  | .move p, o => some (o.move p)
  | .line p, o => o.line? p
  | .curve p₁ p₂ p, o => o.curve? p₁ p₂ p
  | .close, o => o.close?
  | .rect r, o => some (o.rect r)
  | .set path, _ => some (.ofPath path)
  | .clear, o => some o.clear

def Op.apply (op : Op α) (o : Outline α) : Outline α := (op.outcome? o).getD o

/-- What can be seen of a row of operations: the path and the current point after each, and whether it was done. -/
def outcomes (o : Outline α) : List (Op α) → List (Path α × Option (Point α) × Bool)
  | [] => []
  | op :: ops => ((op.apply o).path, (op.apply o).current, (op.outcome? o).isSome) :: (op.apply o).outcomes ops

/-- The outlines that operations lead to, from the empty one on.  A path that is put in place of another was reached in
the same way. -/
inductive Reached : Outline α → Prop where
  | empty : Reached .empty
  | step {o : Outline α} (op : Op α) (h : ∀ path, op ≠ .set path) : Reached o → Reached (op.apply o)
  | set {o k : Outline α} : Reached o → Reached k → Reached ((Op.set k.path).apply o)

/-! ## The same outcomes -/

theorem Alike.outcome? (h : o.Alike k) (op : Op α) : Option.Rel Alike (op.outcome? o) (op.outcome? k) := by
  cases op with
  | move p => exact .some (h.move p ▸ refl _)
  | line p =>
    refine h.needs (fun o => { o with reversed := .line p :: o.reopen, current := some p }) fun ho => ?_
    exact ⟨congrArg (.line p :: ·) (h.reopen ho), rfl, fun _ => h.start ho⟩
  | curve p₁ p₂ p =>
    refine h.needs (fun o => { o with reversed := .curve p₁ p₂ p :: o.reopen, current := some p }) fun ho => ?_
    exact ⟨congrArg (.curve p₁ p₂ p :: ·) (h.reopen ho), rfl, fun _ => h.start ho⟩
  | close =>
    show Option.Rel Alike o.close? k.close?
    unfold Outline.close?
    rw [← h.current]
    cases hc : o.current with
    | none => exact .none
    | some p =>
      refine .some ?_
      rw [h.reversed, h.start (by rw [hc]; rfl)]
      split <;> exact ⟨rfl, rfl, fun _ => rfl⟩
  | rect r => exact .some (h.rect r ▸ refl _)
  | set path => exact .some (.refl _)
  | clear => exact .some ⟨rfl, rfl, nofun⟩

theorem Alike.next (h : o.Alike k) (op : Op α) :
    (op.apply o).Alike (op.apply k) ∧ (op.outcome? o).isSome = (op.outcome? k).isSome := by
  have done := h.outcome? op
  unfold Op.apply
  generalize op.outcome? o = o' at done ⊢
  generalize op.outcome? k = k' at done ⊢
  cases done with
  | none => exact ⟨h, rfl⟩
  | some h' => exact ⟨h', rfl⟩

/-- Nothing that is done to both tells outlines apart that are alike. -/
theorem Alike.outcomes (h : o.Alike k) (ops : List (Op α)) : o.outcomes ops = k.outcomes ops := by
  induction ops generalizing o k with
  | nil => rfl
  | cons op ops ih =>
    obtain ⟨next, done⟩ := h.next op
    rw [Outline.outcomes, Outline.outcomes, ih next, Outline.path, next.reversed, next.current, done, Outline.path]

/-- A path that was discarded is like no path at all. -/
theorem alike_clear (o : Outline α) : o.clear.Alike .empty := ⟨rfl, rfl, nofun⟩

/-- What is done to an outline that is known from its steps keeps it so, but for what a discarded path leaves behind. -/
theorem Restorable.apply (h : o.Restorable) (op : Op α) : ∃ k, k.Restorable ∧ (op.apply o).Alike k := by
  have done (restored : ∀ o', op.outcome? o = some o' → o'.Restorable) : (op.apply o).Restorable := by
    unfold Op.apply
    cases ho : op.outcome? o with
    | none => exact h
    | some o' => exact restored o' ho
  cases op with
  | move p => exact ⟨_, h.move p, .refl _⟩
  | line p => exact ⟨_, done fun _ => h.line?, .refl _⟩
  | curve p₁ p₂ p => exact ⟨_, done fun _ => h.curve?, .refl _⟩
  | close => exact ⟨_, done fun _ => h.close?, .refl _⟩
  | rect r => exact ⟨_, h.rect r, .refl _⟩
  | set path => exact ⟨_, .ofPath path, .refl _⟩
  | clear => exact ⟨_, .empty, alike_clear o⟩

theorem Reached.restored (h : o.Reached) : ∃ k, k.Restorable ∧ o.Alike k := by
  induction h with
  | empty => exact ⟨_, .empty, .refl _⟩
  | step op _ _ ih =>
    obtain ⟨k, hk, alike⟩ := ih
    obtain ⟨l, hl, next⟩ := hk.apply op
    exact ⟨l, hl, (alike.next op).1.trans next⟩
  | set => exact ⟨_, .ofPath _, .refl _⟩

/-- **An outline that was reached is known from its steps**, as far as it can be seen. -/
theorem Reached.alike (h : o.Reached) : (ofPath o.path).Alike o := by
  obtain ⟨k, hk, alike⟩ := h.restored
  have built : ofPath o.path = k := by
    rw [Outline.path, alike.reversed]
    exact hk
  exact built ▸ alike.symm

theorem Reached.steps (h : o.Reached) (hc : o.current.isSome) : o.reversed ≠ [] := by
  intro hr
  have empty : ofPath o.path = .empty := by
    rw [Outline.path, hr]
    rfl
  rw [← h.alike.current, empty] at hc
  cases hc

/-! ## The form of the steps -/

omit [Scalar α]

/-- Steps, the last one first, that begin with a move and follow each other as they may. -/
structure Laid (r : List (PathStep α)) : Prop where
  chain : r.IsChain fun t s => s.Precedes t
  first : ∀ s ∈ r.getLast?, s.isMove

/-- Steps that a segment can be put behind. -/
structure Open (r : List (PathStep α)) : Prop extends Laid r where
  steps : r ≠ []
  last : ∀ s ∈ r.head?, ¬s.isClose

variable {r : List (PathStep α)} {s : PathStep α}

theorem Laid.nil : Laid (α := α) [] := ⟨.nil, nofun⟩

theorem Laid.tail (h : Laid (s :: r)) : Laid r := by
  refine ⟨h.chain.tail, fun t ht => h.first t ?_⟩
  cases r with
  | nil => cases ht
  | cons => exact ht

theorem Laid.move (h : Laid r) (hr : ∀ s ∈ r.head?, ¬s.isMove) (p : Point α) : Open (.move p :: r) where
  chain := h.chain.cons fun t ht => PathStep.precedes_move (hr t ht) p
  first := by
    cases r with
    | nil => rintro _ ⟨⟩; rfl
    | cons => exact h.first
  steps := nofun
  last := by rintro _ ⟨⟩ ⟨⟩

theorem Open.put (h : Open r) (hs : ¬s.isMove) : Laid (s :: r) where
  chain := h.chain.cons fun t ht => PathStep.precedes_segment (h.last t ht) hs
  first := by
    cases r with
    | nil => exact absurd rfl h.steps
    | cons => exact h.first

theorem Open.line (h : Open r) (p : Point α) : Open (.line p :: r) :=
  ⟨h.put nofun, nofun, by rintro _ ⟨⟩ ⟨⟩⟩

theorem Laid.moved (h : Laid o.reversed) (p : Point α) : Open (o.move p).reversed := by
  unfold Outline.move
  split
  case h_1 q r hr =>
    rw [hr] at h
    exact h.tail.move (fun s hs hm => (h.chain.rel_head? hs).1 hm rfl) p
  case h_2 hr =>
    refine h.move (fun s hs hm => ?_) p
    cases s with
    | move q =>
      obtain ⟨r, hr'⟩ := List.head?_eq_some_iff.mp hs
      exact hr q r hr'
    | _ => cases hm

theorem Laid.reopened (h : Laid o.reversed) (hr : o.reversed ≠ []) : Open o.reopen := by
  unfold Outline.reopen
  split
  case h_1 r hc =>
    rw [hc] at h
    exact h.move (by rintro _ ⟨⟩ ⟨⟩) o.start
  case h_2 hc =>
    refine ⟨h, hr, fun s hs hm => ?_⟩
    cases s with
    | close =>
      obtain ⟨r, hr'⟩ := List.head?_eq_some_iff.mp hs
      exact hc r hr'
    | _ => cases hm

variable [Scalar α]

/-- **An operation lays its steps in order.** -/
theorem Laid.apply (h : Laid o.reversed) (hc : o.current.isSome → o.reversed ≠ []) (op : Op α)
    (hop : ∀ path, op = .set path → Laid path.reverse) : Laid (op.apply o).reversed := by
  -- what needs a current point finds steps to go on from
  have needs (f : Outline α → Outline α) (hf : o.reversed ≠ [] → Laid (f o).reversed) :
      Laid ((o.current.map fun _ => f o).getD o).reversed := by
    cases ho : o.current with
    | none => exact h
    | some p => exact hf (hc (by rw [ho]; rfl))
  cases op with
  | move p => exact (h.moved p).toLaid
  | line p =>
    exact needs (fun o => { o with reversed := .line p :: o.reopen, current := some p }) fun hr =>
      (h.reopened hr).put nofun
  | curve p₁ p₂ p =>
    exact needs (fun o => { o with reversed := .curve p₁ p₂ p :: o.reopen, current := some p }) fun hr =>
      (h.reopened hr).put nofun
  | close =>
    show Laid (o.close?.getD o).reversed
    unfold Outline.close?
    cases ho : o.current with
    | none => exact h
    | some p =>
      have reopened := h.reopened (hc (by rw [ho]; rfl))
      rw [Option.map_some, Option.getD_some]
      split
      case h_1 => exact h
      case h_2 => exact h
      case h_3 hclose _ =>
        -- a path that is not closed yet is its own continuation
        have same : o.reopen = o.reversed := by
          unfold Outline.reopen
          split
          case h_1 r hr => exact absurd hr (hclose r)
          case h_2 => rfl
        exact (same ▸ reopened).put nofun
  | rect r =>
    have corner := h.moved ⟨r.x0, r.y0⟩
    exact (((corner.line _).line _).line _).put nofun
  | set path =>
    show Laid (ofPath path).reversed
    rw [ofPath_reversed]
    exact hop path rfl
  | clear => exact .nil

theorem Reached.laid (h : o.Reached) : Laid o.reversed := by
  induction h with
  | empty => exact .nil
  | step op hop reached ih => exact ih.apply reached.steps op fun path hp => absurd hp (hop path)
  | set reached _ ih ihk =>
    refine ih.apply reached.steps (.set _) fun path hp => ?_
    obtain rfl := Op.set.inj hp
    rw [Outline.path, List.reverse_reverse]
    exact ihk

/-! ## The current point -/

theorem ofPath_start (path : Path α) : (ofPath path).start = path.lastStart?.getD .origin := by
  induction path using List.reverseRecOn with
  | nil => rfl
  | append_singleton path s ih =>
    rw [ofPath_concat, Path.lastStart?_concat]
    cases s with
    | move p => rfl
    | _ => exact ih

theorem ofPath_current {path : Path α} (h : ∀ s ∈ path.head?, s.isMove) : (ofPath path).current = path.end? := by
  obtain rfl | ⟨path, s, rfl⟩ := path.eq_nil_or_concat'
  · rfl
  rw [ofPath_concat, Path.end?, List.getLast?_concat]
  cases s with
  | close =>
    cases path with
    | nil => cases h .close rfl
    | cons s path =>
      have begun : (Path.lastStart? (s :: path)).isSome := Path.lastStart?_isSome (.head _) (h s rfl)
      obtain ⟨p, hp⟩ := Option.isSome_iff_exists.mp begun
      show some (ofPath (s :: path)).start = _
      rw [ofPath_start, Path.lastStart?_concat, hp]
      rfl
  | _ => rfl

theorem ofPath_located {path : Path α} (h : path ≠ []) : (ofPath path).current.isSome := by
  obtain rfl | ⟨path, s, rfl⟩ := path.eq_nil_or_concat'
  · exact absurd rfl h
  rw [ofPath_concat]
  cases s <;> rfl

/-- The steps are in the normal form, and the current point is where they end. -/
structure Consistent (o : Outline α) : Prop where
  begins : ∀ s ∈ o.path.head?, s.isMove
  /-- No two moves follow each other. -/
  apart : o.path.IsChain fun s t => s.isMove → ¬t.isMove
  /-- A path that goes on after a close does so with a move. -/
  reopened : o.path.IsChain fun s t => s.isClose → t.isMove
  located : o.current.isSome ↔ o.path ≠ []
  current : o.current = o.path.end?

theorem Reached.consistent (h : o.Reached) : o.Consistent := by
  have chain : o.path.IsChain PathStep.Precedes := List.isChain_reverse.mpr h.laid.chain
  have begins : ∀ s ∈ o.path.head?, s.isMove := by
    rw [Outline.path, List.head?_reverse]
    exact h.laid.first
  refine ⟨begins, chain.imp fun _ _ => And.left, chain.imp fun _ _ => And.right, ⟨fun hc hp => ?_, fun hp => ?_⟩, ?_⟩
  · exact h.steps hc (List.reverse_eq_nil_iff.mp hp)
  · exact h.alike.current ▸ ofPath_located hp
  · exact h.alike.current.symm.trans (ofPath_current begins)

/-- **The path under construction is consistent after any operations**, and nothing is lost when it is put in place of
itself: the path and the current point stay, and so does the outcome of whatever is done next.  What a discarded path
leaves behind is never seen. -/
theorem reached_consistent (h : o.Reached) :
    o.Consistent ∧ ((Op.set o.path).apply o).path = o.path ∧ ((Op.set o.path).apply o).current = o.current ∧
      (∀ ops, ((Op.set o.path).apply o).outcomes ops = o.outcomes ops) ∧
      ∀ ops, o.clear.outcomes ops = empty.outcomes ops :=
  ⟨h.consistent, path_ofPath o.path, h.alike.current, fun ops => h.alike.outcomes ops,
    fun ops => (alike_clear o).outcomes ops⟩

/-- A path that begins anew after it was discarded, with two moves, and goes on after it was closed. -/
theorem reopened_consistent :
    let o : Outline Float := [.move ⟨5, 5⟩, .clear, .move ⟨9, 9⟩, .move ⟨0, 0⟩, .line ⟨10, 0⟩, .close,
      .line ⟨0, 10⟩].foldl (fun o (op : Op Float) => op.apply o) .empty
    o.Reached ∧ o.path = [.move ⟨0, 0⟩, .line ⟨10, 0⟩, .close, .move ⟨0, 0⟩, .line ⟨0, 10⟩] ∧
      o.Consistent ∧ ((Op.set o.path).apply o).path = o.path ∧ ((Op.set o.path).apply o).current = o.current ∧
      (∀ ops, ((Op.set o.path).apply o).outcomes ops = o.outcomes ops) ∧
      ∀ ops, o.clear.outcomes ops = empty.outcomes ops := by
  intro o
  have begun : (Op.apply .clear ((Op.move ⟨5, 5⟩).apply empty) : Outline Float).Reached :=
    .step .clear nofun (.step (.move _) nofun .empty)
  have reached : o.Reached :=
    .step (.line _) nofun (.step .close nofun (.step (.line _) nofun (.step (.move _) nofun
      (.step (.move _) nofun begun))))
  exact ⟨reached, rfl, reached_consistent reached⟩

end Outline

end PdfContent
