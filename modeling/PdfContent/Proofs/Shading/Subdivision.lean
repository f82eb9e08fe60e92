import PdfContent.Proofs.Emission
import PdfContent.Proofs.Yields
import PdfContent.Shading.Tessellation
/-!
# Subdivision — one recursion for all regions that are split

Rectangles of a domain, triangles and patches are split by the same recursion (`domainCells_startOf`, `triangleCells_eq`,
`patchCells_eq`): a region is left whole if it is done or must not be split any more.  What the recursion comes across
are its calls (`Meets`), and its cells are those of them at which it stops (`mem_cells`).  So a fact about all cells is one
about a region and its parts.  Colors of a domain come from a function that may panic: the cells before that are the
first ones of the recursion, and each has its color and those at its corners from the function (`call_of_mem`,
`Calls.corners`).
-/
namespace PdfContent

open Scalar

/-- How regions are split.  A region that is done at its depth is left whole. -/
structure Subdivision (β : Type) where
  done : β → Nat → Bool
  split : β → List β

namespace Subdivision

variable {β : Type}

/-- The cells of a region which may be split `fuel` more times, with their depths. -/
def cells (s : Subdivision β) (b : β) (depth : Nat) : Nat → List (β × Nat)
  | 0 => [(b, depth)]
  | fuel + 1 =>
    if s.done b depth then [(b, depth)] else (s.split b).flatMap fun part => s.cells part (depth + 1) fuel

/-- The calls that are made for a region: a region, its depth and how many more times it may be split. -/
inductive Meets (s : Subdivision β) (b : β) (depth fuel : Nat) : β → Nat → Nat → Prop where
  | whole : Meets s b depth fuel b depth fuel
  | part {c d : β} {m n : Nat} : Meets s b depth fuel c m (n + 1) → s.done c m = false → d ∈ s.split c →
      Meets s b depth fuel d (m + 1) n

variable {s : Subdivision β} {b c : β} {depth fuel m n : Nat}

namespace Meets

theorem invariant {p : β → Prop} (h : s.Meets b depth fuel c m n) (hb : p b)
    (split : ∀ d, p d → ∀ part ∈ s.split d, p part) : p c := by
  induction h with
  | whole => exact hb
  | part _ _ hd ih => exact split _ ih _ hd

theorem depth_add (h : s.Meets b depth fuel c m n) : m + n = depth + fuel := by
  induction h with
  | whole => rfl
  | part _ _ _ ih => omega

theorem of_part {part : β} (undone : s.done b depth = false) (hp : part ∈ s.split b)
    (h : s.Meets part (depth + 1) fuel c m n) : s.Meets b depth (fuel + 1) c m n := by
  -- calls are listed from the region downwards, so the step to the part is put in at the top
  induction h with
  | whole => exact .part .whole undone hp
  | part _ hd hs ih => exact .part ih hd hs

theorem cells_subset (h : s.Meets b depth fuel c m n) : s.cells c m n ⊆ s.cells b depth fuel := by
  induction h with
  | whole => exact List.Subset.refl _
  | part _ hd hs ih =>
    refine List.Subset.trans (fun cell hc => ?_) ih
    rw [cells, hd]
    exact List.mem_flatMap.mpr ⟨_, hs, hc⟩

end Meets

/-- **The cells are the calls that split nothing**: those that must not, or whose region is done. -/
theorem mem_cells : (c, m) ∈ s.cells b depth fuel ↔ ∃ n, s.Meets b depth fuel c m n ∧ (n = 0 ∨ s.done c m = true) := by
  constructor
  · intro h
    induction fuel generalizing b depth with
    | zero =>
      cases List.mem_singleton.mp h
      exact ⟨0, .whole, .inl rfl⟩
    | succ fuel ih =>
      rw [cells] at h
      split at h
      case isTrue done =>
        cases List.mem_singleton.mp h
        exact ⟨fuel + 1, .whole, .inr done⟩
      case isFalse undone =>
        obtain ⟨part, hp, h⟩ := List.mem_flatMap.mp h
        obtain ⟨n, meets, stop⟩ := ih h
        exact ⟨n, .of_part (Bool.eq_false_iff.mpr undone) hp meets, stop⟩
  · rintro ⟨n, meets, stop⟩
    refine meets.cells_subset ?_
    cases n with
    | zero => exact List.mem_singleton_self _
    | succ n =>
      rw [cells, if_pos (stop.resolve_left (Nat.succ_ne_zero n))]
      exact List.mem_singleton_self _

/-- A cell that might have been split is done. -/
theorem done_of_mem (h : (c, m) ∈ s.cells b depth fuel) (low : m < depth + fuel) : s.done c m = true := by
  obtain ⟨n, meets, stop⟩ := mem_cells.mp h
  have := meets.depth_add
  exact stop.resolve_left (by omega)

theorem forall_cells {p : β → Prop} (hb : p b) (split : ∀ c, p c → ∀ part ∈ s.split c, p part) :
    ∀ cell ∈ s.cells b depth fuel, p cell.1 := by
  intro cell hc
  obtain ⟨n, meets, -⟩ := mem_cells.mp hc
  exact meets.invariant hb split

/-- What holds of a region by itself, and of any refinement of its parts, holds of its cells. -/
theorem cells_induction {p : β → List β → Prop} (whole : ∀ b, p b [b])
    (refined : ∀ b (cells : β → List β), (∀ part ∈ s.split b, p part (cells part)) → p b ((s.split b).flatMap cells)) :
    p b ((s.cells b depth fuel).map Prod.fst) := by
  induction fuel generalizing b depth with
  | zero => exact whole b
  | succ fuel ih =>
    rw [cells]
    split
    · exact whole b
    · rw [List.map_flatMap]
      exact refined b _ fun part _ => ih

end Subdivision

namespace Tessellation

variable {α γ : Type}

section Meshes

variable [Scalar α] [Scalar γ]

def triangleSubdivision (delta : γ) : Subdivision (Triangle α γ) := ⟨fun t _ => triangleIsClose delta t, splitTriangle⟩

def patchSubdivision (delta : γ) : Subdivision (Patch α γ) := ⟨fun p _ => patchIsClose delta p, splitPatch⟩

theorem triangleCells_eq (delta : γ) : ∀ (fuel depth : Nat) (t : Triangle α γ),
    triangleCells delta t depth fuel = (triangleSubdivision delta).cells t depth fuel
  | 0, _, _ => rfl
  | fuel + 1, depth, t => by
    rw [triangleCells, Subdivision.cells]
    simp only [triangleCells_eq delta fuel]
    rfl

theorem patchCells_eq (delta : γ) : ∀ (fuel depth : Nat) (p : Patch α γ),
    patchCells delta p depth fuel = (patchSubdivision delta).cells p depth fuel
  | 0, _, _ => rfl
  | fuel + 1, depth, p => by
    rw [patchCells, Subdivision.cells]
    simp only [patchCells_eq delta fuel]
    rfl

end Meshes

/-! ## The domain of a function -/

variable {eval : α → α → Checked (List γ)} {delta : γ} {r : Rect α} {c : Corners γ} {center : List γ}
  {parts : List (Rect α × Corners γ)} {depth fuel : Nat}

/-- The color at a point, or none where the function panics. -/
def known (eval : α → α → Checked (List γ)) (x y : α) : List γ := (eval x y).getD []

theorem known_eq {x y : α} {color : List γ} (h : eval x y = .ok color) : known eval x y = color := by
  rw [known, h]
  rfl

theorem evalCorners_eq_ok_iff :
    evalCorners eval r = .ok c ↔ eval r.x0 r.y0 = .ok c.c00 ∧ eval r.x0 r.y1 = .ok c.c01 ∧ eval r.x1 r.y0 = .ok c.c10 ∧
      eval r.x1 r.y1 = .ok c.c11 := by
  constructor
  · intro h
    obtain ⟨c00, h00, h⟩ := Checked.bind_eq_ok_iff.mp h
    obtain ⟨c01, h01, h⟩ := Checked.bind_eq_ok_iff.mp h
    obtain ⟨c10, h10, h⟩ := Checked.bind_eq_ok_iff.mp h
    obtain ⟨c11, h11, h⟩ := Checked.bind_eq_ok_iff.mp h
    cases h
    exact ⟨h00, h01, h10, h11⟩
  · rintro ⟨h00, h01, h10, h11⟩
    simp only [evalCorners, h00, h01, h10, h11]
    rfl

variable [Scalar α]

/-- The colors that are computed for the parts are those between the corners. -/
theorem evalParts_eq_ok (h : evalParts eval r c center = .ok parts) :
    let xm := ofFloat 0.5 * (r.x0 + r.x1)
    let ym := ofFloat 0.5 * (r.y0 + r.y1)
    ∃ left right bottom top, eval r.x0 ym = .ok left ∧ eval r.x1 ym = .ok right ∧ eval xm r.y0 = .ok bottom ∧
      eval xm r.y1 = .ok top ∧
      parts = [(⟨r.x0, r.y0, xm, ym⟩, ⟨c.c00, left, bottom, center⟩), (⟨r.x0, ym, xm, r.y1⟩, ⟨left, c.c01, center, top⟩),
        (⟨xm, r.y0, r.x1, ym⟩, ⟨bottom, center, c.c10, right⟩), (⟨xm, ym, r.x1, r.y1⟩, ⟨center, top, right, c.c11⟩)] := by
  obtain ⟨left, hl, h⟩ := Checked.bind_eq_ok_iff.mp h
  obtain ⟨right, hr, h⟩ := Checked.bind_eq_ok_iff.mp h
  obtain ⟨bottom, hb, h⟩ := Checked.bind_eq_ok_iff.mp h
  obtain ⟨top, ht, h⟩ := Checked.bind_eq_ok_iff.mp h
  cases h
  exact ⟨left, right, bottom, top, hl, hr, hb, ht, rfl⟩

/-- Each part takes one color from the whole and the center from it, the others are computed at its own corners. -/
theorem corners_of_parts (hr : evalCorners eval r = .ok c) (hc : evalCenter eval r = .ok center)
    (h : evalParts eval r c center = .ok parts) : ∀ part ∈ parts, evalCorners eval part.1 = .ok part.2 := by
  obtain ⟨left, right, bottom, top, hl, hri, hb, ht, rfl⟩ := evalParts_eq_ok h
  obtain ⟨h00, h01, h10, h11⟩ := evalCorners_eq_ok_iff.mp hr
  simp only [List.forall_mem_cons, evalCorners_eq_ok_iff]
  exact ⟨⟨h00, hl, hb, hc⟩, ⟨hl, h01, hc, ht⟩, ⟨hb, hc, h10, hri⟩, ⟨hc, ht, hri, h11⟩, List.forall_mem_nil _⟩

/-! The recursion as it would go on, with no color where the function panics. -/

def centerColor (eval : α → α → List γ) (r : Rect α) : List γ :=
  eval (ofFloat 0.5 * (r.x0 + r.x1)) (ofFloat 0.5 * (r.y0 + r.y1))

def splitDomain (eval : α → α → List γ) (r : Rect α) (c : Corners γ) : List (Rect α × Corners γ) :=
  let xm := ofFloat 0.5 * (r.x0 + r.x1)
  let ym := ofFloat 0.5 * (r.y0 + r.y1)
  let center := centerColor eval r
  [(⟨r.x0, r.y0, xm, ym⟩, ⟨c.c00, eval r.x0 ym, eval xm r.y0, center⟩),
    (⟨r.x0, ym, xm, r.y1⟩, ⟨eval r.x0 ym, c.c01, center, eval xm r.y1⟩),
    (⟨xm, r.y0, r.x1, ym⟩, ⟨eval xm r.y0, center, c.c10, eval r.x1 ym⟩),
    (⟨xm, ym, r.x1, r.y1⟩, ⟨center, eval xm r.y1, eval r.x1 ym, c.c11⟩)]

theorem evalParts_known (hc : evalCenter eval r = .ok center) (h : evalParts eval r c center = .ok parts) :
    parts = splitDomain (known eval) r c := by
  obtain ⟨left, right, bottom, top, hl, hr, hb, ht, rfl⟩ := evalParts_eq_ok h
  simp only [splitDomain, centerColor, known_eq hl, known_eq hr, known_eq hb, known_eq ht, known_eq hc]

variable [Scalar γ]

/-- The calls that are made for a rectangle with the colors at its corners, at some depth and with some splits left:
those for the parts of each that is split. -/
inductive Calls (eval : α → α → Checked (List γ)) (delta : γ) (r : Rect α) (c : Corners γ) (depth fuel : Nat) :
    Rect α → Corners γ → Nat → Nat → Prop where
  | whole : Calls eval delta r c depth fuel r c depth fuel
  | part {q : Rect α} {corners : Corners γ} {m n : Nat} {center : List γ} {parts : List (Rect α × Corners γ)}
      {part : Rect α × Corners γ} : Calls eval delta r c depth fuel q corners m (n + 1) →
      evalCenter eval q = .ok center → isUniform delta corners center m = false →
      evalParts eval q corners center = .ok parts → part ∈ parts →
      Calls eval delta r c depth fuel part.1 part.2 (m + 1) n

namespace Calls

variable {q : Rect α} {d : Corners γ} {m n : Nat}

/-- **The colors that a call is given are those at the corners of its rectangle.** -/
theorem corners (h : Calls eval delta r c depth fuel q d m n) (hr : evalCorners eval r = .ok c) :
    evalCorners eval q = .ok d := by
  induction h with
  | whole => exact hr
  | part _ hc _ hp mem ih => exact corners_of_parts ih hc hp _ mem

theorem depth_add (h : Calls eval delta r c depth fuel q d m n) : m + n = depth + fuel := by
  induction h with
  | whole => rfl
  | part _ _ _ _ _ ih => omega

theorem of_part {part : Rect α × Corners γ} (hc : evalCenter eval r = .ok center)
    (split : isUniform delta c center depth = false) (hp : evalParts eval r c center = .ok parts) (mem : part ∈ parts)
    (h : Calls eval delta part.1 part.2 (depth + 1) fuel q d m n) :
    Calls eval delta r c depth (fuel + 1) q d m n := by
  -- calls are listed from the rectangle downwards, so the step to the part is put in at the top
  induction h with
  | whole => exact .part .whole hc split hp mem
  | part _ hc hs hp hm ih => exact .part ih hc hs hp hm

end Calls

/-- A cell comes from a call that does not split its rectangle, and has the color at its center. -/
theorem call_of_mem {cell : DomainCell α γ} : cell ∈ (domainCells eval delta r c depth fuel).items →
    ∃ corners n, Calls eval delta r c depth fuel cell.rect corners cell.depth n ∧
      evalCenter eval cell.rect = .ok cell.color ∧ (n = 0 ∨ isUniform delta corners cell.color cell.depth = true) := by
  induction fuel generalizing r c depth with
  | zero =>
    intro h
    rw [domainCells] at h
    cases hc : evalCenter eval r with
    | error p =>
      rw [hc] at h
      cases h
    | ok center =>
    rw [Emission.after_eq hc] at h
    cases List.mem_singleton.mp h
    exact ⟨c, 0, .whole, hc, .inl rfl⟩
  | succ fuel ih =>
    intro h
    rw [domainCells] at h
    cases hc : evalCenter eval r with
    | error p =>
      rw [hc] at h
      cases h
    | ok center =>
    rw [Emission.after_eq hc] at h
    split at h
    case isTrue uniform =>
      cases List.mem_singleton.mp h
      exact ⟨c, fuel + 1, .whole, hc, .inr uniform⟩
    case isFalse split =>
    cases hp : evalParts eval r c center with
    | error p =>
      rw [hp] at h
      cases h
    | ok parts =>
    rw [Emission.after_eq hp] at h
    obtain ⟨part, mem, h⟩ := Emission.of_mem_flatMap h
    obtain ⟨corners, n, call, color, stop⟩ := ih h
    exact ⟨corners, n, .of_part hc (Bool.eq_false_iff.mpr split) hp mem call, color, stop⟩

theorem call_of_mem_functionCells {cell : DomainCell α γ} (h : cell ∈ (functionCells eval delta r fuel).items) :
    ∃ whole corners n, evalCorners eval r = .ok whole ∧ Calls eval delta r whole 0 fuel cell.rect corners cell.depth n ∧
      evalCenter eval cell.rect = .ok cell.color ∧ (n = 0 ∨ isUniform delta corners cell.color cell.depth = true) := by
  cases hr : evalCorners eval r with
  | error p =>
    rw [functionCells, hr] at h
    cases h
  | ok whole =>
    rw [functionCells, Emission.after_eq hr] at h
    obtain ⟨corners, n, call⟩ := call_of_mem h
    exact ⟨whole, corners, n, rfl, call⟩

def domainSubdivision (eval : α → α → List γ) (delta : γ) : Subdivision (Rect α × Corners γ) :=
  ⟨fun part => isUniform delta part.2 (centerColor eval part.1), fun part => splitDomain eval part.1 part.2⟩

/-- **The cells of a rectangle are the first ones of the recursion**, and all of them unless the function panics. -/
theorem domainCells_startOf (eval : α → α → Checked (List γ)) (delta : γ) :
    ∀ (fuel depth : Nat) (r : Rect α) (c : Corners γ), (domainCells eval delta r c depth fuel).StartOf
      (((domainSubdivision (known eval) delta).cells (r, c) depth fuel).map fun cell =>
        ⟨cell.1.1, centerColor (known eval) cell.1.1, cell.2⟩)
  | 0, _, r, _ => by
    refine .after fun center hc => ?_
    obtain rfl := known_eq hc
    exact .one _
  | fuel + 1, depth, r, c => by
    refine .after fun center hc => ?_
    obtain rfl := known_eq hc
    rw [Subdivision.cells, apply_ite (List.map _), List.map_flatMap]
    split
    case isTrue uniform =>
      rw [if_pos (show (domainSubdivision (known eval) delta).done (r, c) depth = true from uniform)]
      exact .one _
    case isFalse split =>
      rw [if_neg (show ¬(domainSubdivision (known eval) delta).done (r, c) depth = true from split)]
      refine .after fun parts hp => ?_
      rw [evalParts_known hc hp]
      exact .flatMap fun part _ => domainCells_startOf eval delta fuel (depth + 1) part.1 part.2

end Tessellation

end PdfContent
