import Mathlib.Algebra.BigOperators.Group.List.Basic
import Mathlib.Data.Sign.Basic
import Mathlib.Tactic.Linarith
import Mathlib.Tactic.NormNum
import PdfContent.Proofs.Geometry.Rectangle
import PdfContent.Proofs.Shading.Budget
/-!
# Tiling — splitting loses and doubles nothing

In exact coordinates the rectangles that a domain is split into have no inner points in common and cover the domain, and
the triangles that a triangle is split into have none either, go around in the same direction and have its area together
(`cells_tile`).  Each is seen at one split, and holds of all cells since it does of every split.
-/
namespace PdfContent

open Scalar

namespace Subdivision

variable {β P : Type} {s : Subdivision β} {b : β} {depth fuel : Nat}

/-- The insides of the parts lie in that of the whole, and those of two parts have no point in common. -/
structure Parts (inside : β → Set P) (b : β) (parts : List β) : Prop where
  within : ∀ part ∈ parts, inside part ⊆ inside b
  apart : parts.Pairwise fun c d => ∀ p ∈ inside c, p ∉ inside d

theorem cells_parts {inside : β → Set P} (h : ∀ b, Parts inside b (s.split b)) :
    Parts inside b ((s.cells b depth fuel).map Prod.fst) := by
  refine cells_induction (fun b => ⟨List.forall_mem_singleton.mpr subset_rfl, List.pairwise_singleton _ _⟩)
    fun b cells ih => ⟨?_, ?_⟩
  · intro cell hc
    obtain ⟨part, hp, hc⟩ := List.mem_flatMap.mp hc
    exact ((ih part hp).within cell hc).trans ((h b).within part hp)
  · -- cells of one part are apart by induction, those of two parts because the parts around them are
    refine List.pairwise_flatMap.mpr ⟨fun part hp => (ih part hp).apart, (h b).apart.imp_of_mem ?_⟩
    intro c d hc hd apart x hx y hy p hpx hpy
    exact apart p ((ih c hc).within x hx hpx) ((ih d hd).within y hy hpy)

theorem parts_map {δ : Type} {inside : δ → Set P} {f : β → δ} {parts : List β} :
    Parts inside (f b) (parts.map f) ↔ Parts (inside ∘ f) b parts := by
  constructor
  · rintro ⟨within, apart⟩
    rw [List.pairwise_map] at apart
    exact ⟨List.forall_mem_map.mp within, apart⟩
  · rintro ⟨within, apart⟩
    exact ⟨List.forall_mem_map.mpr within, List.pairwise_map.mpr apart⟩

theorem cells_cover {region : β → Set P} (h : ∀ b p, p ∈ region b ↔ ∃ part ∈ s.split b, p ∈ region part) (b : β)
    (depth fuel : Nat) : ∀ p, p ∈ region b ↔ ∃ cell ∈ (s.cells b depth fuel).map Prod.fst, p ∈ region cell := by
  refine cells_induction (p := fun b cells => ∀ p, p ∈ region b ↔ ∃ cell ∈ cells, p ∈ region cell) (fun b p => ?_)
    fun b cells ih p => ?_
  · simp only [List.mem_singleton, exists_eq_left]
  · rw [h]
    simp only [List.mem_flatMap]
    constructor
    · rintro ⟨part, hp, hin⟩
      obtain ⟨cell, hc, hin⟩ := (ih part hp p).mp hin
      exact ⟨cell, ⟨part, hp, hc⟩, hin⟩
    · rintro ⟨cell, ⟨part, hp, hc⟩, hin⟩
      exact ⟨part, hp, (ih part hp p).mpr ⟨cell, hc, hin⟩⟩

/-- A size that is shared out among the parts is shared out among the cells. -/
theorem cells_sum {size : β → Rat} (h : ∀ b, ((s.split b).map size).sum = size b) :
    (((s.cells b depth fuel).map Prod.fst).map size).sum = size b := by
  refine cells_induction (p := fun b cells => (cells.map size).sum = size b) (fun b => List.sum_singleton) fun b cells ih => ?_
  rw [List.map_flatMap, List.flatMap_def, List.sum_flatten, List.map_map]
  exact (congrArg List.sum (List.map_congr_left ih)).trans (h b)

end Subdivision

/-! ## Rectangles -/

namespace Rect

/-- Rectangles that cover a rectangle without having inner points in common. -/
structure TiledBy (r : Rect Rat) (parts : List (Rect Rat)) : Prop extends Subdivision.Parts interior r parts where
  proper : ∀ q ∈ parts, q.Proper
  cover : r.region = {p | ∃ q ∈ parts, p ∈ q.region}

def quarters (r : Rect Rat) : List (Rect Rat) :=
  let xm := (r.x0 + r.x1) / 2
  let ym := (r.y0 + r.y1) / 2
  [⟨r.x0, r.y0, xm, ym⟩, ⟨r.x0, ym, xm, r.y1⟩, ⟨xm, r.y0, r.x1, ym⟩, ⟨xm, ym, r.x1, r.y1⟩]

variable {r : Rect Rat}

theorem quarters_proper (h : r.Proper) : ∀ q ∈ r.quarters, q.Proper := by
  have hx := h.x
  have hy := h.y
  simp only [quarters, List.forall_mem_cons]
  refine ⟨⟨?_, ?_⟩, ⟨?_, ?_⟩, ⟨?_, ?_⟩, ⟨?_, ?_⟩, List.forall_mem_nil _⟩
  all_goals linarith

theorem quarters_parts (r : Rect Rat) : Subdivision.Parts interior r r.quarters where
  within := by
    simp only [quarters, List.forall_mem_cons]
    refine ⟨?_, ?_, ?_, ?_, List.forall_mem_nil _⟩
    all_goals
      rintro p ⟨left, right, bottom, top⟩
      exact ⟨by linarith, by linarith, by linarith, by linarith⟩
  apart := by
    simp only [quarters, List.pairwise_cons, List.forall_mem_cons]
    refine ⟨⟨?_, ?_, ?_, List.forall_mem_nil _⟩, ⟨?_, ?_, List.forall_mem_nil _⟩, ⟨?_, List.forall_mem_nil _⟩,
      List.forall_mem_nil _, .nil⟩
    all_goals
      rintro p ⟨left, right, bottom, top⟩ ⟨left', right', bottom', top'⟩
      linarith

theorem mem_region_iff_quarters (r : Rect Rat) (p : Point Rat) : p ∈ r.region ↔ ∃ q ∈ r.quarters, p ∈ q.region := by
  simp only [quarters, List.exists_mem_cons_iff]
  constructor
  · rintro ⟨left, right, bottom, top⟩
    rcases le_total p.x ((r.x0 + r.x1) / 2) with hx | hx <;> rcases le_total p.y ((r.y0 + r.y1) / 2) with hy | hy
    · exact .inl ⟨left, hx, bottom, hy⟩
    · exact .inr (.inl ⟨left, hx, hy, top⟩)
    · exact .inr (.inr (.inl ⟨hx, right, bottom, hy⟩))
    · exact .inr (.inr (.inr (.inl ⟨hx, right, hy, top⟩)))
  · rintro (⟨left, right, bottom, top⟩ | ⟨left, right, bottom, top⟩ | ⟨left, right, bottom, top⟩ |
      ⟨left, right, bottom, top⟩ | ⟨q, hq, -⟩)
    case inr.inr.inr.inr => cases hq
    all_goals
      simp only at left right bottom top
      exact ⟨by linarith, by linarith, by linarith, by linarith⟩

end Rect

/-! ## Triangles -/

/-- The area of the triangle with three corners, negative if they go around the other way. -/
def signedArea (a b c : Point Rat) : Rat := ((b.x - a.x) * (c.y - a.y) - (b.y - a.y) * (c.x - a.x)) / 2

/-- The signed areas of the triangles of a point with the edges opposite to each corner of a triangle.  Divided by their
sum, which is that of the triangle, they are the barycentric coordinates of the point. -/
structure Weights where
  a : Rat
  b : Rat
  c : Rat

namespace Weights

/-- The point lies on the inner side of all three edges. -/
def Inner (w : Weights) : Prop := (0 < w.a ∧ 0 < w.b ∧ 0 < w.c) ∨ (w.a < 0 ∧ w.b < 0 ∧ w.c < 0)

/-- The weights of the same point for the triangles at the three corners and, before the last of them, the one in the
middle. -/
def split (w : Weights) : List Weights :=
  [⟨(w.a - w.b - w.c) / 4, w.b / 2, w.c / 2⟩, ⟨w.a / 2, (w.b - w.c - w.a) / 4, w.c / 2⟩,
    ⟨(w.a + w.b - w.c) / 4, (w.b + w.c - w.a) / 4, (w.c + w.a - w.b) / 4⟩, ⟨w.a / 2, w.b / 2, (w.c - w.a - w.b) / 4⟩]

theorem inner_of_split (w : Weights) : ∀ v ∈ w.split, v.Inner → w.Inner := by
  simp only [split, List.forall_mem_cons]
  refine ⟨?_, ?_, ?_, ?_, List.forall_mem_nil _⟩
  all_goals
    rintro (⟨ha, hb, hc⟩ | ⟨ha, hb, hc⟩)
    · exact .inl ⟨by linarith, by linarith, by linarith⟩
    · exact .inr ⟨by linarith, by linarith, by linarith⟩

theorem split_apart (w : Weights) : w.split.Pairwise fun v v' => ¬(v.Inner ∧ v'.Inner) := by
  simp only [split, List.pairwise_cons, List.forall_mem_cons]
  refine ⟨⟨?_, ?_, ?_, List.forall_mem_nil _⟩, ⟨?_, ?_, List.forall_mem_nil _⟩, ⟨?_, List.forall_mem_nil _⟩,
    List.forall_mem_nil _, .nil⟩
  all_goals
    rintro ⟨⟨ha, hb, hc⟩ | ⟨ha, hb, hc⟩, ⟨ha', hb', hc'⟩ | ⟨ha', hb', hc'⟩⟩ <;>
      simp only at ha hb hc ha' hb' hc' <;> linarith

end Weights

namespace Triangle

variable {γ : Type}

def signedArea (t : Triangle Rat γ) : Rat := PdfContent.signedArea t.a.point t.b.point t.c.point

def area (t : Triangle Rat γ) : Rat := |t.signedArea|

def weights (t : Triangle Rat γ) (p : Point Rat) : Weights :=
  ⟨PdfContent.signedArea t.b.point t.c.point p, PdfContent.signedArea t.c.point t.a.point p,
    PdfContent.signedArea t.a.point t.b.point p⟩

def interior (t : Triangle Rat γ) : Set (Point Rat) := {p | (t.weights p).Inner}

/-- Triangles in a triangle that go around in the same direction, have no inner points in common and have its area
together. -/
structure TiledBy (t : Triangle Rat γ) (parts : List (Triangle Rat γ)) : Prop
    extends Subdivision.Parts interior t parts where
  oriented : ∀ u ∈ parts, SignType.sign u.signedArea = SignType.sign t.signedArea
  area : (parts.map area).sum = t.area

variable [Scalar γ]

open Tessellation

theorem signedArea_split (t : Triangle Rat γ) : ∀ u ∈ splitTriangle t, u.signedArea = t.signedArea / 4 := by
  simp only [splitTriangle, List.forall_mem_cons, signedArea, PdfContent.signedArea, between, Point.midpoint_x,
    Point.midpoint_y]
  refine ⟨?_, ?_, ?_, ?_, List.forall_mem_nil _⟩ <;> ring

theorem weights_split (t : Triangle Rat γ) (p : Point Rat) :
    (splitTriangle t).map (weights · p) = (t.weights p).split := by
  simp only [splitTriangle, List.map_cons, List.map_nil, Weights.split, weights, PdfContent.signedArea, between,
    Point.midpoint_x, Point.midpoint_y, List.cons.injEq, Weights.mk.injEq, and_true]
  refine ⟨⟨?_, ?_, ?_⟩, ⟨?_, ?_, ?_⟩, ⟨?_, ?_, ?_⟩, ?_, ?_, ?_⟩ <;> ring

theorem splitTriangle_parts (t : Triangle Rat γ) : Subdivision.Parts interior t (splitTriangle t) where
  within u hu p hp := by
    refine (t.weights p).inner_of_split (u.weights p) ?_ hp
    rw [← weights_split]
    exact List.mem_map_of_mem hu
  apart := by
    -- two parts that share some point are told apart by the weights of that point
    refine List.pairwise_iff_forall_sublist.mpr fun {u v} two p hu hv => ?_
    have apart := (t.weights p).split_apart
    rw [← weights_split, List.pairwise_map] at apart
    exact List.pairwise_iff_forall_sublist.mp apart two ⟨hu, hv⟩

theorem sum_area_split (t : Triangle Rat γ) : ((splitTriangle t).map area).sum = t.area := by
  have quarter (u : Triangle Rat γ) (hu : u ∈ splitTriangle t) : u.area = t.area / 4 := by
    rw [area, signedArea_split t u hu, abs_div, area]
    norm_num
  rw [List.map_congr_left quarter, List.map_const', List.sum_replicate, nsmul_eq_mul]
  exact mul_div_cancel₀ _ four_ne_zero

theorem triangleCells_tile (delta : γ) (t : Triangle Rat γ) (depth fuel : Nat) :
    t.TiledBy ((triangleCells delta t depth fuel).map Prod.fst) := by
  rw [triangleCells_eq]
  refine ⟨Subdivision.cells_parts splitTriangle_parts, ?_, Subdivision.cells_sum sum_area_split⟩
  refine List.forall_mem_map.mpr (Subdivision.forall_cells
    (p := fun u : Triangle Rat γ => SignType.sign u.signedArea = SignType.sign t.signedArea) rfl fun u hu v hv => ?_)
  have quarter : SignType.sign (4⁻¹ : Rat) = 1 := sign_pos (by norm_num)
  rw [signedArea_split u v hv, ← hu, div_eq_mul_inv, sign_mul, quarter, mul_one]

end Triangle

/-! ## Shadings -/

namespace Tessellation

variable {γ : Type}

theorem evalCenter_eq (eval : Rat → Rat → Checked (List γ)) (r : Rect Rat) :
    evalCenter eval r = eval ((r.x0 + r.x1) / 2) ((r.y0 + r.y1) / 2) := by
  rw [evalCenter, half_mul_add, half_mul_add]

theorem splitDomain_quarters (eval : Rat → Rat → List γ) (r : Rect Rat) (c : Corners γ) :
    (splitDomain eval r c).map Prod.fst = r.quarters := by
  simp only [splitDomain, Rect.quarters, half_mul_add, List.map_cons, List.map_nil]

variable [Scalar γ]

theorem domain_tile (eval : Rat → Rat → List γ) (delta : γ) {r : Rect Rat} (hr : r.Proper) (c : Corners γ)
    (depth fuel : Nat) :
    r.TiledBy ((((domainSubdivision eval delta).cells (r, c) depth fuel).map Prod.fst).map Prod.fst) := by
  have split (part : Rect Rat × Corners γ) :
      ((domainSubdivision eval delta).split part).map Prod.fst = part.1.quarters := splitDomain_quarters ..
  have parts (part : Rect Rat × Corners γ) :
      Subdivision.Parts (Rect.interior ∘ Prod.fst) part ((domainSubdivision eval delta).split part) :=
    Subdivision.parts_map.mp (split part ▸ part.1.quarters_parts)
  have cover (part : Rect Rat × Corners γ) (p : Point Rat) :
      p ∈ part.1.region ↔ ∃ q ∈ (domainSubdivision eval delta).split part, p ∈ q.1.region := by
    simp only [Rect.mem_region_iff_quarters part.1, ← split, List.mem_map, exists_exists_and_eq_and]
  refine ⟨Subdivision.parts_map (b := (r, c)) |>.mpr (Subdivision.cells_parts parts), ?_, ?_⟩
  · rw [List.map_map]
    refine List.forall_mem_map.mpr (Subdivision.forall_cells (p := fun part : Rect Rat × Corners γ => part.1.Proper) hr
      fun part hp => ?_)
    rw [← List.forall_mem_map (f := Prod.fst), split]
    exact Rect.quarters_proper hp
  · ext p
    refine (Subdivision.cells_cover cover (r, c) depth fuel p).trans ?_
    simp only [Set.mem_ofPred_eq, List.mem_map, exists_exists_and_eq_and]

theorem functionCells_tile (eval : Rat → Rat → Checked (List γ)) (delta : γ) {r : Rect Rat} (hr : r.Proper)
    (maxDepth : Nat) :
    ∃ rects, r.TiledBy rects ∧ ((functionCells eval delta r maxDepth).map DomainCell.rect).StartOf rects := by
  cases hc : evalCorners eval r with
  | error p =>
    refine ⟨_, domain_tile (known eval) delta hr ⟨[], [], [], []⟩ 0 maxDepth, ?_⟩
    rw [functionCells, hc]
    exact ⟨List.nil_prefix, fun none => by cases none⟩
  | ok corners =>
    refine ⟨_, domain_tile (known eval) delta hr corners 0 maxDepth, ?_⟩
    rw [functionCells, Emission.after_eq hc]
    have start := (domainCells_startOf eval delta maxDepth 0 r corners).map DomainCell.rect
    rwa [List.map_map] at start ⊢

end Tessellation

namespace Shading

open Tessellation

/-- **Splitting tiles what is split.**  In exact coordinates the cells of a shading of a function are rectangles of its
domain under its matrix, each in the color that the function has at its center; they are the first ones of some that
cover the domain without having inner points in common, and all of them unless the function panics; and every call of the
recursion is given the colors at the corners of its rectangle.  The cells of each triangle of a mesh are the first ones of
some that go around like it, lie in it without having inner points in common, and have its area together, and all of them
unless the color function of the mesh panics. -/
theorem cells_tile (s : Shading Rat) (precision : ShadingPrecision) :
    let p := precision.get s.type
    (∀ x0 x1 y0 y1 matrix f, s.kind = .function x0 x1 y0 y1 matrix f → x0 < x1 → y0 < y1 →
      let eval := fun x y => f.eval [toFloat32 x, toFloat32 y]
      let domain : Rect Rat := ⟨x0, y0, x1, y1⟩
      let cells := functionCells eval p.delta domain p.maxDepth
      cells? s precision = some (cells.map fun cell => (domainOutline matrix cell.rect, cell.color)) ∧
        (∃ rects, domain.TiledBy rects ∧ (cells.map DomainCell.rect).StartOf rects) ∧
        (f.Total → cells.panic? = none) ∧
        (∀ cell ∈ cells.items,
          eval ((cell.rect.x0 + cell.rect.x1) / 2) ((cell.rect.y0 + cell.rect.y1) / 2) = .ok cell.color) ∧
        ∀ whole, evalCorners eval domain = .ok whole → ∀ r corners depth fuel,
          Calls eval p.delta domain whole 0 p.maxDepth r corners depth fuel → evalCorners eval r = .ok corners) ∧
    ∀ ts f, s.kind = .triangles ts f →
      cells? s precision = some (.flatMap ts (triangleParts s p)) ∧
        ∀ t : Triangle Rat Float32,
          (∃ parts, t.TiledBy parts ∧ ((triangleParts s p t).map Prod.fst).StartOf (parts.map triangleOutline)) ∧
          ((∀ g, f = some g → g.Total) → (triangleParts s p t).panic? = none) := by
  refine ⟨fun x0 x1 y0 y1 matrix f hk hx hy => ⟨?_, ?_, ?_, ?_, ?_⟩, fun ts f hk => ⟨?_, fun t => ⟨?_, ?_⟩⟩⟩
  · rw [cells?, hk]
  · exact functionCells_tile _ _ ⟨hx, hy⟩ _
  · exact fun total => functionCells_total fun x y => total _
  · intro cell hc
    obtain ⟨_, _, _, -, -, center, -⟩ := call_of_mem_functionCells hc
    rwa [evalCenter_eq] at center
  · exact fun whole hw r corners depth fuel call => call.corners hw
  · rw [cells?, hk]
  · refine ⟨_, t.triangleCells_tile (precision.get s.type).delta 0 (precision.get s.type).maxDepth, ?_⟩
    have start := (triangleParts_startOf (s := s) (precision.get s.type) t).map Prod.fst
    rwa [List.map_map] at start ⊢
  · exact fun total => triangleParts_total total hk t

def wideShading : Shading Rat :=
  ⟨1, .function 0 2 0 1 .identity ⟨[.exponential [(0, 2)] none [0] [1] 1]⟩, .deviceGray, none, none, false⟩

def cornerTriangle : Triangle Rat Float32 := ⟨⟨⟨0, 0⟩, [0]⟩, ⟨⟨4, 0⟩, [1]⟩, ⟨⟨0, 4⟩, [0]⟩⟩

def cornerMesh : Shading Rat := ⟨4, .triangles [cornerTriangle] none, .deviceGray, none, none, false⟩

theorem wide_domain_tiled :
    (∃ cells : Emission (DomainCell Rat Float32),
      cells? wideShading .default = some (cells.map fun cell => (domainOutline .identity cell.rect, cell.color)) ∧
      Rect.TiledBy ⟨0, 0, 2, 1⟩ (cells.items.map DomainCell.rect)) ∧
    (∃ parts, cornerTriangle.TiledBy parts ∧
      ((triangleParts cornerMesh (ShadingPrecision.default.get 4) cornerTriangle).map Prod.fst).items =
        parts.map triangleOutline) ∧
    cornerTriangle.area = 8 := by
  obtain ⟨drawn, ⟨rects, tiled, all⟩, panics, -⟩ :=
    (cells_tile wideShading .default).1 _ _ _ _ _ _ rfl (by norm_num) (by norm_num)
  obtain ⟨-, triangles⟩ := (cells_tile cornerMesh .default).2 _ _ rfl
  obtain ⟨⟨parts, tiled', all'⟩, panics'⟩ := triangles cornerTriangle
  have whole := all.whole (by rw [Emission.panic?_map]; exact panics (ColorFunction.total_iff.mpr (.inl rfl)))
  have whole' := all'.whole (by rw [Emission.panic?_map]; exact panics' fun g hg => by cases hg)
  refine ⟨⟨_, drawn, ?_⟩, ⟨parts, tiled', whole'⟩, ?_⟩
  · subst whole
    exact tiled
  · norm_num [Triangle.area, Triangle.signedArea, PdfContent.signedArea, cornerTriangle]

end Shading

end PdfContent
