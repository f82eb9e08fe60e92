import PdfContent.Proofs.Shading.Budget
/-!
# Edges — how close the colors of neighboring corners are

Below the greatest depth a patch is a cell only if the colors at both ends of each of its edges are close.  Of a triangle
two edges are compared, and of a rectangle two sides and the two diagonals, so its corners are not gone around.  The
colors at the ends of the edges that are left out need not be close to each other, but there is a corner that both of
them are close to (`neighbors_close`, `third_edge_wide`).
-/
namespace PdfContent

open Scalar

variable {α γ : Type}

abbrev EdgeColors (γ : Type) := List γ × List γ

namespace Tessellation.Corners

variable (c : Corners γ)

def verticals : List (EdgeColors γ) := [(c.c00, c.c01), (c.c10, c.c11)]

/-- The sides of a rectangle at `y1` and at `y0`. -/
def horizontals : List (EdgeColors γ) := [(c.c01, c.c11), (c.c10, c.c00)]

end Tessellation.Corners

namespace Triangle

variable (t : Triangle α γ)

def colors : List (List γ) := [t.a.color, t.b.color, t.c.color]

def middleEdges : List (EdgeColors γ) := [(t.a.color, t.b.color), (t.b.color, t.c.color)]

def lastEdge : EdgeColors γ := (t.a.color, t.c.color)

end Triangle

def Patch.edges (p : Patch α γ) : List (EdgeColors γ) :=
  [(p.c00, p.c01), (p.c01, p.c11), (p.c11, p.c10), (p.c10, p.c00)]

namespace Tessellation

variable [Scalar γ]

/-- No component that two colors both have differs by more than `delta`. -/
def Within (delta : γ) (a b : List γ) : Prop :=
  ∀ (i : Nat) (x y : γ), a[i]? = some x → b[i]? = some y → le (abs (x - y)) delta = true

theorem close_iff {delta : γ} {a b : List γ} : close delta a b = true ↔ Within delta a b := by
  unfold close Within
  rw [List.all_eq_true]
  constructor
  · intro h i x y hx hy
    exact h (x, y) (List.mem_of_getElem? (List.getElem?_zip_eq_some.mpr ⟨hx, hy⟩))
  · rintro h ⟨x, y⟩ hxy
    obtain ⟨i, hi⟩ := List.mem_iff_getElem?.mp hxy
    obtain ⟨hx, hy⟩ := List.getElem?_zip_eq_some.mp hi
    exact h i x y hx hy

def Narrow (delta : γ) (e : EdgeColors γ) : Prop := Within delta e.1 e.2

/-- One of some corners has a color that those at both ends of the edge are close to. -/
def Bridged (delta : γ) (corners : List (List γ)) (e : EdgeColors γ) : Prop :=
  ∃ color ∈ corners, Within delta e.1 color ∧ Within delta color e.2

theorem Corners.areClose_sides {delta : γ} {c : Corners γ} (h : c.areClose delta = true) :
    (∀ e ∈ c.verticals, Narrow delta e) ∧ ∀ e ∈ c.horizontals, Bridged delta c.colors e := by
  simp only [areClose, Bool.and_eq_true, close_iff] at h
  -- the diagonals lead from one end of each of the sides that are left out to a corner beside its other end
  obtain ⟨⟨⟨left, falling⟩, right⟩, rising⟩ := h
  have third : c.c10 ∈ c.colors := .tail _ (.tail _ (.head _))
  have last : c.c11 ∈ c.colors := .tail _ (.tail _ (.tail _ (.head _)))
  simp only [verticals, horizontals, List.forall_mem_cons]
  exact ⟨⟨left, right, List.forall_mem_nil _⟩, ⟨_, third, falling, right⟩, ⟨_, last, right, rising⟩,
    List.forall_mem_nil _⟩

theorem triangleIsClose_edges {delta : γ} {t : Triangle α γ} (h : triangleIsClose delta t = true) :
    (∀ e ∈ t.middleEdges, Narrow delta e) ∧ Bridged delta t.colors t.lastEdge := by
  simp only [triangleIsClose, Bool.and_eq_true, close_iff] at h
  obtain ⟨first, second⟩ := h
  have middle : t.b.color ∈ t.colors := .tail _ (.head _)
  simp only [Triangle.middleEdges, List.forall_mem_cons]
  exact ⟨⟨first, second, List.forall_mem_nil _⟩, _, middle, first, second⟩

theorem patchIsClose_edges {delta : γ} {p : Patch α γ} (h : patchIsClose delta p = true) :
    ∀ e ∈ p.edges, Narrow delta e := by
  simp only [patchIsClose, Bool.and_eq_true, close_iff] at h
  obtain ⟨⟨⟨top, right⟩, bottom⟩, left⟩ := h
  simp only [Patch.edges, List.forall_mem_cons]
  exact ⟨top, right, bottom, left, List.forall_mem_nil _⟩

variable [Scalar α]

/-! ## Cells that might have been split -/

theorem functionCells_sides {eval : α → α → Checked (List γ)} {delta : γ} {r : Rect α} {maxDepth : Nat} :
    ∀ cell ∈ (functionCells eval delta r maxDepth).items, cell.depth < maxDepth →
      ∃ corners, evalCorners eval cell.rect = .ok corners ∧ (∀ e ∈ corners.verticals, Narrow delta e) ∧
        ∀ e ∈ corners.horizontals, Bridged delta corners.colors e := by
  intro cell hc low
  obtain ⟨whole, corners, n, hw, call, -, stop⟩ := call_of_mem_functionCells hc
  have sum := call.depth_add
  have uniform := stop.resolve_left (by omega)
  exact ⟨corners, call.corners hw, Corners.areClose_sides (Bool.and_eq_true_iff.mp uniform).1⟩

theorem triangleCells_edges {delta : γ} {t : Triangle α γ} {maxDepth : Nat} :
    ∀ cell ∈ triangleCells delta t 0 maxDepth, cell.2 < maxDepth →
      (∀ e ∈ cell.1.middleEdges, Narrow delta e) ∧ Bridged delta cell.1.colors cell.1.lastEdge := by
  rw [triangleCells_eq]
  exact fun cell hc low => triangleIsClose_edges (Subdivision.done_of_mem hc (by rwa [Nat.zero_add]))

theorem patchCells_edges {delta : γ} {p : Patch α γ} {start maxDepth : Nat} :
    ∀ cell ∈ patchCells delta p start (maxDepth - start), cell.2 < maxDepth → ∀ e ∈ cell.1.edges, Narrow delta e := by
  rw [patchCells_eq]
  exact fun cell hc low => patchIsClose_edges (Subdivision.done_of_mem hc (by omega))

end Tessellation

namespace Shading

variable [Scalar α]

open Tessellation

/-- **The colors of neighboring corners of a cell.**  In a cell that might have been split once more the ends of an edge
have colors that differ by at most `delta` in every component, for every edge of a patch, for two edges of a triangle and
for the sides of a rectangle at `x0` and `x1`.  For the third edge of a triangle and the two other sides of a rectangle
there is a corner of the cell that both ends are as close to.  Where a mesh has a function for its colors, what its
corners have and what is compared are the inputs of that function. -/
theorem neighbors_close {st : Store} {o : Object} {s : Shading α} (h : Shading.ofObject st o = .ok s)
    (precision : ShadingPrecision) :
    let p := precision.get s.type
    (s.type = 1 → ∃ x0 x1 y0 y1 matrix f, s.kind = .function x0 x1 y0 y1 matrix f ∧
      let eval := fun x y => f.eval [toFloat32 x, toFloat32 y]
      let domain : Rect α := ⟨x0, y0, x1, y1⟩
      let cells := functionCells eval p.delta domain p.maxDepth
      cells? s precision = some (cells.map fun cell => (domainOutline matrix cell.rect, cell.color)) ∧
      ∀ cell ∈ cells.items, cell.depth < p.maxDepth → ∃ corners, evalCorners eval cell.rect = .ok corners ∧
        (∀ e ∈ corners.verticals, Narrow p.delta e) ∧ ∀ e ∈ corners.horizontals, Bridged p.delta corners.colors e) ∧
    (s.type = 4 ∨ s.type = 5 → ∃ ts f, s.kind = .triangles ts f ∧
      cells? s precision = some (.flatMap ts (triangleParts s p)) ∧
      ∀ t : Triangle α Float32, ∀ cell ∈ triangleCells p.delta t 0 p.maxDepth, cell.2 < p.maxDepth →
        (∀ e ∈ cell.1.middleEdges, Narrow p.delta e) ∧ Bridged p.delta cell.1.colors cell.1.lastEdge) ∧
    (s.type = 6 ∨ s.type = 7 → ∃ ps f, s.kind = .patches ps f ∧
      cells? s precision = some (.flatMap ps (patchParts s p (startDepth ps.length))) ∧
      ∀ patch : Patch α Float32, ∀ cell ∈ patchCells p.delta patch (startDepth ps.length)
          (p.maxDepth - startDepth ps.length), cell.2 < p.maxDepth → ∀ e ∈ cell.1.edges, Narrow p.delta e) := by
  intro p
  refine ⟨fun one => ?_, fun mesh => ?_, fun mesh => ?_⟩
  · obtain ⟨x0, x1, y0, y1, matrix, f, hk⟩ := kind_of_type_one h one
    exact ⟨x0, x1, y0, y1, matrix, f, hk, by rw [cells?, hk], functionCells_sides⟩
  · obtain ⟨ts, f, hk⟩ := kind_of_triangle_type h mesh
    exact ⟨ts, f, hk, by rw [cells?, hk], fun t => triangleCells_edges⟩
  · obtain ⟨ps, f, hk⟩ := kind_of_patch_type h mesh
    exact ⟨ps, f, hk, by rw [cells?, hk], fun patch => patchCells_edges⟩

def grayMesh : Stream :=
  let number (i : Int) : Object := .num (.int i)
  ⟨⟨[("BitsPerComponent", number 8), ("BitsPerCoordinate", number 8), ("BitsPerFlag", number 8),
    ("ColorSpace", .name "DeviceGray"), ("Decode", .array ([0, 255, 0, 255, 0, 1].map number)),
    ("ShadingType", number 4)]⟩, [0, 0, 0, 0, 0, 100, 0, 100, 0, 0, 100, 200]⟩

def grayTriangle : Triangle Float Float32 := ⟨⟨⟨0, 0⟩, [0]⟩, ⟨⟨100, 0⟩, [0.39215687]⟩, ⟨⟨0, 100⟩, [0.78431374]⟩⟩

/-- The triangle is drawn in one color, although its last corner differs from its first by more than the precision
allows. -/
theorem third_edge_wide : ∃ s : Shading Float, Shading.ofObject .empty (.stream grayMesh) = .ok s ∧ s.type = 4 ∧
    cells? s .default = some (.one (triangleOutline grayTriangle, grayTriangle.a.color)) ∧
    ¬Narrow 0.5 grayTriangle.lastEdge ∧
    (∀ e ∈ grayTriangle.middleEdges, Narrow 0.5 e) ∧ Bridged 0.5 grayTriangle.colors grayTriangle.lastEdge := by
  obtain ⟨s, h, type, kind⟩ : ∃ s : Shading Float, Shading.ofObject .empty (.stream grayMesh) = .ok s ∧ s.type = 4 ∧
      s.kind = .triangles [grayTriangle] none := ⟨_, rfl, rfl, rfl⟩
  have whole : triangleCells 0.5 grayTriangle 0 6 = [(grayTriangle, 0)] := by
    rw [triangleCells, if_pos (by decide)]
  obtain ⟨ts, f, kind', drawn, close⟩ := (neighbors_close h .default).2.1 (.inl type)
  obtain ⟨rfl, rfl⟩ : [grayTriangle] = ts ∧ none = f := by simpa [kind] using kind'
  have precision : ShadingPrecision.default.get s.type = ⟨0.5, 6⟩ := type ▸ rfl
  rw [precision] at drawn close
  obtain ⟨narrow, bridged⟩ := close grayTriangle (grayTriangle, 0) (whole ▸ List.mem_singleton_self _) (by decide)
  have part : triangleParts s ⟨0.5, 6⟩ grayTriangle = .one (triangleOutline grayTriangle, grayTriangle.a.color) := by
    have color : s.vertexColor grayTriangle.a.color = .ok grayTriangle.a.color := by
      unfold vertexColor
      rw [kind]
    rw [triangleParts, whole, Emission.flatMap_cons]
    exact congrArg (· ++ Emission.nil) (Emission.after_eq color)
  refine ⟨s, h, type, ?_, ?_, narrow, bridged⟩
  · rw [drawn, Emission.flatMap_cons, part]
    rfl
  · rw [Narrow, ← close_iff]
    decide

end Shading

end PdfContent
