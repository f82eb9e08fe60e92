import Mathlib.Algebra.Group.Nat.Defs
import PdfContent.Proofs.Shading.Subdivision
/-!
# Budget — how many cells a shading is split into

The domain of a function, triangles and patches are split by three recursions that stop at different colors, but all of
them put four parts in the place of one region.  So each split adds three cells (`WithinBudget.split`), whatever the
colors are and however they compare: a test that is never true, as those of a NaN, only splits up to the greatest depth.
The domain of a function is one cell only if it is not split at all (`functionCells_length_eq_one`).
-/
namespace PdfContent

open Scalar

namespace Tessellation

variable {α γ : Type}

def Corners.colors (c : Corners γ) : List (List γ) := [c.c00, c.c01, c.c10, c.c11]

/-- The numbers of cells that a region may be split into `depth` times. -/
structure WithinBudget (depth n : Nat) : Prop where
  threes : n % 3 = 1
  positive : 1 ≤ n
  bounded : n ≤ 4 ^ depth

namespace WithinBudget

variable {depth a b c d : Nat}

theorem one (depth : Nat) : WithinBudget depth 1 := ⟨rfl, Nat.le_refl 1, Nat.one_le_pow _ _ (by decide)⟩

/-- Four parts that may each be split once less. -/
theorem split (ha : WithinBudget depth a) (hb : WithinBudget depth b) (hc : WithinBudget depth c)
    (hd : WithinBudget depth d) : WithinBudget (depth + 1) (a + b + c + d) where
  threes := by
    have := ha.threes
    have := hb.threes
    have := hc.threes
    have := hd.threes
    omega
  positive := by
    have := ha.positive
    omega
  bounded := by
    have := ha.bounded
    have := hb.bounded
    have := hc.bounded
    have := hd.bounded
    rw [Nat.pow_succ]
    omega

/-- What is more than one cell is at least four. -/
theorem four_le (h : WithinBudget depth a) (ne : a ≠ 1) : 4 ≤ a := by
  have := h.threes
  have := h.positive
  omega

theorem flatMap {β δ : Type} {cells : β → List δ} (parts : List β) (four : parts.length = 4)
    (h : ∀ part, WithinBudget depth (cells part).length) : WithinBudget (depth + 1) (parts.flatMap cells).length := by
  match parts, four with
  | [p, q, r, s], _ =>
    simp only [List.flatMap_cons, List.flatMap_nil, List.append_nil, List.length_append, ← Nat.add_assoc]
    exact (h p).split (h q) (h r) (h s)

/-- What is split gives more than one cell. -/
theorem one_lt_flatMap {β δ : Type} {cells : β → List δ} (parts : List β) (four : parts.length = 4)
    (h : ∀ part, WithinBudget depth (cells part).length) : 1 < (parts.flatMap cells).length := by
  match parts, four with
  | [p, q, r, s], _ =>
    have := (h p).positive
    have := (h q).positive
    simp only [List.flatMap_cons, List.length_append]
    omega

end WithinBudget

/-- A region whose parts are always four has as many cells as its splits give. -/
theorem cells_budget {β : Type} (s : Subdivision β) (four : ∀ b, (s.split b).length = 4) (fuel depth : Nat) (b : β) :
    WithinBudget fuel (s.cells b depth fuel).length := by
  induction fuel generalizing depth b with
  | zero => exact .one 0
  | succ fuel ih =>
    rw [Subdivision.cells]
    split
    · exact .one _
    · exact .flatMap (s.split b) (four b) (ih (depth + 1))

theorem cells_length_eq_one {β : Type} (s : Subdivision β) (four : ∀ b, (s.split b).length = 4) {fuel depth : Nat} {b : β} :
    (s.cells b depth fuel).length = 1 ↔ fuel = 0 ∨ s.done b depth = true := by
  cases fuel with
  | zero => exact ⟨fun _ => .inl rfl, fun _ => rfl⟩
  | succ fuel =>
    rw [Subdivision.cells]
    split
    case isTrue done => exact ⟨fun _ => .inr done, fun _ => rfl⟩
    case isFalse undone =>
      -- four parts, of which each has some cell
      have more := WithinBudget.one_lt_flatMap (s.split b) (four b) (cells_budget s four fuel (depth + 1))
      constructor
      · exact fun one => absurd one (Nat.ne_of_gt more)
      · rintro (hz | done)
        · cases hz
        · exact absurd done undone

/-- Not more values than a region may be split into, and without a panic as many as its splits give. -/
structure KeepsBudget {β : Type} (depth : Nat) (x : Emission β) : Prop where
  bounded : x.items.length ≤ 4 ^ depth
  within : x.panic? = none → WithinBudget depth x.items.length

theorem keepsBudget_of_startOf {β : Type} {depth : Nat} {x : Emission β} {all : List β} (h : x.StartOf all)
    (budget : WithinBudget depth all.length) : KeepsBudget depth x where
  bounded := Nat.le_trans h.length_le budget.bounded
  within none := (h.whole none).symm ▸ budget

/-! ## The domain of a function -/

variable {eval : α → α → Checked (List γ)} {r : Rect α}

theorem evalCorners_total (total : ∀ x y, ∃ color, eval x y = .ok color) :
    ∃ corners, evalCorners eval r = .ok corners := by
  obtain ⟨c00, h00⟩ := total r.x0 r.y0
  obtain ⟨c01, h01⟩ := total r.x0 r.y1
  obtain ⟨c10, h10⟩ := total r.x1 r.y0
  obtain ⟨c11, h11⟩ := total r.x1 r.y1
  exact ⟨⟨c00, c01, c10, c11⟩, evalCorners_eq_ok_iff.mpr ⟨h00, h01, h10, h11⟩⟩

variable [Scalar α]

theorem evalParts_total (total : ∀ x y, ∃ color, eval x y = .ok color) {corners : Corners γ} {center : List γ} :
    ∃ parts, evalParts eval r corners center = .ok parts := by
  obtain ⟨left, hl⟩ := total r.x0 (ofFloat 0.5 * (r.y0 + r.y1))
  obtain ⟨right, hr⟩ := total r.x1 (ofFloat 0.5 * (r.y0 + r.y1))
  obtain ⟨bottom, hb⟩ := total (ofFloat 0.5 * (r.x0 + r.x1)) r.y0
  obtain ⟨top, ht⟩ := total (ofFloat 0.5 * (r.x0 + r.x1)) r.y1
  simp only [evalParts, hl, hr, hb, ht]
  exact ⟨_, rfl⟩

variable [Scalar γ]

/-- Whether the colors at the corners of a rectangle are close, and none of them differs from the one at its center in
any component. -/
def Constant (eval : α → α → Checked (List γ)) (delta : γ) (r : Rect α) : Prop :=
  ∃ corners center, evalCorners eval r = .ok corners ∧ evalCenter eval r = .ok center ∧
    corners.areClose delta = true ∧ ∀ corner ∈ corners.colors, close zero corner center = true

variable {delta : γ} {maxDepth : Nat}

theorem isUniform_iff {corners : Corners γ} {center : List γ} :
    isUniform delta corners center 0 = true ↔
      corners.areClose delta = true ∧ ∀ corner ∈ corners.colors, close zero corner center = true := by
  simp [isUniform, Corners.colors, and_assoc]

theorem center_of_domainCells {corners : Corners γ} {depth fuel : Nat}
    (none : (domainCells eval delta r corners depth fuel).panic? = none) : ∃ center, evalCenter eval r = .ok center := by
  cases fuel with
  | zero =>
    obtain ⟨center, hc, -⟩ := Emission.panic?_after.mp none
    exact ⟨center, hc⟩
  | succ fuel =>
    obtain ⟨center, hc, -⟩ := Emission.panic?_after.mp none
    exact ⟨center, hc⟩

theorem domainCells_budget (corners : Corners γ) (depth fuel : Nat) :
    KeepsBudget fuel (domainCells eval delta r corners depth fuel) := by
  refine keepsBudget_of_startOf (domainCells_startOf eval delta fuel depth r corners) ?_
  rw [List.length_map]
  exact cells_budget (domainSubdivision (known eval) delta) (fun _ => rfl) fuel depth (r, corners)

theorem functionCells_budget : KeepsBudget maxDepth (functionCells eval delta r maxDepth) := by
  obtain ⟨corners, -, he⟩ | ⟨p, -, he⟩ := Emission.after_cases (evalCorners eval r) fun corners =>
    domainCells eval delta r corners 0 maxDepth
  · rw [functionCells, he]
    exact domainCells_budget corners 0 maxDepth
  · rw [functionCells, he]
    exact ⟨Nat.zero_le _, fun none => by cases none⟩

/-- The whole domain is one cell if it must not be split or the function is constant over it. -/
theorem functionCells_length_eq_one (none : (functionCells eval delta r maxDepth).panic? = none) :
    (functionCells eval delta r maxDepth).items.length = 1 ↔ maxDepth = 0 ∨ Constant eval delta r := by
  obtain ⟨corners, hr, none⟩ := Emission.panic?_after.mp none
  obtain ⟨center, hc⟩ := center_of_domainCells none
  have all := (domainCells_startOf eval delta maxDepth 0 r corners).whole none
  rw [functionCells, Emission.after_eq hr, all, List.length_map, cells_length_eq_one _ fun _ => rfl]
  refine or_congr_right ?_
  show isUniform delta corners (centerColor (known eval) r) 0 = true ↔ _
  rw [show centerColor (known eval) r = center from known_eq hc, isUniform_iff]
  constructor
  · exact fun h => ⟨corners, center, hr, hc, h⟩
  · rintro ⟨corners', center', hr', hc', h⟩
    cases hr.symm.trans hr'
    cases hc.symm.trans hc'
    exact h

theorem domainCells_total (total : ∀ x y, ∃ color, eval x y = .ok color) (corners : Corners γ) (depth fuel : Nat) :
    (domainCells eval delta r corners depth fuel).panic? = none := by
  induction fuel generalizing r corners depth with
  | zero =>
    obtain ⟨center, hc⟩ : ∃ center, evalCenter eval r = .ok center := total _ _
    exact Emission.panic?_after.mpr ⟨center, hc, rfl⟩
  | succ fuel ih =>
    obtain ⟨center, hc⟩ : ∃ center, evalCenter eval r = .ok center := total _ _
    rw [domainCells, Emission.after_eq hc]
    split
    · rfl
    · obtain ⟨parts, hp⟩ := evalParts_total total
      rw [Emission.after_eq hp]
      exact Emission.panic?_flatMap.mpr fun part _ => ih part.2 (depth + 1)

theorem functionCells_total (total : ∀ x y, ∃ color, eval x y = .ok color) :
    (functionCells eval delta r maxDepth).panic? = none := by
  obtain ⟨corners, hr⟩ := evalCorners_total total
  exact Emission.panic?_after.mpr ⟨corners, hr, domainCells_total total corners 0 maxDepth⟩

end Tessellation

namespace ColorFunction

/-- The function has a color for all inputs. -/
def Total (f : ColorFunction) : Prop := ∀ inputs, ∃ color, f.eval inputs = .ok color

/-- Of several functions each has to have an output wherever it is evaluated. -/
theorem total_iff {f : ColorFunction} :
    f.Total ↔ f.functions.length = 1 ∨ ∀ g ∈ f.functions, ∀ inputs, g.eval inputs ≠ [] := by
  unfold Total eval
  constructor
  · intro h
    split at h
    case h_1 g hg => exact .inl (congrArg List.length hg)
    case h_2 gs _ =>
      refine .inr fun g hg inputs empty => ?_
      obtain ⟨first, hf⟩ := Checked.exists_mapM_eq_ok_iff.mp (h inputs) g hg
      rw [empty] at hf
      cases hf
  · intro h inputs
    split
    case h_1 g _ => exact ⟨g.eval inputs, rfl⟩
    case h_2 gs several =>
      refine Checked.exists_mapM_eq_ok_iff.mpr fun g hg => ?_
      rcases h with one | outputs
      · obtain ⟨g', hg'⟩ := List.length_eq_one_iff.mp one
        exact absurd hg' (several g')
      · obtain ⟨first, rest, he⟩ := List.exists_cons_of_ne_nil (outputs g hg inputs)
        exact ⟨first, by rw [he]⟩

end ColorFunction

def ShadingKind.types : ShadingKind α → List Nat
  | function .. => [1]
  | axial .. => [2]
  | radial .. => [3]
  | triangles .. => [4, 5]
  | patches .. => [6, 7]

namespace Shading

variable {α : Type} [Scalar α]

theorem readFunctionKind_types (st : Store) (d : Dict) :
    Yields (fun kind => kind.types = [1]) (readFunctionKind st d : Except Diagnostic (ShadingKind α)) := by
  refine .bind fun f => ?_
  split
  · exact .pure rfl
  · exact .pure rfl

theorem readGradientKind_types (st : Store) (d : Dict) (radial : Bool) :
    Yields (fun kind => kind.types = [2 + radial.toNat])
      (readGradientKind st d radial : Except Diagnostic (ShadingKind α)) := by
  unfold readGradientKind
  dsimp only
  split
  · exact .bind fun _ => .pure rfl
  · exact .bind fun _ => .pure rfl
  · exact .throw _

theorem readMeshKind_types (st : Store) (s : Stream) {type : Nat} (space : ColorSpace) (low : 4 ≤ type)
    (high : type ≤ 7) :
    Yields (fun kind => type ∈ kind.types)
      (readMeshKind st s type space : Except Diagnostic (ShadingKind α)) := by
  unfold readMeshKind
  dsimp only
  split
  all_goals
    refine .bind fun f => .bind fun format => .bind fun data? => ?_
    split
    case h_2 => exact .throw _
    split
    case h_1.isTrue h4 => exact .pure (by simp [ShadingKind.types, eq_of_beq h4])
    case h_1.isFalse h4 =>
    split
    case isTrue h5 =>
      split
      · exact .pure (by simp [ShadingKind.types, eq_of_beq h5])
      · exact .throw _
    case isFalse h5 =>
      refine .pure ?_
      simp only [beq_iff_eq] at h4 h5
      simp only [ShadingKind.types, List.mem_cons, List.not_mem_nil, or_false]
      omega

/-- What is read has a kind of its type. -/
theorem type_mem_types (st : Store) (o : Object) :
    Yields (fun s => s.type ∈ s.kind.types) (ofObject st o : Except Diagnostic (Shading α)) := by
  unfold ofObject
  dsimp only
  split
  case h_2 => exact .throw _
  case h_1 d _ =>
  split
  case h_2 => exact .throw _
  case h_1 type _ =>
  split
  case h_2 => exact .throw _
  refine .bind fun space => ?_
  split
  case h_1.isTrue => exact .throw _
  split
  case isTrue h =>
    refine .bind_of fun kind hk => .pure ?_
    rw [readFunctionKind_types st d kind hk, eq_of_beq h]
    exact List.mem_singleton_self 1
  split
  case isTrue h =>
    refine .bind_of fun kind hk => .pure ?_
    rw [readGradientKind_types st d _ kind hk]
    rw [Bool.or_eq_true, beq_iff_eq, beq_iff_eq] at h
    rcases h with rfl | rfl <;> exact List.mem_singleton_self _
  split
  case isTrue h =>
    split
    · refine .bind_of fun kind hk => .pure ?_
      rw [Bool.and_eq_true, decide_eq_true_eq, decide_eq_true_eq] at h
      exact readMeshKind_types st _ space h.1 h.2 kind hk
    · exact .throw _
  case isFalse => exact .throw _

section

variable {st : Store} {o : Object} {s : Shading α} (h : ofObject st o = .ok s)
include h

theorem kind_of_type_one (one : s.type = 1) :
    ∃ x0 x1 y0 y1 matrix f, s.kind = .function x0 x1 y0 y1 matrix f := by
  have types := type_mem_types st o s h
  cases hk : s.kind with
  | function x0 x1 y0 y1 matrix f => exact ⟨x0, x1, y0, y1, matrix, f, rfl⟩
  | _ => simp [hk, one, ShadingKind.types] at types

theorem kind_of_triangle_type (mesh : s.type = 4 ∨ s.type = 5) : ∃ ts f, s.kind = .triangles ts f := by
  have types := type_mem_types st o s h
  cases hk : s.kind with
  | triangles ts f => exact ⟨ts, f, rfl⟩
  | _ => rcases mesh with mesh | mesh <;> simp [hk, mesh, ShadingKind.types] at types

theorem kind_of_patch_type (mesh : s.type = 6 ∨ s.type = 7) : ∃ ps f, s.kind = .patches ps f := by
  have types := type_mem_types st o s h
  cases hk : s.kind with
  | patches ps f => exact ⟨ps, f, rfl⟩
  | _ => rcases mesh with mesh | mesh <;> simp [hk, mesh, ShadingKind.types] at types

end

open Tessellation

theorem vertexColor_total {α : Type} {s : Shading α} {f : Option ColorFunction} (total : ∀ g, f = some g → g.Total) {color : Color}
    (hf : (∃ ts, s.kind = .triangles ts f) ∨ ∃ ps, s.kind = .patches ps f) : ∃ color', s.vertexColor color = .ok color' := by
  cases f with
  | none =>
    rcases hf with ⟨_, hk⟩ | ⟨_, hk⟩
    all_goals exact ⟨color, by rw [vertexColor, hk]⟩
  | some g =>
    obtain ⟨color', hc⟩ := total g rfl color
    rcases hf with ⟨_, hk⟩ | ⟨_, hk⟩
    all_goals exact ⟨color', by rw [vertexColor, hk]; exact hc⟩

variable {s : Shading α}

/-- What a triangle is drawn as are its cells, each in the color of its first corner, up to the first one without. -/
theorem triangleParts_startOf (p : Precision) (t : Triangle α Float32) :
    (triangleParts s p t).StartOf ((triangleCells p.delta t 0 p.maxDepth).map fun cell =>
      (triangleOutline cell.1, (s.vertexColor cell.1.a.color).getD [])) :=
  .flatMap_one _ (fun cell : Triangle α Float32 × Nat => s.vertexColor cell.1.a.color)
    (fun cell color => (triangleOutline cell.1, color)) []

theorem patchParts_startOf (p : Precision) (start : Nat) (patch : Patch α Float32) :
    (patchParts s p start patch).StartOf ((patchCells p.delta patch start (p.maxDepth - start)).map fun cell =>
      (patchOutline cell.1, (s.vertexColor cell.1.c00).getD [])) :=
  .flatMap_one _ (fun cell : Patch α Float32 × Nat => s.vertexColor cell.1.c00)
    (fun cell color => (patchOutline cell.1, color)) []

theorem triangleParts_budget (p : Precision) (t : Triangle α Float32) : KeepsBudget p.maxDepth (triangleParts s p t) := by
  refine keepsBudget_of_startOf (triangleParts_startOf p t) ?_
  rw [List.length_map, triangleCells_eq]
  exact cells_budget (triangleSubdivision p.delta) (fun _ => rfl) p.maxDepth 0 t

theorem patchParts_budget (p : Precision) (start : Nat) (patch : Patch α Float32) :
    KeepsBudget (p.maxDepth - start) (patchParts s p start patch) := by
  refine keepsBudget_of_startOf (patchParts_startOf p start patch) ?_
  rw [List.length_map, patchCells_eq]
  exact cells_budget (patchSubdivision p.delta) (fun _ => rfl) (p.maxDepth - start) start patch

variable {f : Option ColorFunction} (total : ∀ g, f = some g → g.Total)
include total

theorem triangleParts_total {ts : List (Triangle α Float32)} (hk : s.kind = .triangles ts f) {p : Precision}
    (t : Triangle α Float32) : (triangleParts s p t).panic? = none := by
  refine Emission.panic?_flatMap.mpr fun cell _ => Emission.panic?_after.mpr ?_
  obtain ⟨color, hc⟩ := vertexColor_total total (.inl ⟨ts, hk⟩)
  exact ⟨color, hc, rfl⟩

theorem patchParts_total {ps : List (Patch α Float32)} (hk : s.kind = .patches ps f) {p : Precision} (start : Nat)
    (patch : Patch α Float32) : (patchParts s p start patch).panic? = none := by
  refine Emission.panic?_flatMap.mpr fun cell _ => Emission.panic?_after.mpr ?_
  obtain ⟨color, hc⟩ := vertexColor_total total (.inr ⟨ps, hk⟩)
  exact ⟨color, hc, rfl⟩

omit total

/-- **Tessellation ends within its budget, unless it panics.**  A shading of a function, of triangles or of patches is
split for every precision, whatever its colors are.  The cells of the domain of a function, of one triangle or of one
patch are not more than the greatest depth allows; the more patches there are, the later they start.  Without a panic they
are one or three more for each split, and those of the domain of a function are one only if it must not be split, or if
the colors at its corners are close and do not differ from the one at its center; else there are at least four.  There is
no panic if the color function is total, as one without several parts is (`ColorFunction.total_iff`). -/
theorem cells_within_budget {st : Store} {o : Object} {s : Shading α} (h : Shading.ofObject st o = .ok s)
    (precision : ShadingPrecision) :
    let p := precision.get s.type
    (s.type = 1 → ∃ x0 x1 y0 y1 matrix f cells, s.kind = .function x0 x1 y0 y1 matrix f ∧
      cells? s precision = some cells ∧ KeepsBudget p.maxDepth cells ∧ (f.Total → cells.panic? = none) ∧
      (cells.panic? = none →
        (cells.items.length = 1 ↔ p.maxDepth = 0 ∨
          Constant (fun x y => f.eval [toFloat32 x, toFloat32 y]) p.delta ⟨x0, y0, x1, y1⟩) ∧
        (cells.items.length ≠ 1 → 4 ≤ cells.items.length))) ∧
    (s.type = 4 ∨ s.type = 5 → ∃ ts f, s.kind = .triangles ts f ∧
      cells? s precision = some (.flatMap ts (triangleParts s p)) ∧
      ∀ t, KeepsBudget p.maxDepth (triangleParts s p t) ∧
        ((∀ g, f = some g → g.Total) → (triangleParts s p t).panic? = none)) ∧
    (s.type = 6 ∨ s.type = 7 → ∃ ps f, s.kind = .patches ps f ∧
      cells? s precision = some (.flatMap ps (patchParts s p (startDepth ps.length))) ∧
      ∀ patch, KeepsBudget (p.maxDepth - startDepth ps.length) (patchParts s p (startDepth ps.length) patch) ∧
        ((∀ g, f = some g → g.Total) → (patchParts s p (startDepth ps.length) patch).panic? = none)) := by
  intro p
  refine ⟨fun one => ?_, fun mesh => ?_, fun mesh => ?_⟩
  · obtain ⟨x0, x1, y0, y1, matrix, f, hk⟩ := kind_of_type_one h one
    let eval (x y : α) : Checked Color := f.eval [toFloat32 x, toFloat32 y]
    let domain : Rect α := ⟨x0, y0, x1, y1⟩
    have budget : KeepsBudget p.maxDepth (functionCells eval p.delta domain p.maxDepth) := functionCells_budget
    refine ⟨x0, x1, y0, y1, matrix, f, _, hk, by rw [cells?, hk], ⟨?_, ?_⟩, ?_, fun none => ?_⟩
    · exact Nat.le_trans (Nat.le_of_eq (List.length_map _)) budget.bounded
    · exact fun none => (List.length_map _).symm ▸ budget.within none
    · exact fun total => functionCells_total fun x y => total _
    · rw [show (Emission.map _ _).items.length = _ from List.length_map _]
      exact ⟨functionCells_length_eq_one none, (budget.within none).four_le⟩
  · obtain ⟨ts, f, hk⟩ := kind_of_triangle_type h mesh
    exact ⟨ts, f, hk, by rw [cells?, hk], fun t => ⟨triangleParts_budget p t, fun total => triangleParts_total total hk t⟩⟩
  · obtain ⟨ps, f, hk⟩ := kind_of_patch_type h mesh
    exact ⟨ps, f, hk, by rw [cells?, hk], fun patch => ⟨patchParts_budget p _ patch, fun total =>
      patchParts_total total hk _ patch⟩⟩

/-- A shading of the unit square with an exponential function for each of some pairs of outputs at 0 and at 1. -/
def shadedSquare (outputs : List (List Int × List Int)) : Dict :=
  let number (i : Int) : Object := .num (.int i)
  let power (ends : List Int × List Int) : Object :=
    .dict ⟨[("C0", .array (ends.1.map number)), ("C1", .array (ends.2.map number)),
      ("Domain", .array [number 0, number 1]), ("FunctionType", number 2), ("N", number 1)]⟩
  ⟨[("ColorSpace", .name "DeviceGray"), ("Function", .array (outputs.map power)), ("ShadingType", number 1)]⟩

/-- With one function up to 4096 cells by default, and one if nothing may be split; with two functions that have no
output none, since the first corner has no color. -/
theorem square_within_budget :
    (∃ s : Shading Float, Shading.ofObject .empty (.dict (shadedSquare [([0], [1])])) = .ok s ∧ s.type = 1 ∧
      (∃ cells, cells? s .default = some cells ∧ cells.panic? = none ∧ cells.items.length % 3 = 1 ∧
        cells.items.length ≤ 4096) ∧
      ∃ cells, cells? s (ShadingPrecision.default.set 1 0.5 0) = some cells ∧ cells.items.length = 1) ∧
    ∃ s : Shading Float, Shading.ofObject .empty (.dict (shadedSquare [([], []), ([], [])])) = .ok s ∧
      cells? s .default = some ⟨[], some .noElement⟩ := by
  refine ⟨?_, _, rfl, rfl⟩
  obtain ⟨s, f, h, type, single, kind⟩ : ∃ (s : Shading Float) (f : ColorFunction),
      Shading.ofObject .empty (.dict (shadedSquare [([0], [1])])) = .ok s ∧ s.type = 1 ∧ f.functions.length = 1 ∧
        s.kind = .function zero one zero one .identity f := ⟨_, _, rfl, rfl, rfl, rfl⟩
  have total : f.Total := ColorFunction.total_iff.mpr (.inl single)
  obtain ⟨_, _, _, _, _, _, cells, hf, some, budget, panics, -⟩ := (cells_within_budget h .default).1 type
  obtain ⟨_, _, _, _, _, _, cells', hf', some', -, panics', one⟩ :=
    (cells_within_budget h (ShadingPrecision.default.set 1 0.5 0)).1 type
  cases kind.symm.trans hf
  cases kind.symm.trans hf'
  rw [type] at budget one
  have within := budget.within (panics total)
  exact ⟨s, h, type, ⟨cells, some, panics total, within.threes, within.bounded⟩, cells', some',
    (one (panics' total)).1.2 (.inl rfl)⟩

end Shading

end PdfContent
