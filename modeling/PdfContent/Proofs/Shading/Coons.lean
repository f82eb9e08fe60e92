import PdfContent.Proofs.Shading.Surface
/-!
# Coons — patches that are given by their boundary alone

The surface between four curves that meet at their ends is the sum of the two ruled surfaces between opposite curves, less
the bilinear one of the corners.  With the interior points that are computed from twelve boundary points, a patch has that
surface in exact numbers (`spanned_surface`); so do all patches of a mesh in which no interior points are stored.
-/
namespace PdfContent

open Scalar

variable {K : Type*} [Field K]

/-- The surface between four curves: one at either end of the first parameter, then of the second. -/
def coons (top bottom left right : Row Rat) (u v : K) : K × K :=
  ((1 - u) • top.curve v + u • bottom.curve v) + ((1 - v) • left.curve u + v • right.curve u) -
    ((1 - u) • ((1 - v) • top.p0.vec + v • top.p3.vec) + u • ((1 - v) • bottom.p0.vec + v • bottom.p3.vec))

namespace Patch

variable {α γ : Type}

def left (p : Patch α γ) : Row α := ⟨p.r0.p0, p.r1.p0, p.r2.p0, p.r3.p0⟩

def right (p : Patch α γ) : Row α := ⟨p.r0.p3, p.r1.p3, p.r2.p3, p.r3.p3⟩

def interior (p : Patch α γ) : List (Point α) := [p.r1.p1, p.r1.p2, p.r2.p2, p.r2.p1]

/-- A patch is put together from exactly what it is read from. -/
theorem ofStreamOrder?_eq_some {boundary interior : List (Point α)} {colors : List (List γ)} {p : Patch α γ} :
    ofStreamOrder? boundary interior colors = some p ↔
      p.boundary = boundary ∧ p.interior = interior ∧ p.corners = colors := by
  constructor
  · intro h
    unfold ofStreamOrder? at h
    split at h
    · cases h
      exact ⟨rfl, rfl, rfl⟩
    · cases h
  · rintro ⟨rfl, rfl, rfl⟩
    rfl

theorem vec_spanned [CharZero K] (a b c d e g h k : Point Rat) :
    (spanned a b c d e g h k).vec = ((1 / 9 : K) • ((-4 : K) • a.vec + (6 : K) • (b.vec + c.vec) -
      (2 : K) • (d.vec + e.vec) + (3 : K) • (g.vec + h.vec) - k.vec) : K × K) := by
  have x : (spanned a b c d e g h k).x =
      1 / 9 * (-4 * a.x + 6 * (b.x + c.x) - 2 * (d.x + e.x) + 3 * (g.x + h.x) - k.x) := rfl
  have y : (spanned a b c d e g h k).y =
      1 / 9 * (-4 * a.y + 6 * (b.y + c.y) - 2 * (d.y + e.y) + 3 * (g.y + h.y) - k.y) := rfl
  ext
  · simp only [Point.vec, x, Prod.smul_mk, Prod.mk_add_mk, Prod.mk_sub_mk, smul_eq_mul]
    push_cast
    ring
  · simp only [Point.vec, y, Prod.smul_mk, Prod.mk_add_mk, Prod.mk_sub_mk, smul_eq_mul]
    push_cast
    ring

/-- The interior points are those that the boundary determines. -/
def Spanned (p : Patch Rat γ) : Prop := p.interior = spannedInterior p.boundary

/-- **The surface of a patch with a spanned interior is that between its boundary curves.** -/
theorem Spanned.surface [CharZero K] {p : Patch Rat γ} (h : p.Spanned) (u v : K) :
    p.surface u v = coons p.r0 p.r3 p.left p.right u v := by
  simp only [Spanned, interior, boundary, spannedInterior, List.cons.injEq, and_true] at h
  obtain ⟨h11, h12, h22, h21⟩ := h
  simp only [Patch.surface, net, Tessellation.Net.surface_eq, coons, left, right, Row.curve_eq, h11, h12, h22, h21,
    vec_spanned]
  module

theorem record?_spanned {f : MeshFormat} {prev : Option (Patch Rat Float32)} {r r' : BitReader} {p : Patch Rat Float32}
    (h : record? f false prev r = some (p, r')) : p.Spanned := by
  -- the own points of the record are followed by its interior, which is either read or, as here, computed from them
  simp only [record?, Option.bind_eq_bind, Option.bind_eq_some_iff] at h
  obtain ⟨⟨flag, r₁⟩, -, ⟨points, colors⟩, -, ⟨own, r₂⟩, -, h⟩ := h
  obtain ⟨⟨ownColors, r₃⟩, -, h⟩ := Option.bind_eq_some_iff.mp h
  obtain ⟨patch, read, h⟩ := Option.bind_eq_some_iff.mp h
  cases h
  obtain ⟨hb, hi, -⟩ := ofStreamOrder?_eq_some.mp read
  exact hi.trans (congrArg spannedInterior hb.symm)

theorem readFrom_spanned (f : MeshFormat) : ∀ (fuel : Nat) (prev : Option (Patch Rat Float32)) (r : BitReader),
    ∀ p ∈ readFrom f false prev fuel r, p.Spanned
  | 0, _, _ => List.forall_mem_nil _
  | fuel + 1, prev, r => by
    unfold readFrom
    split
    case h_1 => exact List.forall_mem_nil _
    case h_2 patch r' hr =>
      exact List.forall_mem_cons.mpr ⟨record?_spanned hr, readFrom_spanned f fuel (some patch) r'⟩

/-- **A boundary spans its Coons surface.**  In exact numbers twelve boundary points and the interior points computed
from them are a patch whose surface is the one between its four boundary curves; and so are all patches that are read
without interior points. -/
theorem spanned_surface [CharZero K] :
    (∀ (boundary : List (Point Rat)) (colors : List (List γ)), boundary.length = 12 → colors.length = 4 →
      ∃ p : Patch Rat γ, ofStreamOrder? boundary (spannedInterior boundary) colors = some p ∧ p.boundary = boundary ∧
        ∀ u v : K, p.surface u v = coons p.r0 p.r3 p.left p.right u v) ∧
    ∀ (f : MeshFormat) (data : Bytes), ∀ p ∈ (readAll f false data : List (Patch Rat Float32)), ∀ u v : K,
      p.surface u v = coons p.r0 p.r3 p.left p.right u v := by
  refine ⟨fun boundary colors twelve four => ?_, fun f data p hp => (readFrom_spanned f _ none _ p hp).surface⟩
  obtain ⟨p, hp⟩ : ∃ p : Patch Rat γ, ofStreamOrder? boundary (spannedInterior boundary) colors = some p := by
    match boundary, twelve, colors, four with
    | [_, _, _, _, _, _, _, _, _, _, _, _], _, [_, _, _, _], _ => exact ⟨_, rfl⟩
  obtain ⟨hb, hi, -⟩ := ofStreamOrder?_eq_some.mp hp
  have spanned : p.Spanned := hi.trans (congrArg spannedInterior hb.symm)
  exact ⟨p, hp, hb, spanned.surface⟩

def raisedEdge : List (Point Rat) :=
  [⟨0, 0⟩, ⟨0, 1⟩, ⟨0, 2⟩, ⟨0, 3⟩, ⟨1, 7⟩, ⟨2, 7⟩, ⟨3, 3⟩, ⟨3, 2⟩, ⟨3, 1⟩, ⟨3, 0⟩, ⟨2, 0⟩, ⟨1, 0⟩]

theorem raisedEdge_surface : ∃ p : Patch Rat Rat,
    ofStreamOrder? raisedEdge (spannedInterior raisedEdge) [[0], [1], [1], [0]] = some p ∧
      p.surface (1 / 2 : ℝ) (1 / 2) = (3 / 2, 3) := by
  obtain ⟨p, hp, hb, surface⟩ := (spanned_surface (K := ℝ) (γ := Rat)).1 raisedEdge [[0], [1], [1], [0]] rfl rfl
  refine ⟨p, hp, ?_⟩
  simp only [boundary, raisedEdge, List.cons.injEq, and_true] at hb
  obtain ⟨h0, h1, h2, h3, h4, h5, h6, h7, h8, h9, h10, h11⟩ := hb
  rw [surface]
  norm_num [coons, Row.curve_eq, left, right, Point.vec, h0, h1, h2, h3, h4, h5, h6, h7, h8, h9, h10, h11]

end Patch

end PdfContent
