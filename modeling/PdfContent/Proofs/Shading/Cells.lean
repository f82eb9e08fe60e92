import PdfContent.Proofs.Shading.Subdivision
/-!
# Cells — the colors of the cells of a shading

A mesh without a color function has as many numbers at every corner as its space has components, and splitting keeps
their number.  Of a color function nothing compares the number of outputs with the space: the cells have complete colors
if the function fits, and else they are what it gives (`cells_of_corners`, `cells_of_function`).
-/
namespace PdfContent

open Scalar

variable {α γ : Type}

/-- Every corner of the triangle carries `n` numbers. -/
structure Triangle.Carries (n : Nat) (t : Triangle α γ) : Prop where
  a : t.a.color.length = n
  b : t.b.color.length = n
  c : t.c.color.length = n

structure Patch.Carries (n : Nat) (p : Patch α γ) : Prop where
  c00 : p.c00.length = n
  c01 : p.c01.length = n
  c10 : p.c10.length = n
  c11 : p.c11.length = n

/-! ## Reading meshes -/

theorem Bytes.length_pairs {β : Type} : ∀ xs : List β, (Bytes.pairs xs).length = xs.length / 2
  | [] | [_] => by simp [Bytes.pairs]
  | _ :: _ :: xs => by
    rw [Bytes.pairs, List.length_cons, length_pairs xs, List.length_cons, List.length_cons]
    omega

namespace MeshFormat

theorem components?_length (f : MeshFormat) : ∀ (ranges : Ranges Float32) (r r' : BitReader) (color : Color),
    f.components? r ranges = some (color, r') → color.length = ranges.length
  | [], r, r', color, h => by
    cases h
    rfl
  | (low, high) :: ranges, r, r', color, h => by
    simp only [components?, Option.bind_eq_bind, Option.bind_eq_some_iff] at h
    obtain ⟨⟨v, r₁⟩, -, ⟨vs, r₂⟩, hvs, h⟩ := h
    cases h
    exact congrArg (· + 1) (components?_length f ranges r₁ r₂ vs hvs)

theorem read_colors (st : Store) (d : Dict) (n : Nat) : Yields (·.colors.length = n) (read st d n) := by
  unfold read
  dsimp only
  split
  split
  split
  case h_1 colors _ =>
    split
    case isTrue => exact .throw _
    case isFalse enough =>
      refine .pure ?_
      rw [List.length_take, Bytes.length_pairs]
      omega
  all_goals exact .throw _

variable [Scalar α] {f : MeshFormat} {r r' : BitReader}

theorem vertex?_length {v : Vertex α Float32} (h : f.vertex? r = some (v, r')) : v.color.length = f.colors.length := by
  simp only [vertex?, Option.bind_eq_bind, Option.bind_eq_some_iff] at h
  obtain ⟨⟨point, r₁⟩, -, ⟨color, r₂⟩, hc, h⟩ := h
  cases h
  exact components?_length f f.colors r₁ r₂ color hc

theorem flagged?_length {v : Nat × Vertex α Float32} (h : f.flagged? r = some (v, r')) :
    v.2.color.length = f.colors.length := by
  simp only [flagged?, Option.bind_eq_bind, Option.bind_eq_some_iff] at h
  obtain ⟨⟨flag, r₁⟩, -, ⟨vertex, r₂⟩, hv, h⟩ := h
  cases h
  exact vertex?_length hv

theorem padded?_length {v : Vertex α Float32} (h : f.padded? r = some (v, r')) : v.color.length = f.colors.length := by
  obtain ⟨⟨vertex, r₁⟩, hv, h⟩ := Option.map_eq_some_iff.mp h
  cases h
  exact vertex?_length hv

theorem forall_records {β : Type} {p : β → Prop} {next? : BitReader → Option (β × BitReader)}
    (h : ∀ r v r', next? r = some (v, r') → p v) : ∀ (fuel : Nat) (r : BitReader), ∀ v ∈ records next? fuel r, p v
  | 0, _ => List.forall_mem_nil _
  | fuel + 1, r => by
    unfold records
    split
    case h_1 => exact List.forall_mem_nil _
    case h_2 v r' hv => exact List.forall_mem_cons.mpr ⟨h r v r' hv, forall_records h fuel r'⟩

end MeshFormat

namespace Triangle

theorem ofFlagged_carries {n : Nat} (prev : Option (Triangle α γ)) (vs : List (Nat × Vertex α γ))
    (hp : ∀ t, prev = some t → t.Carries n) (hv : ∀ v ∈ vs, v.2.color.length = n) :
    ∀ t ∈ ofFlagged prev vs, t.Carries n := by
  have later {t : Triangle α γ} (ht : t.Carries n) : ∀ u, some t = some u → u.Carries n :=
    fun u hu => Option.some.inj hu ▸ ht
  fun_induction ofFlagged prev vs with
  | case1 | case4 | case5 => exact List.forall_mem_nil _
  | case2 v t =>
    exact List.forall_mem_singleton.mpr ⟨(hp t rfl).b, (hp t rfl).c, hv _ List.mem_cons_self⟩
  | case3 v t =>
    exact List.forall_mem_singleton.mpr ⟨(hp t rfl).a, (hp t rfl).c, hv _ List.mem_cons_self⟩
  | case6 v w t u ih | case10 v w x r t u ih =>
    obtain ⟨h, hv⟩ := List.forall_mem_cons.mp hv
    have hu : u.Carries n := ⟨(hp t rfl).b, (hp t rfl).c, h⟩
    exact List.forall_mem_cons.mpr ⟨hu, ih (later hu) hv⟩
  | case7 v w t u ih | case11 v w x r t u ih =>
    obtain ⟨h, hv⟩ := List.forall_mem_cons.mp hv
    have hu : u.Carries n := ⟨(hp t rfl).a, (hp t rfl).c, h⟩
    exact List.forall_mem_cons.mpr ⟨hu, ih (later hu) hv⟩
  | case9 prev v w u r t ih =>
    simp only [List.forall_mem_cons] at hv
    obtain ⟨h, h', h'', hv⟩ := hv
    have ht : t.Carries n := ⟨h, h', h''⟩
    exact List.forall_mem_cons.mpr ⟨ht, ih (later ht) hv⟩
  | case8 | case12 =>
    rename_i ih
    exact ih hp (List.forall_mem_cons.mp hv).2

theorem ofRows_carries {n : Nat} (top bottom : List (Vertex α γ)) (ht : ∀ v ∈ top, v.color.length = n)
    (hb : ∀ v ∈ bottom, v.color.length = n) : ∀ t ∈ ofRows top bottom, t.Carries n := by
  fun_induction ofRows top bottom with
  | case1 a b top c d bottom ih =>
    simp only [List.forall_mem_cons] at ht hb ⊢
    obtain ⟨ha, hb', ht⟩ := ht
    obtain ⟨hc, hd, hb⟩ := hb
    exact ⟨⟨ha, hb', hc⟩, ⟨hb', hd, hc⟩, ih (List.forall_mem_cons.mpr ⟨hb', ht⟩) (List.forall_mem_cons.mpr ⟨hd, hb⟩)⟩
  | case2 => exact List.forall_mem_nil _

theorem ofLattice_carries {n : Nat} (rows : List (List (Vertex α γ))) (h : ∀ r ∈ rows, ∀ v ∈ r, v.color.length = n) :
    ∀ t ∈ ofLattice rows, t.Carries n := by
  fun_induction ofLattice rows with
  | case1 top bottom rows ih =>
    obtain ⟨ht, hr⟩ := List.forall_mem_cons.mp h
    obtain ⟨hb, -⟩ := List.forall_mem_cons.mp hr
    exact List.forall_mem_append.mpr ⟨ofRows_carries top bottom ht hb, ih hr⟩
  | case2 => exact List.forall_mem_nil _

variable [Scalar α]

theorem readFreeForm_carries (f : MeshFormat) (data : Bytes) :
    ∀ t ∈ (readFreeForm f data : List (Triangle α Float32)), t.Carries f.colors.length :=
  ofFlagged_carries none _ (fun t ht => by cases ht)
    (MeshFormat.forall_records (fun _ _ _ => MeshFormat.flagged?_length) _ _)

theorem readLattice_carries (f : MeshFormat) {perRow : Nat} (h : 0 < perRow) (data : Bytes) :
    ∀ t ∈ (readLattice f perRow data : List (Triangle α Float32)), t.Carries f.colors.length := by
  refine ofLattice_carries _ fun row hrow v hv => ?_
  have read : ∀ v ∈ MeshFormat.records f.padded? (MeshFormat.bound data) (.ofBytes data),
      v.color.length = f.colors.length :=
    MeshFormat.forall_records (fun _ _ _ => MeshFormat.padded?_length (α := α)) _ _
  refine read v ?_
  rw [← Bytes.flatten_groups h (MeshFormat.records f.padded? (MeshFormat.bound data) (.ofBytes data))]
  exact List.mem_flatten_of_mem (List.mem_filter.mp hrow |>.1) hv

end Triangle

namespace Patch

theorem forall_readMany {β : Type} {p : β → Prop} {next? : BitReader → Option (β × BitReader)}
    (h : ∀ r v r', next? r = some (v, r') → p v) :
    ∀ (n : Nat) (r r' : BitReader) (vs : List β), readMany next? n r = some (vs, r') → ∀ v ∈ vs, p v
  | 0, r, r', vs, hv => by
    cases hv
    exact List.forall_mem_nil _
  | n + 1, r, r', vs, hv => by
    simp only [readMany, Option.bind_eq_bind, Option.bind_eq_some_iff] at hv
    obtain ⟨⟨v, r₁⟩, hv, ⟨vs, r₂⟩, hvs, heq⟩ := hv
    cases heq
    exact List.forall_mem_cons.mpr ⟨h r v r₁ hv, forall_readMany h n r₁ r₂ vs hvs⟩

theorem Carries.corner {n : Nat} {p : Patch α γ} (h : p.Carries n) : ∀ at_, (p.corner at_).length = n
  | (0, 0) => h.c00
  | (0, 1) => h.c01
  | (1, 0) => h.c10
  | (1, 1) => h.c11

theorem shared?_carries {n flag : Nat} {prev : Option (Patch α γ)} {points : List (Point α)} {colors : List (List γ)}
    (hp : ∀ p, prev = some p → p.Carries n) (h : shared? prev flag = some (points, colors)) :
    ∀ c ∈ colors, c.length = n := by
  unfold shared? at h
  split at h
  · cases h
    exact List.forall_mem_nil _
  split at h
  · cases h
  · obtain ⟨p, hprev, h⟩ := Option.map_eq_some_iff.mp h
    cases h
    intro c hc
    obtain ⟨at_, -, rfl⟩ := List.mem_map.mp hc
    exact (hp p hprev).corner at_

theorem ofStreamOrder?_carries {n : Nat} {boundary interior : List (Point α)} {colors : List (List γ)} {p : Patch α γ}
    (hc : ∀ c ∈ colors, c.length = n) (h : ofStreamOrder? boundary interior colors = some p) : p.Carries n := by
  unfold ofStreamOrder? at h
  split at h
  · cases h
    simp only [List.forall_mem_cons] at hc
    exact ⟨hc.1, hc.2.1, hc.2.2.2.1, hc.2.2.1⟩
  · cases h

/-- The end of a patch record, once its points are known. -/
theorem last_carries {f : MeshFormat} {boundary interior : List (Point α)} {colors : List Color} {r r' : BitReader}
    {p : Patch α Float32} (hc : ∀ c ∈ colors, c.length = f.colors.length)
    (h : (do
      let (own, r) ← readMany f.color? (4 - colors.length) r
      let patch ← ofStreamOrder? boundary interior (colors ++ own)
      return (patch, r.align)) = some (p, r')) : p.Carries f.colors.length := by
  simp only [Option.bind_eq_bind, Option.bind_eq_some_iff] at h
  obtain ⟨⟨own, r₁⟩, hown, patch, hpatch, h⟩ := h
  cases h
  have read : ∀ c ∈ own, c.length = f.colors.length :=
    forall_readMany (fun r v r' => f.components?_length f.colors r r' v) _ _ _ _ hown
  exact ofStreamOrder?_carries (List.forall_mem_append.mpr ⟨hc, read⟩) hpatch

variable [Scalar α]

theorem record?_carries {f : MeshFormat} {tensor : Bool} {prev : Option (Patch α Float32)} {r r' : BitReader}
    {p : Patch α Float32} (hp : ∀ p, prev = some p → p.Carries f.colors.length)
    (h : record? f tensor prev r = some (p, r')) : p.Carries f.colors.length := by
  simp only [record?, Option.bind_eq_bind, Option.bind_eq_some_iff] at h
  obtain ⟨⟨flag, r₁⟩, -, ⟨points, colors⟩, hshared, ⟨own, r₂⟩, -, h⟩ := h
  -- an edge that is shared brings its colors along from the patch before
  have inherited := shared?_carries hp hshared
  cases tensor with
  | false => exact last_carries inherited h
  | true =>
    obtain ⟨⟨interior, r₃⟩, -, h⟩ := Option.bind_eq_some_iff.mp h
    exact last_carries inherited h

theorem readFrom_carries (f : MeshFormat) (tensor : Bool) :
    ∀ (fuel : Nat) (prev : Option (Patch α Float32)) (r : BitReader), (∀ p, prev = some p → p.Carries f.colors.length) →
      ∀ p ∈ readFrom f tensor prev fuel r, p.Carries f.colors.length
  | 0, _, _, _ => List.forall_mem_nil _
  | fuel + 1, prev, r, hp => by
    unfold readFrom
    split
    case h_1 => exact List.forall_mem_nil _
    case h_2 patch r' hr =>
      have first := record?_carries hp hr
      exact List.forall_mem_cons.mpr ⟨first, readFrom_carries f tensor fuel (some patch) r' fun p hp =>
        Option.some.inj hp ▸ first⟩

end Patch

namespace Tessellation

variable [Scalar α] [Scalar γ]

omit [Scalar α] in
theorem length_mean {n : Nat} {a b : List γ} (ha : a.length = n) (hb : b.length = n) : (mean a b).length = n := by
  rw [mean, List.length_zipWith, ha, hb, Nat.min_self]

theorem triangleCells_carries {n : Nat} (delta : γ) : ∀ (fuel depth : Nat) (t : Triangle α γ), t.Carries n →
    ∀ cell ∈ triangleCells delta t depth fuel, cell.1.Carries n
  | 0, _, _, ht => List.forall_mem_singleton.mpr ht
  | fuel + 1, depth, t, ht => by
    have ab : (between t.a t.b).color.length = n := length_mean ht.a ht.b
    have bc : (between t.b t.c).color.length = n := length_mean ht.b ht.c
    have ca : (between t.c t.a).color.length = n := length_mean ht.c ht.a
    have parts : ∀ u ∈ splitTriangle t, u.Carries n := by
      simp only [splitTriangle, List.forall_mem_cons]
      exact ⟨⟨ht.a, ab, ca⟩, ⟨ab, ht.b, bc⟩, ⟨ab, bc, ca⟩, ⟨ca, bc, ht.c⟩, List.forall_mem_nil _⟩
    unfold triangleCells
    split
    · exact List.forall_mem_singleton.mpr ht
    · intro cell hc
      obtain ⟨u, hu, hc⟩ := List.mem_flatMap.mp hc
      exact triangleCells_carries delta fuel (depth + 1) u (parts u hu) cell hc

theorem splitPatch_carries {n : Nat} {p : Patch α γ} (hp : p.Carries n) : ∀ q ∈ splitPatch p, q.Carries n := by
  have top := length_mean hp.c00 hp.c01
  have right := length_mean hp.c01 hp.c11
  have bottom := length_mean hp.c11 hp.c10
  have left := length_mean hp.c10 hp.c00
  have center := length_mean left right
  simp only [splitPatch, List.forall_mem_cons]
  exact ⟨⟨hp.c00, top, left, center⟩, ⟨left, center, hp.c10, bottom⟩, ⟨top, hp.c01, center, right⟩,
    ⟨center, right, bottom, hp.c11⟩, List.forall_mem_nil _⟩

theorem patchCells_carries {n : Nat} (delta : γ) : ∀ (fuel depth : Nat) (p : Patch α γ), p.Carries n →
    ∀ cell ∈ patchCells delta p depth fuel, cell.1.Carries n
  | 0, _, _, hp => List.forall_mem_singleton.mpr hp
  | fuel + 1, depth, p, hp => by
    unfold patchCells
    split
    · exact List.forall_mem_singleton.mpr hp
    · intro cell hc
      obtain ⟨q, hq, hc⟩ := List.mem_flatMap.mp hc
      exact patchCells_carries delta fuel (depth + 1) q (splitPatch_carries hp q hq) cell hc

end Tessellation

/-! ## Shadings -/

def ColorFunction.Fits (n : Nat) (f : ColorFunction) : Prop := ∀ inputs color, f.eval inputs = .ok color → color.length = n

namespace ShadingKind

def function? : ShadingKind α → Option ColorFunction
  | .function _ _ _ _ _ f | .axial _ _ _ f _ | .radial _ _ _ _ _ f _ => some f
  | .triangles _ f | .patches _ f => f

/-- The corners of a mesh without a color function carry `n` numbers. -/
def Carries (n : Nat) : ShadingKind α → Prop
  | .triangles ts none => ∀ t ∈ ts, t.Carries n
  | .patches ps none => ∀ p ∈ ps, p.Carries n
  | _ => True

end ShadingKind

/-- A shading with a background and corners that fit its space, which is not one of patterns. -/
structure Shading.Complete (s : Shading α) : Prop where
  space : s.space.isPattern = false
  background : ∀ color, s.background = some color → color.length = s.space.components
  kind : s.kind.Carries s.space.components

namespace Shading

variable [Scalar α]

theorem readFunctionKind_carries (st : Store) (d : Dict) (n : Nat) :
    Yields (ShadingKind.Carries (α := α) n) (readFunctionKind st d) := by
  refine .bind fun f => ?_
  split
  · exact .pure trivial
  · exact .pure trivial

theorem readGradientKind_carries (st : Store) (d : Dict) (radial : Bool) (n : Nat) :
    Yields (ShadingKind.Carries (α := α) n) (readGradientKind st d radial) := by
  unfold readGradientKind
  dsimp only
  split
  · exact .bind fun _ => .pure trivial
  · exact .bind fun _ => .pure trivial
  · exact .throw _

theorem readMeshKind_carries (st : Store) (s : Stream) (type : Nat) (space : ColorSpace) :
    Yields (ShadingKind.Carries (α := α) space.components) (readMeshKind st s type space) := by
  unfold readMeshKind
  dsimp only
  split
  all_goals
    refine .bind fun f => .bind_of fun format hformat => ?_
    have colors (hf : f = none) : format.colors.length = space.components := by
      subst hf
      exact (MeshFormat.read_colors st s.dict _).mapError _ format hformat
    refine .bind fun data? => ?_
    split
    case h_2 => exact .throw _
    refine .branch ?_ (.branch ?_ ?_)
    case h_1.refine_1 =>
      cases f with
      | some f => exact .pure trivial
      | none => exact .pure (colors rfl ▸ Triangle.readFreeForm_carries format _)
    case h_1.refine_2 =>
      split
      case h_1 perRow hp =>
        cases f with
        | some f => exact .pure trivial
        | none =>
          obtain ⟨-, two⟩ := Option.filter_eq_some_iff.mp hp
          exact .pure (colors rfl ▸ Triangle.readLattice_carries format (Nat.zero_lt_of_lt (of_decide_eq_true two)) _)
      case h_2 => exact .throw _
    case h_1.refine_3 =>
      cases f with
      | some f => exact .pure trivial
      | none => exact .pure (colors rfl ▸ Patch.readFrom_carries format _ _ none _ fun _ h => by cases h)

theorem ofObject_complete (st : Store) (o : Object) :
    Yields Complete (ofObject st o : Except Diagnostic (Shading α)) := by
  unfold ofObject
  dsimp only
  split
  case h_2 => exact .throw _
  case h_1 d _ =>
  split
  case h_2 => exact .throw _
  case h_1 type _ =>
  split
  case h_2 => exact .throw _
  refine .bind fun space => ?_
  split
  case h_1.isTrue => exact .throw _
  case h_1.isFalse flat =>
  have read (kind : ShadingKind α) (h : kind.Carries space.components) : Complete
      ⟨type, kind, space, (st.list? d "Background" : Option (List Float32)).filter (·.length == space.components),
        st.lookup? d "BBox", (st.lookup? d "AntiAlias").getD false⟩ :=
    ⟨eq_false_of_ne_true flat, fun _ hc => beq_iff_eq.mp (Option.filter_eq_some_iff.mp hc).2, h⟩
  refine .branch ?_ (.branch ?_ (.branch ?_ ?_))
  · exact .bind_of fun kind h => .pure (read kind (readFunctionKind_carries st d _ kind h))
  · exact .bind_of fun kind h => .pure (read kind (readGradientKind_carries st d _ _ kind h))
  · split
    · exact .bind_of fun kind h => .pure (read kind (readMeshKind_carries st _ type space kind h))
    · exact .throw _
  · exact .throw _

open Tessellation

/-- The colors of the cells are values of the color function. -/
theorem cells_of_function {s : Shading α} {f : ColorFunction} (hf : s.kind.function? = some f)
    (precision : ShadingPrecision) : ∀ cell ∈ ((cells? s precision).getD .nil).items, ∃ inputs, f.eval inputs = .ok cell.2 := by
  unfold cells?
  dsimp only
  split
  case h_1 g hk =>
    rw [hk] at hf
    cases hf
    refine List.forall_mem_map.mpr fun cell hc => ?_
    obtain ⟨_, _, _, -, -, center, -⟩ := call_of_mem_functionCells hc
    exact ⟨_, center⟩
  case h_2 ts g hk | h_3 ts g hk =>
    rw [hk] at hf
    cases hf
    intro cell hc
    obtain ⟨_, -, hc⟩ := Emission.of_mem_flatMap hc
    obtain ⟨u, -, color, value, rfl⟩ := Emission.of_mem_flatMap_one hc
    unfold vertexColor at value
    rw [hk] at value
    exact ⟨_, value⟩
  case h_4 => exact List.forall_mem_nil _

/-- Without a color function the cells have the colors of corners. -/
theorem cells_of_corners {s : Shading α} (hs : s.Complete) (hf : s.kind.function? = none)
    (precision : ShadingPrecision) :
    ∀ cell ∈ ((cells? s precision).getD .nil).items, cell.2.length = s.space.components := by
  have corner (color : Color) : s.vertexColor color = .ok color := by
    unfold vertexColor
    split
    · simp_all [ShadingKind.function?]
    · simp_all [ShadingKind.function?]
    · rfl
  have kind := hs.kind
  unfold cells?
  dsimp only
  split
  case h_1 hk => rw [hk] at hf; cases hf
  case h_2 ts f hk =>
    rw [hk] at kind hf
    cases hf
    intro cell hc
    obtain ⟨t, ht, hc⟩ := Emission.of_mem_flatMap hc
    obtain ⟨u, hu, color, value, rfl⟩ := Emission.of_mem_flatMap_one hc
    cases (corner _).symm.trans value
    exact (triangleCells_carries _ _ _ t (kind t ht) u hu).a
  case h_3 ps f hk =>
    rw [hk] at kind hf
    cases hf
    intro cell hc
    obtain ⟨p, hp, hc⟩ := Emission.of_mem_flatMap hc
    obtain ⟨q, hq, color, value, rfl⟩ := Emission.of_mem_flatMap_one hc
    cases (corner _).symm.trans value
    exact (patchCells_carries _ _ _ p (kind p hp) q hq).c00
  case h_4 => exact List.forall_mem_nil _

end Shading

end PdfContent
