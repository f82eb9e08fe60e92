import PdfContent.Proofs.Number.Single
import PdfContent.Shading.Gradient
/-!
# Stops — the order of the stops of a gradient

The offset of a stop is the share of the domain before its parameter, clamped.  For the hard edge of a steep piece the
share is not clamped, but the edge lies between the bounds of its piece, also after rounding (`exists_edge`).  So the offsets
ascend from 0 to 1 if no steep piece reaches beyond the domain (`stops_ascend`).
-/
namespace PdfContent.Gradient

open Scalar (clamp interpolate)
open Single

variable {domain : Float32 × Float32} {t0 t1 x y : ℚ} {f g : Float32}

/-! ## Shares -/

/-- The domain is an interval, and its length is not too large for a number. -/
structure Spans (domain : Float32 × Float32) (t0 t1 : ℚ) : Prop where
  first : HasValue domain.1 t0
  last : HasValue domain.2 t1
  ascending : t0 < t1
  length_small : nearest (t1 - t0) < 2 ^ 128

theorem Spans.length_pos (h : Spans domain t0 t1) : 0 < nearest (t1 - t0) :=
  nearest_sub_pos h.first.denotes.representable h.last.denotes.representable h.ascending

theorem Spans.length (h : Spans domain t0 t1) : HasValue (domain.2 - domain.1) (nearest (t1 - t0)) := by
  refine (h.last.sub h.first).hasValue ?_
  rw [abs_of_pos h.length_pos]
  exact h.length_small

def shareOf (t0 t1 x : ℚ) : ℚ := quotient (saturate (nearest (x - t0))) (nearest (t1 - t0))

theorem Spans.share (h : Spans domain t0 t1) (hf : HasValue f x) : Denotes (share domain f) (shareOf t0 t1 x) := by
  have apart : ¬Scalar.eq domain.2 domain.1 = true :=
    fun e => h.ascending.ne ((h.last.denotes.beq_iff h.first.denotes).mp e).symm
  have unit : (1 : Float32) - 0 = 1 := by decide
  unfold Gradient.share interpolate
  rw [if_neg apart, unit]
  exact denotes_zero_add ((denotes_mul_one (hf.sub h.first)).div h.length h.length_pos)

theorem Spans.share_mono (h : Spans domain t0 t1) (hxy : x ≤ y) : shareOf t0 t1 x ≤ shareOf t0 t1 y :=
  quotient_mono (saturate_mono (nearest_mono (sub_le_sub_right hxy t0))) h.length_pos

theorem share_first (t0 t1 : ℚ) : shareOf t0 t1 t0 = 0 := by
  have small : |(0 : ℚ)| < 2 ^ 128 := by norm_num
  rw [shareOf, sub_self, nearest_zero, saturate_of_abs_lt small, quotient, if_pos small, zero_div, nearest_zero,
    saturate_of_abs_lt small]

theorem Spans.share_last (h : Spans domain t0 t1) : shareOf t0 t1 t1 = 1 := by
  have one : nearest 1 = 1 := denotes_one.representable.nearest
  rw [shareOf, saturate_of_abs_lt h.length.small, quotient, if_pos h.length.small, div_self h.length_pos.ne', one,
    saturate_of_abs_lt (by norm_num)]

def offsetOf (t0 t1 x : ℚ) : ℚ := min 1 (max 0 (shareOf t0 t1 x))

theorem denotes_clamp (hf : Denotes f x) : Denotes (clamp 0 1 f) (min 1 (max 0 x)) := by
  have raised : Denotes (if Scalar.lt f 0 then 0 else f) (max 0 x) := by
    have below : Scalar.lt f 0 = true ↔ x < 0 := (decide_eq_true_iff (p := f < 0)).trans (hf.lt_iff denotes_zero)
    by_cases h : x < 0
    · rw [if_pos (below.mpr h), max_eq_left h.le]
      exact denotes_zero
    · rw [if_neg (mt below.mp h), max_eq_right (not_lt.mp h)]
      exact hf
  unfold clamp
  generalize (if Scalar.lt f 0 then 0 else f) = g at raised
  have above : Scalar.lt 1 g = true ↔ 1 < max 0 x := (decide_eq_true_iff (p := 1 < g)).trans (denotes_one.lt_iff raised)
  by_cases h : 1 < max 0 x
  · rw [if_pos (above.mpr h), min_eq_left h.le]
    exact denotes_one
  · rw [if_neg (mt above.mp h), min_eq_right (not_lt.mp h)]
    exact raised

theorem Spans.offset_mono (h : Spans domain t0 t1) (hxy : x ≤ y) : offsetOf t0 t1 x ≤ offsetOf t0 t1 y :=
  min_le_min_left _ (max_le_max_left _ (h.share_mono hxy))

theorem offset_first (t0 t1 : ℚ) : offsetOf t0 t1 t0 = 0 := by
  rw [offsetOf, share_first]
  norm_num

theorem Spans.offset_last (h : Spans domain t0 t1) : offsetOf t0 t1 t1 = 1 := by
  rw [offsetOf, h.share_last]
  norm_num

theorem offset_nonneg (t0 t1 x : ℚ) : 0 ≤ offsetOf t0 t1 x := le_min zero_le_one (le_max_left _ _)

theorem offset_le_one (t0 t1 x : ℚ) : offsetOf t0 t1 x ≤ 1 := min_le_left _ _

/-- Within the domain nothing is clamped. -/
theorem Spans.share_within (h : Spans domain t0 t1) (hf : HasValue f x) (low : t0 ≤ x) (high : x ≤ t1) :
    Denotes (Gradient.share domain f) (offsetOf t0 t1 x) := by
  have zero := h.share_mono low
  have one := h.share_mono high
  rw [share_first] at zero
  rw [h.share_last] at one
  rw [offsetOf, max_eq_right zero, min_eq_right one]
  exact h.share hf

/-! ## Edges -/

variable {low high n : Float32} {l h v : ℚ}

/-- The width of an edge is at most that of its piece. -/
theorem exists_width (hl : HasValue low l) (hh : HasValue high h) (ascending : l ≤ h) (length : nearest (h - l) < 2 ^ 128)
    (hn : Denotes n v) (steep : 1 < v) : ∃ w, HasValue ((high - low) / n) w ∧ 0 ≤ w ∧ w ≤ h - l := by
  have nonneg : 0 ≤ nearest (h - l) := nearest_nonneg (sub_nonneg.mpr ascending)
  have diff : HasValue (high - low) (nearest (h - l)) := (hh.sub hl).hasValue (by rwa [abs_of_nonneg nonneg])
  by_cases infinite : 2 ^ 128 ≤ v
  · exact ⟨0, diff.div_infinity hn infinite, le_rfl, sub_nonneg.mpr ascending⟩
  · have pos : 0 < v := zero_lt_one.trans steep
    have divisor : HasValue n v := ⟨hn, by rwa [abs_of_pos pos, ← not_le]⟩
    have part : 0 ≤ nearest (nearest (h - l) / v) := nearest_nonneg (div_nonneg nonneg pos.le)
    have less : nearest (nearest (h - l) / v) ≤ nearest (h - l) := by
      have := nearest_mono (div_le_self nonneg steep.le)
      rwa [(representable_nearest _).nearest] at this
    refine ⟨_, (diff.div divisor pos.ne').hasValue ?_, part, ?_⟩
    · rw [abs_of_nonneg part]
      exact less.trans_lt length
    · exact nearest_div_le_sub hl.denotes.representable hh.denotes.representable hn.representable ascending steep

/-- **An edge lies in its piece**, behind its start or before its end. -/
theorem exists_edge (hl : HasValue low l) (hh : HasValue high h) (ascending : l ≤ h) (length : nearest (h - l) < 2 ^ 128)
    (hn : Denotes n v) (steep : 1 < v) :
    (∃ t, HasValue (high - (high - low) / n) t ∧ l ≤ t ∧ t ≤ h) ∧
      ∃ t, HasValue (low + (high - low) / n) t ∧ l ≤ t ∧ t ≤ h := by
  obtain ⟨w, hw, nonneg, most⟩ := exists_width hl hh ascending length hn steep
  have inside {t : ℚ} (low : l ≤ t) (high : t ≤ h) : l ≤ nearest t ∧ nearest t ≤ h ∧ |nearest t| < 2 ^ 128 := by
    have low := nearest_mono low
    have high := nearest_mono high
    rw [hl.denotes.representable.nearest] at low
    rw [hh.denotes.representable.nearest] at high
    exact ⟨low, high, abs_lt.mpr ⟨(abs_lt.mp hl.small).1.trans_le low, high.trans_lt (abs_lt.mp hh.small).2⟩⟩
  constructor
  · obtain ⟨above, below, small⟩ := inside (t := h - w) (by linarith) (by linarith)
    exact ⟨_, (hh.sub hw).hasValue small, above, below⟩
  · obtain ⟨above, below, small⟩ := inside (t := l + w) (by linarith) (by linarith)
    exact ⟨_, (hl.add hw).hasValue small, above, below⟩

/-! ## Stops -/

/-- The offsets ascend from `p` to 1 at most. -/
def Ascend (p : ℚ) : List GradientStop → Prop
  | [] => True
  | s :: ss => ∃ v, Denotes s.offset v ∧ p ≤ v ∧ v ≤ 1 ∧ Ascend v ss

/-- The offsets of the bounds ascend from that of `l`, and steep pieces are within the domain. -/
def Ordered (t0 t1 l : ℚ) : List Float32 → List Function → Prop
  | high :: highs, f :: fs =>
    ∃ h, HasValue high h ∧ offsetOf t0 t1 l ≤ offsetOf t0 t1 h ∧
      ((steepExponent? f).isSome = true → t0 ≤ l ∧ l ≤ h ∧ h ≤ t1) ∧ Ordered t0 t1 h highs fs
  | _, _ => True

variable {space : ColorSpace} {whole : Function}

theorem Spans.stopAt (hd : Spans domain t0 t1) (hf : HasValue f x) :
    Denotes (stopAt space whole domain f).offset (offsetOf t0 t1 x) := denotes_clamp (hd.share hf)

theorem steep_of_some {f : Function} (h : steepExponent? f = some n) : 1 < n := by
  unfold steepExponent? at h
  split at h
  · split_ifs at h with steep
    cases h
    exact steep
  · cases h

/-- **The stops of the pieces ascend.**  The step over one piece goes over its edge, if it has one, and its end. -/
theorem ascend_pieceStops (hd : Spans domain t0 t1) {highs : List Float32} {fs : List Function}
    {encode : Ranges Float32} {prev : GradientStop} (hl : HasValue low l) (ordered : Ordered t0 t1 l highs fs) :
    Ascend (offsetOf t0 t1 l)
      (pieceStops (Gradient.stopAt space whole domain) domain prev low highs fs encode) := by
  induction highs generalizing low l fs encode prev with
  | nil => trivial
  | cons high highs ih =>
    cases fs with
    | nil => trivial
    | cons f fs =>
      cases encode with
      | nil => trivial
      | cons e encode =>
        obtain ⟨h, hh, after, within, rest⟩ := ordered
        have next : Ascend (offsetOf t0 t1 h) (pieceStops (Gradient.stopAt space whole domain) domain
          (Gradient.stopAt space whole domain high) high highs fs encode) := ih hh rest
        have stop : Denotes (Gradient.stopAt space whole domain high).offset (offsetOf t0 t1 h) := hd.stopAt hh
        unfold pieceStops
        cases steep : steepExponent? f with
        | none => exact ⟨_, stop, after, offset_le_one .., next⟩
        | some n =>
          obtain ⟨first, ascending, last⟩ := within (by rw [steep]; rfl)
          have length : nearest (h - l) < 2 ^ 128 := (nearest_mono (by linarith)).trans_lt hd.length_small
          obtain ⟨v, hv⟩ := exists_denotes (steep_of_some steep)
          have one := (denotes_one.lt_iff hv).mp (steep_of_some steep)
          obtain ⟨⟨t, ht, low, high⟩, t', ht', low', high'⟩ := exists_edge hl hh ascending length hv one
          have placed {edge : GradientStop} {t : ℚ} (offset : Denotes edge.offset (offsetOf t0 t1 t)) (low : l ≤ t)
              (high : t ≤ h) : Ascend (offsetOf t0 t1 l) (edge :: Gradient.stopAt space whole domain _ :: _) :=
            ⟨_, offset, hd.offset_mono low, offset_le_one .., _, stop, hd.offset_mono high, offset_le_one .., next⟩
          dsimp only [Option.map_some, Option.toList_some, List.singleton_append]
          split_ifs
          · exact placed (hd.share_within ht (first.trans low) (high.trans last)) low high
          · exact placed (hd.share_within ht' (first.trans low') (high'.trans last)) low' high'

theorem Ascend.bounded {p : ℚ} {ss : List GradientStop} (h : Ascend p ss) (nonneg : 0 ≤ p) :
    ∀ s ∈ ss, 0 ≤ s.offset ∧ s.offset ≤ 1 := by
  induction ss generalizing p with
  | nil => exact List.forall_mem_nil _
  | cons s ss ih =>
    obtain ⟨v, hv, low, high, rest⟩ := h
    have low := nonneg.trans low
    exact List.forall_mem_cons.mpr ⟨⟨(denotes_zero.le_iff hv).mpr low, (hv.le_iff denotes_one).mpr high⟩, ih rest low⟩

theorem Ascend.of_le {p q : ℚ} {ss : List GradientStop} (h : Ascend q ss) (le : p ≤ q) : Ascend p ss := by
  cases ss with
  | nil => trivial
  | cons s ss =>
    obtain ⟨v, hv, low, rest⟩ := h
    exact ⟨v, hv, le.trans low, rest⟩

theorem Ascend.above {p : ℚ} {ss : List GradientStop} (h : Ascend p ss) (hf : Denotes f p) : ∀ s ∈ ss, f ≤ s.offset := by
  induction ss with
  | nil => exact List.forall_mem_nil _
  | cons s ss ih =>
    obtain ⟨v, hv, low, -, rest⟩ := h
    exact List.forall_mem_cons.mpr ⟨(hf.le_iff hv).mpr low, ih (rest.of_le low)⟩

theorem Ascend.pairwise {p : ℚ} {ss : List GradientStop} (h : Ascend p ss) :
    ss.Pairwise fun s s' => s.offset ≤ s'.offset := by
  induction ss generalizing p with
  | nil => exact .nil
  | cons s ss ih =>
    obtain ⟨v, hv, -, -, rest⟩ := h
    exact .cons (rest.above hv) (ih rest)

/-! ## Shadings -/

/-- The pieces that are approximated with a hard edge do not reach beyond the domain. -/
def EdgesWithin (domain : Float32 × Float32) (low : Float32) : List Float32 → List Function → Prop
  | high :: highs, f :: fs =>
    ((steepExponent? f).isSome = true → domain.1 ≤ low ∧ low ≤ high ∧ high ≤ domain.2) ∧ EdgesWithin domain high highs fs
  | _, _ => True

def pieces : Function → List Float32 × List Function
  | .stitching _ _ fs bounds _ => (bounds, fs)
  | _ => ([], [])

/-- The domain is an interval whose length is a number, the bounds of the pieces ascend, and the edges are within the
domain. -/
structure Regular (domain : Float32 × Float32) (f : Function) : Prop where
  first : domain.1.isFinite = true
  last : domain.2.isFinite = true
  ascending : domain.1 < domain.2
  length : (domain.2 - domain.1).isFinite = true
  bounds : ∀ b ∈ (pieces f).1, b.isFinite = true
  bounds_ascending : (pieces f).1.Pairwise (· ≤ ·)
  edges : EdgesWithin domain domain.1 ((pieces f).1 ++ [domain.2]) (pieces f).2

/-- If all bounds are within the domain, so is every edge. -/
theorem edgesWithin_of_bounds {bounds : List Float32} {fs : List Function} (start : domain.1 ≤ low)
    (above : ∀ b ∈ bounds ++ [domain.2], low ≤ b) (within : ∀ b ∈ bounds ++ [domain.2], domain.1 ≤ b ∧ b ≤ domain.2)
    (ascending : (bounds ++ [domain.2]).Pairwise (· ≤ ·)) : EdgesWithin domain low (bounds ++ [domain.2]) fs := by
  generalize bounds ++ [domain.2] = highs at above within ascending
  induction highs generalizing low fs with
  | nil => trivial
  | cons high highs ih =>
    cases fs with
    | nil => trivial
    | cons f fs =>
      obtain ⟨later, ascending⟩ := List.pairwise_cons.mp ascending
      obtain ⟨here, within⟩ := List.forall_mem_cons.mp within
      exact ⟨fun _ => ⟨start, above high List.mem_cons_self, here.2⟩, ih here.1 later within ascending⟩

/-- A function whose bounds are within the domain is regular. -/
theorem Regular.of_bounds {f : Function} (first : domain.1.isFinite = true) (last : domain.2.isFinite = true)
    (ascending : domain.1 < domain.2) (length : (domain.2 - domain.1).isFinite = true)
    (bounds : ∀ b ∈ (pieces f).1, b.isFinite = true ∧ domain.1 ≤ b ∧ b ≤ domain.2)
    (bounds_ascending : (pieces f).1.Pairwise (· ≤ ·)) : Regular domain f := by
  obtain ⟨t0, h0⟩ := exists_hasValue first
  obtain ⟨t1, h1⟩ := exists_hasValue last
  have less : domain.1 ≤ domain.2 :=
    (h0.denotes.le_iff h1.denotes).mpr ((h0.denotes.lt_iff h1.denotes).mp ascending).le
  have start : domain.1 ≤ domain.1 := (h0.denotes.le_iff h0.denotes).mpr le_rfl
  have stop : domain.2 ≤ domain.2 := (h1.denotes.le_iff h1.denotes).mpr le_rfl
  have within : ∀ b ∈ (pieces f).1 ++ [domain.2], domain.1 ≤ b ∧ b ≤ domain.2 :=
    List.forall_mem_append.mpr ⟨fun b mem => (bounds b mem).2, List.forall_mem_singleton.mpr ⟨less, stop⟩⟩
  refine ⟨first, last, ascending, length, fun b mem => (bounds b mem).1, bounds_ascending,
    edgesWithin_of_bounds start (fun b mem => (within b mem).1) within ?_⟩
  refine List.pairwise_append.mpr ⟨bounds_ascending, List.pairwise_singleton .., fun b mem e he => ?_⟩
  rw [List.mem_singleton.mp he]
  exact (bounds b mem).2.2

def alongAxis? {α : Type} : ShadingKind α → Option ((Float32 × Float32) × ColorFunction)
  | .axial _ _ domain f _ => some (domain, f)
  | .radial _ _ _ _ domain f _ => some (domain, f)
  | _ => none

theorem Regular.spans {f : Function} (h : Regular domain f) : ∃ t0 t1, Spans domain t0 t1 := by
  obtain ⟨t0, first⟩ := exists_hasValue h.first
  obtain ⟨t1, last⟩ := exists_hasValue h.last
  obtain ⟨d, length⟩ := exists_hasValue h.length
  refine ⟨t0, t1, first, last, (first.denotes.lt_iff last.denotes).mp h.ascending, ?_⟩
  have value : saturate (nearest (t1 - t0)) = d := (last.sub first).unique length.denotes
  by_contra! large
  have : saturate (nearest (t1 - t0)) = 2 ^ 128 := saturate_signed .positive large
  rw [← value, this] at length
  exact absurd length.small (by norm_num)

theorem Spans.within (hd : Spans domain t0 t1) (hl : HasValue low l) (hh : HasValue high h)
    (edge : domain.1 ≤ low ∧ low ≤ high ∧ high ≤ domain.2) : t0 ≤ l ∧ l ≤ h ∧ h ≤ t1 :=
  ⟨(hd.first.denotes.le_iff hl.denotes).mp edge.1, (hl.denotes.le_iff hh.denotes).mp edge.2.1,
    (hh.denotes.le_iff hd.last.denotes).mp edge.2.2⟩

/-- The bounds themselves need not be within the domain, since their offsets are clamped. -/
theorem Spans.ordered (hd : Spans domain t0 t1) {bounds : List Float32} {fs : List Function} (hl : HasValue low l)
    (start : ∀ b ∈ bounds, ∀ x, HasValue b x → offsetOf t0 t1 l ≤ offsetOf t0 t1 x)
    (finite : ∀ b ∈ bounds, b.isFinite = true) (ascending : bounds.Pairwise (· ≤ ·))
    (edges : EdgesWithin domain low (bounds ++ [domain.2]) fs) : Ordered t0 t1 l (bounds ++ [domain.2]) fs := by
  induction bounds generalizing low l fs with
  | nil =>
    cases fs with
    | nil => trivial
    | cons f fs =>
      obtain ⟨edge, -⟩ : _ ∧ EdgesWithin domain domain.2 [] fs := edges
      have after : offsetOf t0 t1 l ≤ offsetOf t0 t1 t1 := by
        rw [hd.offset_last]
        exact offset_le_one ..
      exact ⟨t1, hd.last, after, fun steep => hd.within hl hd.last (edge steep), trivial⟩
  | cons b bounds ih =>
    cases fs with
    | nil => trivial
    | cons f fs =>
      obtain ⟨x, hx⟩ := exists_hasValue (finite b List.mem_cons_self)
      obtain ⟨edge, edges⟩ : _ ∧ EdgesWithin domain b (bounds ++ [domain.2]) fs := edges
      obtain ⟨above, ascending⟩ := List.pairwise_cons.mp ascending
      refine ⟨x, hx, start b List.mem_cons_self x hx, fun steep => hd.within hl hx (edge steep), ?_⟩
      refine ih hx (fun b' mem y hy => ?_) (fun b' mem => finite b' (List.mem_cons_of_mem b mem)) ascending edges
      exact hd.offset_mono ((hx.denotes.le_iff hy.denotes).mp (above b' mem))

theorem ascend_colorStops {f : ColorFunction} {stops : List GradientStop} (hf : ∀ g ∈ f.functions, Regular domain g)
    (h : colorStops space f domain = .ok stops) : Ascend 0 stops := by
  unfold colorStops at h
  split at h
  case h_2 => cases h
  case h_1 g only =>
    have regular : Regular domain g := hf g (only ▸ List.mem_singleton_self g)
    obtain ⟨t0, t1, hd⟩ := regular.spans
    have first : Denotes (stopAt space g domain domain.1).offset (offsetOf t0 t1 t0) := hd.stopAt hd.first
    have last : Denotes (stopAt space g domain domain.2).offset (offsetOf t0 t1 t1) := hd.stopAt hd.last
    dsimp only at h
    split at h
    case h_1 d r fs bounds encode =>
      cases h
      refine ⟨_, first, offset_nonneg .., offset_le_one .., ascend_pieceStops hd hd.first ?_⟩
      refine hd.ordered hd.first (fun b _ x _ => ?_) regular.bounds regular.bounds_ascending regular.edges
      rw [offset_first]
      exact offset_nonneg ..
    case h_2 =>
      cases h
      exact ⟨_, first, offset_nonneg .., offset_le_one .., _, last, hd.offset_mono hd.ascending.le, offset_le_one .., trivial⟩

theorem colorStops_of_map {α : Type} {g : Gradient α} {f : ColorFunction} {build : List GradientStop → Gradient α}
    (keeps : ∀ stops, (build stops).stops = stops) (h : (colorStops space f domain).map build = .ok g) :
    colorStops space f domain = .ok g.stops := by
  cases read : colorStops space f domain with
  | error d =>
    rw [read] at h
    cases h
  | ok stops =>
    rw [read] at h
    cases h
    rw [keeps]

/-- **The stops of a gradient ascend** from 0 to 1, however many pieces its function has.  Two kinds of axial and radial
shadings are excepted.  The offset of an edge is not clamped, so it is out of order if a steep piece reaches beyond the domain.
And a domain that is longer than the greatest number has no shares. -/
theorem stops_ascend {α : Type} [Scalar α] {s : Shading α} {transform : Option (Affine α)} {g : Gradient α}
    {f : ColorFunction} (hs : alongAxis? s.kind = some (domain, f)) (hf : ∀ g ∈ f.functions, Regular domain g)
    (hg : ofShading s transform = .ok g) :
    (∀ stop ∈ g.stops, 0 ≤ stop.offset ∧ stop.offset ≤ 1) ∧
      g.stops.Pairwise fun stop later => stop.offset ≤ later.offset := by
  have stops : colorStops s.space f domain = .ok g.stops := by
    unfold ofShading at hg
    cases kind : s.kind with
    | axial =>
      rw [kind] at hs hg
      cases hs
      exact colorStops_of_map (fun _ => rfl) hg
    | radial =>
      rw [kind] at hs hg
      cases hs
      exact colorStops_of_map (fun _ => rfl) hg
    | function | triangles | patches => rw [kind] at hs; cases hs
  have ascend := ascend_colorStops hf stops
  exact ⟨ascend.bounded le_rfl, ascend.pairwise⟩

/-- The first piece has an edge in its middle.  In a domain that ends before the edge, this is behind the end. -/
theorem edge_beyond_end :
    let f : Function := .stitching [(0, 1)] none
      [.exponential [(0, 1)] none [0] [1] 2, .exponential [(0, 1)] none [1] [0] 1] [0.75] [(0, 1), (0, 1)]
    let shading (last : Float32) : Shading Float32 :=
      ⟨2, .axial ⟨0, 0⟩ ⟨1, 0⟩ (0, last) ⟨[f]⟩ (false, false), .deviceGray, none, none, false⟩
    (∃ g, ofShading (shading 1) none = .ok g ∧ (∀ stop ∈ g.stops, 0 ≤ stop.offset ∧ stop.offset ≤ 1) ∧
      g.stops.Pairwise fun stop later => stop.offset ≤ later.offset) ∧
    ∃ g, ofShading (shading 0.25) none = .ok g ∧ g.stops.map (·.offset) = [0, 1.5, 1, 1] := by
  intro f shading
  have bounds : ∀ b ∈ [(0.75 : Float32)], b.isFinite = true ∧ 0 ≤ b ∧ b ≤ 1 := by decide
  have regular : Regular (0, 1) f :=
    .of_bounds (by decide) (by decide) (by decide) (by decide) bounds (List.pairwise_singleton ..)
  refine ⟨⟨_, rfl, ?_⟩, _, rfl, ?_⟩
  · exact stops_ascend (s := shading 1) rfl (List.forall_mem_singleton.mpr regular) rfl
  · rfl

set_option maxRecDepth 4000 in
/-- In a domain of which the length is infinite, the end has no share. -/
example : (share (-Float32.ofBits 0x7F000000, Float32.ofBits 0x7F000000) (Float32.ofBits 0x7F000000)).isNaN = true := by
  decide

end PdfContent.Gradient
