import PdfContent.Proofs.Drawing.Session
import PdfContent.Proofs.Geometry.Exact
/-!
# Page clip — which pages are clipped to their crop box

A page is clipped unless its crop box has the size of the page as it is shown and starts at the origin.  That rectangle
(`PageParams.extent`) is the page's own box if the box starts at the origin and is not turned on its side, or is a
square.  Of any other page, the crop box that is the whole page is clipped to, and another one is not.
-/
namespace PdfContent

open Scalar

def Rect.same {α : Type} [Scalar α] (r s : Rect α) : Bool :=
  eq r.x0 s.x0 && eq r.y0 s.y0 && eq r.x1 s.x1 && eq r.y1 s.y1

theorem Rect.same_iff {r s : Rect Rat} : r.same s = true ↔ r = s := by
  obtain ⟨a, b, c, d⟩ := r
  obtain ⟨a', b', c', d'⟩ := s
  simp [same, eq, and_assoc]

namespace PageParams

variable {α : Type} [Scalar α]

/-- The rectangle that is taken for the whole page: of the size of the page as it is shown, from the origin on. -/
def extent (p : PageParams α) : Rect α := ⟨zero, zero, p.frame.2.1, p.frame.2.2⟩

/-- The page is turned, so its width is shown as a height. -/
def Sideways (p : PageParams α) : Prop := p.rotation = 90 ∨ p.rotation = 270

theorem extent_sideways {p : PageParams α} (h : p.Sideways) :
    p.extent = ⟨zero, zero, p.bounds.y1 - p.bounds.y0, p.bounds.x1 - p.bounds.x0⟩ := by
  unfold extent frame
  rcases h with h | h <;> rw [h] <;> rfl

theorem extent_upright {p : PageParams α} (h : ¬p.Sideways) :
    p.extent = ⟨zero, zero, p.bounds.x1 - p.bounds.x0, p.bounds.y1 - p.bounds.y0⟩ := by
  obtain ⟨h90, h270⟩ := not_or.mp h
  unfold extent frame
  simp only [beq_iff_eq, h90, h270, if_false]
  split <;> rfl

/-- Without rounding, the page's own box is taken for the whole page if it starts at the origin and is not turned on its
side, or is a square. -/
theorem extent_eq_bounds_iff (p : PageParams Rat) : p.extent = p.bounds ↔
    p.bounds.x0 = 0 ∧ p.bounds.y0 = 0 ∧ (p.Sideways → p.bounds.x1 = p.bounds.y1) := by
  have sub_zero (x : Rat) : x - 0 = x := by rw [Rat.sub_eq_add_neg, Rat.neg_zero, Rat.add_zero]
  by_cases h : p.Sideways
  case pos =>
    rw [extent_sideways h]
    obtain ⟨⟨x0, y0, x1, y1⟩, _, _, _⟩ := p
    simp only [Rect.mk.injEq, h, true_imp_iff]
    constructor
    · rintro ⟨rfl, rfl, height, -⟩
      exact ⟨rfl, rfl, height.symm.trans (sub_zero y1)⟩
    · rintro ⟨rfl, rfl, rfl⟩
      exact ⟨rfl, rfl, sub_zero _, sub_zero _⟩
  case neg =>
    rw [extent_upright h]
    obtain ⟨⟨x0, y0, x1, y1⟩, _, _, _⟩ := p
    simp only [Rect.mk.injEq, h, false_imp_iff, and_true]
    constructor
    · rintro ⟨rfl, rfl, -, -⟩
      exact ⟨rfl, rfl⟩
    · rintro ⟨rfl, rfl⟩
      exact ⟨rfl, rfl, sub_zero _, sub_zero _⟩

end PageParams

/-- The clip of a group that an event sets: the state that it is told with, and whether it is of the even-odd rule. -/
def Event.groupClip? {α : Type} : Event α → Option (State α × Bool)
  | .call (.setClipPath s evenOdd) => some (s, evenOdd)
  | _ => none

namespace Machine

variable {α : Type} [Scalar α]

def pageClips (env : Environment α) (p : PageParams α) : List (State α × Bool) :=
  (startPage env p).log.reverse.filterMap Event.groupClip?

/-- The state at the start of a page, with a rectangle as the path under construction. -/
def cropState (p : PageParams α) (r : Rect α) : State α :=
  { State.initial p.frame.1 with outline := Outline.empty.rect r }

theorem crop_log (width height : α) (r : Rect α) (m : Machine α) : (m.crop width height r).log =
    if r.same ⟨zero, zero, width, height⟩ then m.log
    else .call (.setClipPath { m.state with outline := m.state.outline.rect r } false) :: m.log := by
  unfold crop Rect.same
  split <;> rfl

theorem pageClips_uncropped (env : Environment α) {p : PageParams α} (h : p.crop = none) : pageClips env p = [] := by
  unfold pageClips startPage
  rw [h]
  rfl

theorem pageClips_cropped (env : Environment α) {p : PageParams α} {r : Rect α} (h : p.crop = some r) :
    pageClips env p = if r.same p.extent then [] else [(cropState p r, false)] := by
  have log : (startPage env p).log = ((pageLevel env p).crop p.frame.2.1 p.frame.2.2 r).log := by
    unfold startPage
    rw [h]
    rfl
  unfold pageClips
  rw [log, crop_log]
  unfold PageParams.extent
  split <;> rfl

/-- A page with a crop box is clipped to it once, and not at all if it is the page's own box. -/
def CropsRightly (env : Environment α) (p : PageParams α) (r : Rect α) : Prop :=
  pageClips env { p with crop := some r } = if r.same p.bounds then [] else [(cropState p r, false)]

theorem cropsRightly_iff (env : Environment α) (p : PageParams α) (r : Rect α) :
    CropsRightly env p r ↔ r.same p.extent = r.same p.bounds := by
  have clips : pageClips env { p with crop := some r } = if r.same p.extent then [] else [(cropState p r, false)] :=
    pageClips_cropped env rfl
  unfold CropsRightly
  rw [clips]
  cases r.same p.extent <;> cases r.same p.bounds <;> simp

/-- **A page is clipped to its crop box, unless that is the page as it is shown, moved to the origin.**  The rectangle is
told in user space.  So a crop box counts as it should if and only if it is both the page's own box and the extent or
neither of them; without rounding, that is every crop box if the page's own box starts at the origin and is not turned
on its side or is a square, and else every one but these two: the page's own box, which needs no clip, gets one, and the
extent gets none. -/
theorem page_clipped (env : Environment α) (p : PageParams α) :
    pageClips env { p with crop := none } = [] ∧
    (∀ r, pageClips env { p with crop := some r } = (if r.same p.extent then [] else [(cropState p r, false)]) ∧
      (cropState p r).path = Path.rect r ∧ (cropState p r).ctm = p.frame.1 ∧
      (CropsRightly env p r ↔ r.same p.extent = r.same p.bounds)) ∧
    ∀ (env : Environment Rat) (p : PageParams Rat) (r : Rect Rat), CropsRightly env p r ↔
      (p.bounds.x0 = 0 ∧ p.bounds.y0 = 0 ∧ (p.Sideways → p.bounds.x1 = p.bounds.y1)) ∨
        r ≠ p.bounds ∧ r ≠ p.extent := by
  refine ⟨pageClips_uncropped env rfl, fun r => ?_, fun env p r => ?_⟩
  · exact ⟨pageClips_cropped env rfl, rfl, rfl, cropsRightly_iff env p r⟩
  · rw [cropsRightly_iff, Bool.eq_iff_iff, Rect.same_iff, Rect.same_iff, ← p.extent_eq_bounds_iff]
    constructor
    · intro same
      by_cases h : p.extent = p.bounds
      · exact .inl h
      · exact .inr ⟨fun hb => h ((same.mpr hb).symm.trans hb), fun he => h (he.symm.trans (same.mp he))⟩
    · rintro (h | ⟨hb, he⟩)
      · rw [h]
      · exact ⟨fun h => absurd h he, fun h => absurd h hb⟩

/-- A page that does not start at the origin is clipped to all of it. -/
example : pageClips ⟨.empty, .silent, true, .default⟩ ⟨⟨10, 10, 110, 110⟩, 0, .empty, some ⟨10, 10, 110, 110⟩⟩ =
    [(cropState ⟨⟨10, 10, 110, 110⟩, 0, .empty, none⟩ (⟨10, 10, 110, 110⟩ : Rect Rat), false)] := rfl

/-- On its side, a page is taken to be whole with a crop box that leaves out its upper half. -/
example : (⟨0, 0, 200, 100⟩ : Rect Rat).same (PageParams.extent ⟨⟨0, 0, 100, 200⟩, 90, .empty, none⟩) = true := by
  cbv

end Machine

end PdfContent
