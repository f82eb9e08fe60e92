import Mathlib.Tactic.IntervalCases
import PdfContent.Proofs.Shading.Records
import PdfContent.Proofs.Shading.Coons
/-!
# PatchRecords — which patches the data of a mesh denotes

How long a record is depends on its flag, so that its place is known only after all records before it have been read: it
begins with the byte after the last one.  `Meshes` says which patches the records from a byte on denote, and where they
end; the reader gives these patches and no others (`patches_of_records`).
-/
namespace PdfContent

open Scalar

variable {α γ : Type}

namespace MeshFormat

open BitReader

/-! ## Where the parts of a record lie -/

def sharedPoints (flag : Nat) : Nat := if flag = 0 then 0 else 4

def sharedColors (flag : Nat) : Nat := if flag = 0 then 0 else 2

def ownPoints (tensor : Bool) (flag : Nat) : Nat := (if tensor then 16 else 12) - sharedPoints flag

variable (f : MeshFormat) (tensor : Bool) (data : Bytes) (b : Nat)

def patchBits (flag : Nat) : Nat :=
  f.flagBits + ownPoints tensor flag * f.pointBits + (4 - sharedColors flag) * f.colorBits

def flagAt : Nat := data.number (8 * b) f.flagBits

def patchBytes : Nat := bytesFor (f.patchBits tensor (f.flagAt data b))

def ownPoint [Scalar α] (k : Nat) : Point α := f.pointAt data (8 * b + f.flagBits + k * f.pointBits)

def ownColor (k : Nat) : Color :=
  f.colorAt data (8 * b + f.flagBits + ownPoints tensor (f.flagAt data b) * f.pointBits + k * f.colorBits)

theorem shared_le (flag : Nat) : sharedPoints flag ≤ 12 ∧ sharedColors flag ≤ 4 := by
  unfold sharedPoints sharedColors
  split <;> decide

theorem Admitted.patchBytes_pos {f : MeshFormat} (h : f.Admitted) : 0 < f.patchBytes tensor data b := by
  have points : 0 < ownPoints tensor (f.flagAt data b) := by
    unfold ownPoints sharedPoints
    split <;> split <;> decide
  have bits : 0 < ownPoints tensor (f.flagAt data b) * f.pointBits :=
    Nat.mul_pos points (Nat.mul_pos Nat.zero_lt_two h.coordinate_pos)
  exact bytesFor_pos (Nat.add_pos_left (Nat.add_pos_right _ bits) _)

end MeshFormat

namespace Patch

open MeshFormat BitReader

/-! ## What records denote -/

/-- A patch with this flag can follow on `prev`. -/
def Joins (prev : Option (Patch α γ)) (flag : Nat) : Prop := flag = 0 ∨ flag ≤ 3 ∧ prev.isSome

section

variable [Scalar α] (f : MeshFormat) (tensor : Bool) (data : Bytes)

/-- At byte `b` there is a complete record whose flag fits. -/
def Present (prev : Option (Patch α Float32)) (b : Nat) : Prop :=
  Joins prev (f.flagAt data b) ∧ b + f.patchBytes tensor data b ≤ data.length

/-- The patch that the record at byte `b` denotes after `prev`: its first points and colors are those of an edge of the
patch before it, counted around that patch, and the others are stored in the record one after the other. -/
structure Recorded (prev : Option (Patch α Float32)) (b : Nat) (p : Patch α Float32) : Prop where
  sharedPoint : ∀ k < sharedPoints (f.flagAt data b),
    ∃ q, prev = some q ∧ p.boundary[k]? = q.boundary[(3 * f.flagAt data b + k) % 12]?
  ownPoint : ∀ k < 12, sharedPoints (f.flagAt data b) ≤ k →
    p.boundary[k]? = some (f.ownPoint data b (k - sharedPoints (f.flagAt data b)))
  ownInterior : tensor = true → ∀ k < 4,
    p.interior[k]? = some (f.ownPoint data b (12 - sharedPoints (f.flagAt data b) + k))
  spanned : tensor = false → p.interior = spannedInterior p.boundary
  sharedColor : ∀ k < sharedColors (f.flagAt data b),
    ∃ q, prev = some q ∧ p.corners[k]? = q.corners[(f.flagAt data b + k) % 4]?
  ownColor : ∀ k < 4, sharedColors (f.flagAt data b) ≤ k →
    p.corners[k]? = some (f.ownColor tensor data b (k - sharedColors (f.flagAt data b)))

/-- The records from byte `b` on, after `prev`, denote some patches: each begins with the byte after the one before it, and
the first one that is incomplete or has a flag that does not fit ends the mesh. -/
inductive Meshes : Option (Patch α Float32) → Nat → List (Patch α Float32) → Prop
  | stop {prev b} : ¬Present f tensor data prev b → Meshes prev b []
  | record {prev b p ps} : Present f tensor data prev b → Recorded f tensor data prev b p →
      Meshes (some p) (b + f.patchBytes tensor data b) ps → Meshes prev b (p :: ps)

end

/-! ## The shared edge -/

/-- **The edge of flag `f` is the part of the boundary from point `3 f` on**, counted around the patch. -/
theorem edge_eq (q : Patch α γ) {flag k : Nat} (low : 1 ≤ flag) (high : flag ≤ 3) (hk : k < 4) :
    ((edge flag).map q.point)[k]? = q.boundary[(3 * flag + k) % 12]? := by
  interval_cases flag <;> interval_cases k <;> rfl

/-- Its corners are those from corner `f` on. -/
theorem edgeCorners_eq (q : Patch α γ) {flag k : Nat} (low : 1 ≤ flag) (high : flag ≤ 3) (hk : k < 2) :
    ((edgeCorners flag).map q.corner)[k]? = q.corners[(flag + k) % 4]? := by
  interval_cases flag <;> interval_cases k <;> rfl

theorem length_edge (flag : Nat) : (edge flag).length = 4 := by
  unfold edge
  split <;> rfl

theorem length_edgeCorners (flag : Nat) : (edgeCorners flag).length = 2 := by
  unfold edgeCorners
  split <;> rfl

/-- A flag that fits says how many points and colors are shared, and where they are. -/
theorem Joins.shared? {prev : Option (Patch α γ)} {flag : Nat} (h : Joins prev flag) :
    ∃ points colors, shared? prev flag = some (points, colors) ∧
      points.length = sharedPoints flag ∧ colors.length = sharedColors flag ∧
      (∀ k < sharedPoints flag, ∃ q, prev = some q ∧ points[k]? = q.boundary[(3 * flag + k) % 12]?) ∧
      ∀ k < sharedColors flag, ∃ q, prev = some q ∧ colors[k]? = q.corners[(flag + k) % 4]? := by
  by_cases first : flag = 0
  · subst first
    exact ⟨[], [], rfl, rfl, rfl, fun k hk => absurd hk k.not_lt_zero, fun k hk => absurd hk k.not_lt_zero⟩
  · obtain ⟨flag_le, some⟩ := h.resolve_left first
    obtain ⟨q, rfl⟩ := Option.isSome_iff_exists.mp some
    simp only [sharedPoints, sharedColors, if_neg first]
    have low : 1 ≤ flag := Nat.one_le_iff_ne_zero.mpr first
    refine ⟨(edge flag).map q.point, (edgeCorners flag).map q.corner, ?_, ?_, ?_,
      fun k hk => ⟨q, rfl, edge_eq q low flag_le hk⟩, fun k hk => ⟨q, rfl, edgeCorners_eq q low flag_le hk⟩⟩
    · rw [Patch.shared?, if_neg (by simpa using first), if_neg (by omega)]
      rfl
    · rw [List.length_map, length_edge]
    · rw [List.length_map, length_edgeCorners]

theorem shared?_eq_none {prev : Option (Patch α γ)} {flag : Nat} (h : ¬Joins prev flag) : shared? prev flag = none := by
  obtain ⟨first, rest⟩ := not_or.mp h
  rw [shared?, if_neg (by simpa using first)]
  by_cases flag_le : flag ≤ 3
  · obtain rfl : prev = none := by simpa [flag_le] using rest
    rw [if_neg (by omega)]
    rfl
  · rw [if_pos (by omega)]

/-! ## Reading a record -/

theorem exists_ofStreamOrder? {boundary interior : List (Point α)} {corners : List (List γ)} (hb : boundary.length = 12)
    (hi : interior.length = 4) (hc : corners.length = 4) : ∃ p, ofStreamOrder? boundary interior corners = some p := by
  match boundary, hb, interior, hi, corners, hc with
  | [_, _, _, _, _, _, _, _, _, _, _, _], _, [_, _, _, _], _, [_, _, _, _], _ => exact ⟨_, rfl⟩

theorem ext_stream {p q : Patch α γ} (hb : p.boundary = q.boundary) (hi : p.interior = q.interior)
    (hc : p.corners = q.corners) : p = q := by
  have hp := ofStreamOrder?_eq_some.mpr ⟨hb, hi, hc⟩
  have hq := ofStreamOrder?_eq_some.mpr ⟨rfl, rfl, (rfl : q.corners = q.corners)⟩
  exact Option.some.inj (hp.symm.trans hq)

variable [Scalar α]

theorem length_spannedInterior {boundary : List (Point α)} (h : boundary.length = 12) :
    (spannedInterior boundary).length = 4 := by
  match boundary, h with
  | [_, _, _, _, _, _, _, _, _, _, _, _], _ => rfl

section

variable (f : MeshFormat) (tensor : Bool)

def interior? (boundary : List (Point α)) (r : BitReader) : Option (List (Point α) × BitReader) :=
  if tensor then readMany f.point? 4 r else some (spannedInterior boundary, r)

/-- The boundary points, the interior points and the corner colors of a record after its flag; those that are shared are
given. -/
def parts? (points : List (Point α)) (colors : List Color) (r : BitReader) :
    Option ((List (Point α) × List (Point α) × List Color) × BitReader) :=
  (readMany f.point? (12 - points.length) r).bind fun (own, r) =>
    (interior? f tensor (points ++ own) r).bind fun (interior, r) =>
      (readMany f.color? (4 - colors.length) r).map fun (ownColors, r) => ((points ++ own, interior, colors ++ ownColors), r)

theorem record?_eq_parts (prev : Option (Patch α Float32)) (r : BitReader) :
    record? f tensor prev r = (r.read? f.flagBits).bind fun flag => (shared? prev flag.1).bind fun shared =>
      (parts? f tensor shared.1 shared.2 flag.2).bind fun parts =>
        (ofStreamOrder? parts.1.1 parts.1.2.1 parts.1.2.2).map fun p => (p, parts.2.align) := by
  cases tensor <;>
    simp only [record?, parts?, interior?, Option.bind_eq_bind, Option.pure_def, Option.bind_assoc, Option.map_eq_bind,
      Option.bind_some, Bool.false_eq_true, ↓reduceIte, Function.comp_def]

def storedInterior : Nat := if tensor then 4 else 0

theorem ownPoints_eq (flag : Nat) : ownPoints tensor flag = 12 - sharedPoints flag + storedInterior tensor := by
  have := (shared_le flag).1
  cases tensor <;> simp only [ownPoints, storedInterior, Bool.false_eq_true, ↓reduceIte] <;> omega

variable (data : Bytes)

def interiorAt (boundary : List (Point α)) (i : Nat) : List (Point α) :=
  if tensor then (List.range 4).map fun k => f.pointAt data (i + k * f.pointBits) else spannedInterior boundary

/-- The boundary points, the interior points and the corner colors of a record whose own ones are stored from bit `i` on. -/
def partsAt (points : List (Point α)) (colors : List Color) (i : Nat) : List (Point α) × List (Point α) × List Color :=
  let boundary := points ++ (List.range (12 - points.length)).map fun k => f.pointAt data (i + k * f.pointBits)
  let j := i + (12 - points.length) * f.pointBits
  (boundary, interiorAt f tensor data boundary j, colors ++ (List.range (4 - colors.length)).map fun k =>
    f.colorAt data (j + storedInterior tensor * f.pointBits + k * f.colorBits))

variable {f}

theorem interior?_takes (h : f.Admitted) (boundary : List (Point α)) :
    Takes data (interior? f tensor boundary) (storedInterior tensor * f.pointBits) (interiorAt f tensor data boundary) := by
  cases tensor with
  | true => exact (h.point data).many 4
  | false => exact (Takes.pure _).congr (Nat.zero_mul _) fun _ => rfl

theorem parts?_takes (h : f.Admitted) (points : List (Point α)) (colors : List Color) :
    Takes data (parts? f tensor points colors)
      ((12 - points.length) * f.pointBits + (storedInterior tensor * f.pointBits + (4 - colors.length) * f.colorBits))
      (partsAt f tensor data points colors) :=
  ((h.point data).many _).bind fun own => (interior?_takes tensor data h (points ++ own)).bind fun interior =>
    ((h.color data).many _).map fun ownColors => (points ++ own, interior, colors ++ ownColors)

theorem read?_flag (h : f.Admitted) {b : Nat} (hb : b ≤ data.length) : (atBit data (8 * b)).read? f.flagBits =
    if 8 * b + f.flagBits ≤ 8 * data.length then some (f.flagAt data b, atBit data (8 * b + f.flagBits)) else none :=
  h.flag data (8 * b) (by omega)

variable {prev : Option (Patch α Float32)} {b : Nat}

/-- What the record at byte `b` is read as, if it shares as many points and colors as its flag says. -/
theorem record?_eq (h : f.Admitted) (hb : b ≤ data.length) {points : List (Point α)} {colors : List Color}
    (shared : shared? prev (f.flagAt data b) = some (points, colors))
    (hp : points.length = sharedPoints (f.flagAt data b)) (hc : colors.length = sharedColors (f.flagAt data b)) :
    record? f tensor prev (atBit data (8 * b)) =
      if b + f.patchBytes tensor data b ≤ data.length then
        let parts := partsAt f tensor data points colors (8 * b + f.flagBits)
        (ofStreamOrder? parts.1 parts.2.1 parts.2.2).map fun p => (p, atBit data (8 * (b + f.patchBytes tensor data b)))
      else none := by
  have padded := ((h.flag data).bind fun _ => parts?_takes tensor data h points colors).padded hb
  have width : f.flagBits + ((12 - points.length) * f.pointBits +
      (storedInterior tensor * f.pointBits + (4 - colors.length) * f.colorBits)) =
        f.patchBits tensor (f.flagAt data b) := by
    rw [patchBits, ownPoints_eq, hp, hc, Nat.add_mul, Nat.add_assoc, Nat.add_assoc]
  rw [width] at padded
  -- which points and colors are shared is known from the flag, so that the reader behind it has one width
  have unpadded : record? f tensor prev (atBit data (8 * b)) =
      ((((atBit data (8 * b)).read? f.flagBits).bind fun x => parts? f tensor points colors x.2).map
        fun x => (x.1, x.2.align)).bind fun x => (ofStreamOrder? x.1.1 x.1.2.1 x.1.2.2).map fun p => (p, x.2) := by
    rw [record?_eq_parts, read?_flag data h hb]
    split
    · simp only [Option.bind_some, shared, Option.bind_map]
      rfl
    · rfl
  rw [unpadded]
  refine (congrArg (Option.bind · _) padded).trans ?_
  unfold patchBytes
  split <;> rfl

/-- A record that is not all there, or whose flag does not fit, is not read. -/
theorem record?_eq_none (h : f.Admitted) (hb : b ≤ data.length) (absent : ¬Present f tensor data prev b) :
    record? f tensor prev (atBit data (8 * b)) = none := by
  by_cases joins : Joins prev (f.flagAt data b)
  · obtain ⟨points, colors, shared, hp, hc, -⟩ := joins.shared?
    rw [record?_eq tensor data h hb shared hp hc, if_neg fun complete => absent ⟨joins, complete⟩]
  · rw [record?_eq_parts, read?_flag data h hb]
    split
    · simp only [Option.bind_some, shared?_eq_none joins, Option.bind_none]
    · rfl

theorem getElem?_append_map_range {β : Type} (xs : List β) (g : Nat → β) {n k : Nat} (hn : k < n) (hk : xs.length ≤ k) :
    (xs ++ (List.range (n - xs.length)).map g)[k]? = some (g (k - xs.length)) := by
  rw [List.getElem?_append_right hk, List.getElem?_map, List.getElem?_range (by omega), Option.map_some]

theorem length_append_map_range {β : Type} (xs : List β) (g : Nat → β) {n : Nat} (hn : xs.length ≤ n) :
    (xs ++ (List.range (n - xs.length)).map g).length = n := by
  rw [List.length_append, List.length_map, List.length_range, Nat.add_sub_cancel' hn]

/-- A record that is there is read as the patch that it denotes. -/
theorem record?_recorded (h : f.Admitted) (present : Present f tensor data prev b) :
    ∃ p, Recorded f tensor data prev b p ∧
      record? f tensor prev (atBit data (8 * b)) = some (p, atBit data (8 * (b + f.patchBytes tensor data b))) := by
  obtain ⟨joins, complete⟩ := present
  obtain ⟨points, colors, shared, hp, hc, edge, ends⟩ := joins.shared?
  have read := record?_eq tensor data h (by omega) shared hp hc
  rw [if_pos complete] at read
  generalize hi : 8 * b + f.flagBits = i at read
  have hb : (partsAt f tensor data points colors i).1.length = 12 := length_append_map_range _ _ (hp ▸ (shared_le _).1)
  have hi' : (partsAt f tensor data points colors i).2.1.length = 4 := by
    cases tensor with
    | true => rfl
    | false => exact length_spannedInterior hb
  have hc' : (partsAt f tensor data points colors i).2.2.length = 4 :=
    length_append_map_range _ _ (hc ▸ (shared_le _).2)
  obtain ⟨p, parts⟩ := exists_ofStreamOrder? hb hi' hc'
  refine ⟨p, ?_, read.trans (congrArg (Option.map _) parts)⟩
  obtain ⟨boundary, interior, corners⟩ := ofStreamOrder?_eq_some.mp parts
  constructor
  case sharedPoint =>
    intro k hk
    rw [boundary, partsAt, List.getElem?_append_left (hp ▸ hk)]
    exact edge k hk
  case ownPoint =>
    intro k hk own
    rw [boundary, partsAt, getElem?_append_map_range _ _ hk (hp ▸ own), hp, ← hi]
    rfl
  case ownInterior =>
    rintro rfl k hk
    rw [interior, partsAt, interiorAt, if_pos rfl, List.getElem?_map, List.getElem?_range hk, Option.map_some, ownPoint,
      Nat.add_mul, hp, hi, Nat.add_assoc]
  case spanned =>
    rintro rfl
    rw [interior, boundary]
    rfl
  case sharedColor =>
    intro k hk
    rw [corners, partsAt, List.getElem?_append_left (hc ▸ hk)]
    exact ends k hk
  case ownColor =>
    intro k hk own
    rw [corners, partsAt, getElem?_append_map_range _ _ hk (hc ▸ own), hp, hc, ownColor, ownPoints_eq, Nat.add_mul, hi,
      Nat.add_assoc i]

end

/-! ## Reading all records -/

variable {f : MeshFormat} {tensor : Bool} {data : Bytes} {prev : Option (Patch α Float32)} {b : Nat}

theorem eq_of_shared {β : Type} {xs ys : List β} {n shared : Nat} (hx : xs.length = n) (hy : ys.length = n)
    (first : ∀ k < shared, xs[k]? = ys[k]?) (own : ∀ k < n, shared ≤ k → xs[k]? = ys[k]?) : xs = ys := by
  refine List.ext_getElem?' fun k hk => ?_
  rw [hx, hy, Nat.max_self] at hk
  exact (Nat.lt_or_ge k shared).elim (first k) (own k hk)

/-- A record denotes one patch. -/
theorem Recorded.unique {p p' : Patch α Float32} (h : Recorded f tensor data prev b p)
    (h' : Recorded f tensor data prev b p') : p = p' := by
  have boundary : p.boundary = p'.boundary := by
    refine eq_of_shared rfl rfl (fun k hk => ?_) fun k hk own => (h.ownPoint k hk own).trans (h'.ownPoint k hk own).symm
    obtain ⟨q, hq, edge⟩ := h.sharedPoint k hk
    obtain ⟨q', hq', edge'⟩ := h'.sharedPoint k hk
    cases hq.symm.trans hq'
    exact edge.trans edge'.symm
  have corners : p.corners = p'.corners := by
    refine eq_of_shared rfl rfl (fun k hk => ?_) fun k hk own => (h.ownColor k hk own).trans (h'.ownColor k hk own).symm
    obtain ⟨q, hq, ends⟩ := h.sharedColor k hk
    obtain ⟨q', hq', ends'⟩ := h'.sharedColor k hk
    cases hq.symm.trans hq'
    exact ends.trans ends'.symm
  refine ext_stream boundary ?_ corners
  cases tensor with
  | true => exact List.ext_getElem?' fun k hk => (h.ownInterior rfl k hk).trans (h'.ownInterior rfl k hk).symm
  | false => rw [h.spanned rfl, h'.spanned rfl, boundary]

theorem Meshes.unique {ps ps' : List (Patch α Float32)} (h : Meshes f tensor data prev b ps)
    (h' : Meshes f tensor data prev b ps') : ps = ps' := by
  induction h generalizing ps' with
  | stop absent =>
    cases h' with
    | stop => rfl
    | record present => exact absurd present absent
  | record present recorded _ ih =>
    cases h' with
    | stop absent => exact absurd present absent
    | record _ recorded' rest =>
      cases recorded.unique recorded'
      rw [ih rest]

theorem readFrom_meshes (h : f.Admitted) : ∀ (fuel : Nat) (prev : Option (Patch α Float32)) (b : Nat),
    b ≤ data.length → data.length < b + fuel → Meshes f tensor data prev b (readFrom f tensor prev fuel (atBit data (8 * b)))
  | 0, _, _, _, enough => absurd enough (by omega)
  | fuel + 1, prev, b, hb, enough => by
    by_cases present : Present f tensor data prev b
    · obtain ⟨p, recorded, read⟩ := record?_recorded tensor data h present
      -- every record takes a byte at least, so that the fuel lasts
      have positive := h.patchBytes_pos tensor data b
      rw [readFrom, read]
      exact .record present recorded (readFrom_meshes h fuel (some p) _ present.2 (by omega))
    · rw [readFrom, record?_eq_none tensor data h hb present]
      exact .stop present

/-- **The patches of a mesh are those of its records.**  What the reader gives is what the records from the first byte on
denote, and nothing else is: each begins with the byte after the one before it, is as long as its flag says, takes an edge
and two colors over from the patch before it if its flag is not 0, and has all other points and colors stored in order; and
the first record that is incomplete or has a flag that does not fit is the end. -/
theorem patches_of_records {st : Store} {d : Dict} {n : Nat} {f : MeshFormat} (h : MeshFormat.read st d n = .ok f)
    (tensor : Bool) (data : Bytes) (ps : List (Patch α Float32)) :
    Meshes f tensor data none 0 ps ↔ readAll f tensor data = ps := by
  have all : Meshes f tensor data none 0 (readAll f tensor data : List (Patch α Float32)) :=
    readFrom_meshes (MeshFormat.read_admitted st d n f h) _ none 0 (Nat.zero_le _) (by unfold bound; omega)
  exact ⟨all.unique, fun read => read ▸ all⟩

/-- A square, another patch at its edge from the second to the third corner, and a record that is cut off. -/
def hinged : Bytes :=
  [0, 0, 0, 0, 10, 0, 20, 0, 30, 10, 30, 20, 30, 30, 30, 30, 20, 30, 10, 30, 0, 20, 0, 10, 0, 0, 255, 255, 0,
    1, 30, 40, 30, 50, 30, 60, 20, 60, 10, 60, 0, 60, 0, 50, 0, 40, 0, 0, 0, 0, 0]

theorem hinged_patches : MeshFormat.read .empty bytewiseDict 1 = .ok bytewise ∧
    ∃ p q : Patch Float32 Float32, Meshes bytewise false hinged none 0 [p, q] ∧
      p.boundary.drop 3 = [⟨0, 30⟩, ⟨10, 30⟩, ⟨20, 30⟩, ⟨30, 30⟩, ⟨30, 20⟩, ⟨30, 10⟩, ⟨30, 0⟩, ⟨20, 0⟩, ⟨10, 0⟩] ∧
      q.boundary = [⟨0, 30⟩, ⟨10, 30⟩, ⟨20, 30⟩, ⟨30, 30⟩, ⟨30, 40⟩, ⟨30, 50⟩, ⟨30, 60⟩, ⟨20, 60⟩, ⟨10, 60⟩, ⟨0, 60⟩,
        ⟨0, 50⟩, ⟨0, 40⟩] ∧
      p.corners = [[0], [1], [1], [0]] ∧ q.corners = [[1], [1], [0], [0]] :=
  ⟨read_bytewise, _, _, (patches_of_records read_bytewise false hinged _).mpr rfl, rfl, rfl, rfl, rfl⟩

end Patch

end PdfContent
