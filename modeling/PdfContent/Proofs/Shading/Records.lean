import PdfContent.Proofs.Drawing.Form
import PdfContent.Proofs.Filter.Bits
/-!
# Records — where the numbers of a mesh lie in its data

A reader of a mesh takes a number of bits that is known before, and what it gives depends on nothing but the bit it starts
at (`Takes`); it fails only if there are not as many bits left.  Readers that run one after the other are such a reader,
too.  Records that are padded to whole bytes and all have one size are therefore found by dividing (`records_eq`).
-/
namespace PdfContent

open Scalar

def Bytes.number (s : Bytes) (i n : Nat) : Nat := bitsValue ((s.bits.drop i).take n)

namespace BitReader

def atBit (data : Bytes) (i : Nat) : BitReader := ⟨data.toArray, i⟩

/-- The reader gives `value i` if it starts at bit `i`, and takes `width` bits for it. -/
def Takes {β : Type} (data : Bytes) (next? : BitReader → Option (β × BitReader)) (width : Nat) (value : Nat → β) : Prop :=
  ∀ i ≤ 8 * data.length,
    next? (atBit data i) = if i + width ≤ 8 * data.length then some (value i, atBit data (i + width)) else none

namespace Takes

variable {β δ : Type} {data : Bytes} {next? : BitReader → Option (β × BitReader)} {w w' : Nat} {value : Nat → β}

theorem read {n : Nat} (hn : n ≤ 32) : Takes data (fun r => r.read? n) n fun i => data.number i n := by
  intro i _
  have size : (atBit data i).data.size = data.length := List.size_toArray
  simp only [read?_eq, hasLessThan, size, gt_iff_lt, Nat.not_lt.mpr hn, decide_false, Bool.false_or, decide_eq_true_eq]
  split
  case isTrue missing => rw [if_neg (by simp only [atBit] at missing; omega)]
  case isFalse enough => rw [if_pos (by simp only [atBit] at enough; omega)]; rfl

theorem pure (x : β) : Takes data (fun r => some (x, r)) 0 fun _ => x := by
  intro i hi
  rw [Nat.add_zero, if_pos hi]

theorem bind {more? : β → BitReader → Option (δ × BitReader)} {value' : β → Nat → δ} (h : Takes data next? w value)
    (more : ∀ x, Takes data (more? x) w' (value' x)) :
    Takes data (fun r => (next? r).bind fun (x, r) => more? x r) (w + w') fun i => value' (value i) (i + w) := by
  intro i hi
  dsimp only
  rw [h i hi]
  split
  case isTrue first =>
    rw [Option.bind_some, more _ _ first, Nat.add_assoc]
  case isFalse first => rw [Option.bind_none, if_neg (by omega)]

theorem congr {width : Nat} {value' : Nat → β} (h : Takes data next? w value) (hw : width = w)
    (hv : ∀ i, value' i = value i) : Takes data next? width value' := by
  obtain rfl : value' = value := funext hv
  exact hw ▸ h

theorem map (h : Takes data next? w value) (f : β → δ) :
    Takes data (fun r => (next? r).map fun (x, r) => (f x, r)) w fun i => f (value i) := by
  intro i hi
  dsimp only
  rw [h i hi, apply_ite (Option.map _)]
  rfl

theorem scaled {n : Nat} (hn : n ≤ 32) (low high : Float32) :
    Takes data (fun r => r.readScaled? n low high) n fun i => BitReader.scaled n low high (data.number i n) :=
  (read hn).map _

theorem many (h : Takes data next? w value) : ∀ n : Nat,
    Takes data (Patch.readMany next? n) (n * w) fun i => (List.range n).map fun k => value (i + k * w)
  | 0 => congr (pure []) (Nat.zero_mul w) fun _ => rfl
  | n + 1 => by
    refine congr (h.bind fun x => (many h n).bind fun xs => pure (x :: xs)) ?_ fun i => ?_
    · rw [Nat.succ_mul, Nat.add_zero, Nat.add_comm]
    · rw [List.range_succ_eq_map, List.map_cons, List.map_map, Nat.zero_mul, Nat.add_zero]
      congr 1
      refine List.map_congr_left fun k _ => ?_
      rw [Function.comp_apply, Nat.succ_mul, Nat.add_assoc, Nat.add_comm w]

end Takes

def bytesFor (bits : Nat) : Nat := (bits + 7) / 8

theorem bytesFor_pos {bits : Nat} (h : 0 < bits) : 0 < bytesFor bits := by
  unfold bytesFor
  omega

theorem align_atBit (data : Bytes) (b w : Nat) : (atBit data (8 * b + w)).align = atBit data (8 * (b + bytesFor w)) := by
  have : (8 * b + w + 7) / 8 * 8 = 8 * (b + bytesFor w) := by
    unfold bytesFor
    omega
  exact congrArg (atBit data) this

/-- **A record that begins with a byte and is padded ends with one.** -/
theorem Takes.padded {β : Type} {data : Bytes} {next? : BitReader → Option (β × BitReader)} {w : Nat} {value : Nat → β}
    (h : Takes data next? w value) {b : Nat} (hb : b ≤ data.length) :
    ((next? (atBit data (8 * b))).map fun (x, r) => (x, r.align)) =
      if b + bytesFor w ≤ data.length then some (value (8 * b), atBit data (8 * (b + bytesFor w))) else none := by
  have fits : 8 * b + w ≤ 8 * data.length ↔ b + bytesFor w ≤ data.length := by
    unfold bytesFor
    omega
  rw [h _ (by omega)]
  simp only [fits]
  split
  · rw [Option.map_some, align_atBit]
  · rfl

end BitReader

namespace MeshFormat

open BitReader

/-- **Records of one size are found by dividing**, and an incomplete one at the end is left out. -/
theorem records_eq {β : Type} {data : Bytes} {next? : BitReader → Option (β × BitReader)} {size : Nat} {value : Nat → β}
    (positive : 0 < size)
    (next : ∀ b ≤ data.length, next? (atBit data (8 * b)) =
      if b + size ≤ data.length then some (value b, atBit data (8 * (b + size))) else none) :
    ∀ (fuel b : Nat), b ≤ data.length → data.length < b + fuel →
      records next? fuel (atBit data (8 * b)) =
        (List.range ((data.length - b) / size)).map fun k => value (b + k * size)
  | 0, b, hb, enough => absurd enough (by omega)
  | fuel + 1, b, hb, enough => by
    rw [records, next b hb]
    by_cases complete : b + size ≤ data.length
    · have count : (data.length - b) / size = (data.length - (b + size)) / size + 1 := by
        rw [← Nat.add_div_right _ positive]
        congr 1
        omega
      rw [if_pos complete, count, List.range_succ_eq_map, List.map_cons, List.map_map]
      dsimp only
      rw [records_eq positive next fuel (b + size) complete (by omega), Nat.zero_mul, Nat.add_zero]
      congr 1
      refine List.map_congr_left fun k _ => ?_
      rw [Function.comp_apply, Nat.succ_mul, Nat.add_assoc, Nat.add_comm size]
    · rw [if_neg complete, Nat.div_eq_of_lt (by omega)]
      rfl

/-! ## Points, colors and vertices -/

section

variable (f : MeshFormat) (data : Bytes)

def pointBits : Nat := 2 * f.coordinateBits

def colorBits : Nat := f.colors.length * f.componentBits

def vertexBits : Nat := f.pointBits + f.colorBits

def coordinateAt (range : Float32 × Float32) (i : Nat) : Float32 :=
  scaled f.coordinateBits range.1 range.2 (data.number i f.coordinateBits)

def componentAt (range : Float32 × Float32) (i : Nat) : Float32 :=
  scaled f.componentBits range.1 range.2 (data.number i f.componentBits)

def pointAt {α : Type} [Scalar α] (i : Nat) : Point α :=
  ⟨ofFloat32 (f.coordinateAt data f.x i), ofFloat32 (f.coordinateAt data f.y (i + f.coordinateBits))⟩

def colorAt (i : Nat) : Color := f.colors.mapIdx fun k range => f.componentAt data range (i + k * f.componentBits)

def vertexAt {α : Type} [Scalar α] (i : Nat) : Vertex α Float32 := ⟨f.pointAt data i, f.colorAt data (i + f.pointBits)⟩

end

/-- The numbers of a mesh have widths that can be read, and its flags at least one bit. -/
structure Admitted (f : MeshFormat) : Prop where
  coordinate_pos : 0 < f.coordinateBits
  coordinate_le : f.coordinateBits ≤ 32
  component_le : f.componentBits ≤ 32
  flag_le : f.flagBits ≤ 32

theorem read_admitted (st : Store) (d : Dict) (n : Nat) : Yields Admitted (read st d n) := by
  have allowed {bits : Option Nat} {widths : List Nat} {width : Nat} (h : bits.filter widths.contains = some width) :
      width ∈ widths := List.contains_iff_mem.mp (Option.filter_eq_some_iff.mp h).2
  unfold read
  dsimp only
  split
  case h_2 => exact .throw _
  case h_1 coordinateBits hc =>
  split
  case h_2 => exact .throw _
  case h_1 componentBits hp =>
  have flag : (((st.lookup? d "BitsPerFlag" : Option UInt8).map (·.toNat)).filter [2, 4, 8].contains).getD 8 ≤ 32 := by
    cases hf : ((st.lookup? d "BitsPerFlag" : Option UInt8).map (·.toNat)).filter [2, 4, 8].contains with
    | none => decide
    | some width => exact (by decide : ∀ width ∈ [2, 4, 8], width ≤ 32) width (allowed hf)
  obtain ⟨coordinate_pos, coordinate_le⟩ :=
    (by decide : ∀ width ∈ [1, 2, 4, 8, 12, 16, 24, 32], 0 < width ∧ width ≤ 32) coordinateBits (allowed hc)
  have component_le := (by decide : ∀ width ∈ [1, 2, 4, 8, 12, 16], width ≤ 32) componentBits (allowed hp)
  split
  case h_1 => exact .branch (.throw _) (.pure ⟨coordinate_pos, coordinate_le, component_le, flag⟩)
  case h_2 => exact .throw _

variable {α : Type} [Scalar α] {f : MeshFormat}

theorem Admitted.flag (h : f.Admitted) (data : Bytes) :
    Takes data (fun r => r.read? f.flagBits) f.flagBits fun i => data.number i f.flagBits := .read h.flag_le

theorem Admitted.point (h : f.Admitted) (data : Bytes) :
    Takes data (f.point? : BitReader → Option (Point α × BitReader)) f.pointBits (f.pointAt data) := by
  refine ((Takes.scaled h.coordinate_le f.x.1 f.x.2).bind fun x =>
    (Takes.scaled h.coordinate_le f.y.1 f.y.2).bind fun y => .pure (Point.mk (ofFloat32 x) (ofFloat32 y))).congr ?_ fun i => rfl
  rw [pointBits, Nat.two_mul, Nat.add_zero]

theorem Admitted.components (h : f.Admitted) (data : Bytes) : ∀ ranges : Ranges Float32,
    Takes data (fun r => f.components? r ranges) (ranges.length * f.componentBits) fun i =>
      ranges.mapIdx fun k range => f.componentAt data range (i + k * f.componentBits)
  | [] => (Takes.pure []).congr (Nat.zero_mul _) fun _ => rfl
  | (low, high) :: ranges => by
    refine ((Takes.scaled h.component_le low high).bind fun x =>
      (h.components data ranges).bind fun xs => .pure (x :: xs)).congr ?_ fun i => ?_
    · rw [List.length_cons, Nat.succ_mul, Nat.add_zero, Nat.add_comm]
    · rw [List.mapIdx_cons, Nat.zero_mul, Nat.add_zero]
      congr 1
      refine congrArg ranges.mapIdx (funext fun k => funext fun range => ?_)
      rw [Nat.succ_mul, Nat.add_assoc, Nat.add_comm f.componentBits]

theorem Admitted.color (h : f.Admitted) (data : Bytes) : Takes data f.color? f.colorBits (f.colorAt data) :=
  h.components data f.colors

theorem Admitted.vertex (h : f.Admitted) (data : Bytes) :
    Takes data (f.vertex? : BitReader → Option (Vertex α Float32 × BitReader)) f.vertexBits (f.vertexAt data) :=
  ((h.point data).bind fun point => (h.color data).bind fun color => .pure (Vertex.mk point color)).congr rfl fun _ => rfl

def bytewiseDict : Dict :=
  let number (n : Int) : Object := .num (.int n)
  ⟨[("BitsPerComponent", number 8), ("BitsPerCoordinate", number 8), ("BitsPerFlag", number 8),
    ("Decode", .array ([0, 255, 0, 255, 0, 1].map number))]⟩

/-- Coordinates up to 255 and one color component up to 1, all of them in bytes. -/
def bytewise : MeshFormat := ⟨8, 8, 8, (0, 255), (0, 255), [(0, 1)]⟩

theorem read_bytewise : read .empty bytewiseDict 1 = .ok bytewise := rfl

end MeshFormat

end PdfContent
