import PdfContent.Color.Function
import PdfContent.Proofs.Yields
/-!
# Reading — what is certain of a function that was read

The lists of a function that belong together have one length, and a sampled function stores a sample for every point of
its grid, so evaluation finds what it looks for (`ofObject_sound`).  What the parts of a stitching function have in common
is not looked at.
-/
namespace PdfContent

theorem Yields.mapM {ε β γ : Type} {p : γ → Prop} {f : β → Except ε γ} (h : ∀ x, Yields p (f x)) :
    ∀ xs : List β, Yields (fun ys => ∀ y ∈ ys, p y) (xs.mapM f)
  | [] => .pure (List.forall_mem_nil _)
  | x :: xs => by
    rw [List.mapM_cons]
    exact .bind_of fun y hy => .bind_of fun ys hys =>
      .pure (List.forall_mem_cons.mpr ⟨h x y hy, mapM h xs ys hys⟩)

namespace Grid

/-- Every axis of the grid has a domain, an interval of indices and at least one sample, and there are as many samples as
the grid has points and outputs. -/
structure Filled {γ : Type} (g : Grid γ) : Prop where
  domain : g.domain.length = g.size.length
  encode : g.encode.length = g.size.length
  positive : ∀ n ∈ g.size, 0 < n
  samples : g.samples.size = g.size.foldl (· * ·) g.outputs

end Grid

namespace Function

/-- The lists of a function fit each other.  The parts of a stitching function may differ in how many outputs they
have. -/
inductive Sound : Function → Prop where
  | sampled {g : Grid Float32} {bits : Nat} {decode range : Ranges Float32} (filled : g.Filled)
      (decoded : decode.length = range.length) (outputs : g.outputs = range.length) : Sound (.sampled g bits decode range)
  | exponential {domain : Ranges Float32} {range : Option (Ranges Float32)} {c0 c1 : List Float32} {n : Float32}
      (ends : c0.length = c1.length) : Sound (.exponential domain range c0 c1 n)
  | stitching {domain : Ranges Float32} {range : Option (Ranges Float32)} {fs : List Function} {bounds : List Float32}
      {encode : Ranges Float32} (bounded : bounds.length + 1 = fs.length) (encoded : encode.length = fs.length)
      (parts : ∀ f ∈ fs, Sound f) : Sound (.stitching domain range fs bounds encode)

theorem readSampled_sound (st : Store) (s : Stream) (domain : Ranges Float32) (range : Option (Ranges Float32)) :
    Yields Sound (readSampled st s domain range) := by
  -- an entry that does not fit is replaced by a default which does
  have fits {n : Nat} (entry : Option (Ranges Float32)) {default : Ranges Float32} (hd : default.length = n) :
      ((entry.filter fun e => e.length == n).getD default).length = n := by
    cases he : entry.filter fun e => e.length == n with
    | none => exact hd
    | some e => exact beq_iff_eq.mp (Option.filter_eq_some_iff.mp he).2
  unfold readSampled
  dsimp only
  refine .branch (.throw _) (.branch (.throw _) (.branch (.throw _) ?_))
  split
  case isTrue => exact .throw _
  case isFalse sizes =>
  refine .branch (.throw _) (.bind fun decoded => ?_)
  split
  case h_1 => exact .throw _
  case h_2 data =>
  simp only [Bool.or_eq_true, bne_iff_ne, ne_eq, not_or, Decidable.not_not, List.any_eq_true, beq_iff_eq,
    not_exists, not_and] at sizes
  obtain ⟨axes, positive⟩ := sizes
  refine .pure (.sampled ⟨axes.symm, fits _ (by rw [List.length_map]), fun n hn => Nat.pos_of_ne_zero (positive n hn), ?_⟩
    (fits _ rfl) rfl)
  rw [readSamples, Array.size_ofFn]

theorem readExponential_sound (st : Store) (d : Dict) (domain : Ranges Float32) (range : Option (Ranges Float32)) :
    Yields Sound (readExponential st d domain range) := by
  unfold readExponential
  dsimp only
  split
  case isTrue => exact .throw _
  case isFalse ends =>
  split
  · exact .throw _
  · exact .pure (.exponential (by simpa using ends))

theorem read_sound (st : Store) : ∀ (depth : Nat) (o : Object), Yields Sound (read st depth o)
  | 0, _ => .throw _
  | depth + 1, o => by
    unfold read
    dsimp only
    split
    case h_2 => exact .throw _
    split
    case h_2 => exact .throw _
    split
    · split
      · exact readSampled_sound st _ _ _
      · exact .throw _
    · exact readExponential_sound st _ _ _
    · split
      case h_2 => exact .throw _
      refine .bind_of fun fs hfs => ?_
      have parts := Yields.mapM (read_sound st depth) _ fs hfs
      split
      case isTrue => exact .throw _
      case isFalse some_ =>
      split
      case h_2 => exact .throw _
      case h_1 bounds hb =>
      split
      case h_2 => exact .throw _
      case h_1 encode he =>
      have nonempty : 0 < fs.length := List.length_pos_iff.mpr (by simpa using some_)
      have bounded : bounds.length = fs.length - 1 := beq_iff_eq.mp (Option.filter_eq_some_iff.mp hb).2
      have encoded : encode.length = fs.length := beq_iff_eq.mp (Option.filter_eq_some_iff.mp he).2
      exact .pure (.stitching (by omega) encoded parts)
    · exact .throw _
    · exact .throw _
    · exact .throw _

/-- **What is read fits together.** -/
theorem ofObject_sound (st : Store) (o : Object) : Yields Sound (ofObject st o) := read_sound st _ o

end Function

end PdfContent
