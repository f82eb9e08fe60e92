import PdfContent.Proofs.Color.Reading
/-!
# Outputs — how many numbers a function gives

A sampled or exponential function gives as many numbers as it advertises.  A stitching function gives as many as the part
does that is in charge of the input.  What it advertises is taken from its range, or from its first part, and nothing
compares these with the other parts: where all parts agree, the advertised number is the real one (`advertised_outputs`),
and else it need not be (`range_narrower_than_part`).
-/
namespace PdfContent

namespace Function

/-- The sampled or exponential function that gives the numbers for some inputs.  A stitching function leaves an input to
one of its parts. -/
inductive InCharge : Function → List Float32 → Function → Prop where
  | sampled {g : Grid Float32} {bits : Nat} {decode range : Ranges Float32} {inputs : List Float32} :
      InCharge (.sampled g bits decode range) inputs (.sampled g bits decode range)
  | exponential {domain : Ranges Float32} {range : Option (Ranges Float32)} {c0 c1 : List Float32} {n : Float32}
      {inputs : List Float32} : InCharge (.exponential domain range c0 c1 n) inputs (.exponential domain range c0 c1 n)
  | stitching {domain : Ranges Float32} {range : Option (Ranges Float32)} {fs : List Function} {bounds : List Float32}
      {encode : Ranges Float32} {inputs : List Float32} {part g : Function}
      (selected : fs[piece bounds (firstInput domain inputs)]? = some part)
      (inner : InCharge part [pieceInput domain bounds encode (firstInput domain inputs)] g) :
      InCharge (.stitching domain range fs bounds encode) inputs g

/-- All functions inside of a function, and the ranges that are given for stitching functions, have `n` outputs. -/
inductive Uniform (n : Nat) : Function → Prop where
  | sampled {g : Grid Float32} {bits : Nat} {decode range : Ranges Float32} (outputs : range.length = n) :
      Uniform n (.sampled g bits decode range)
  | exponential {domain : Ranges Float32} {range : Option (Ranges Float32)} {c0 c1 : List Float32} {exponent : Float32}
      (outputs : c0.length = n) : Uniform n (.exponential domain range c0 c1 exponent)
  | stitching {domain : Ranges Float32} {range : Option (Ranges Float32)} {fs : List Function} {bounds : List Float32}
      {encode : Ranges Float32} (ranged : ∀ r, range = some r → r.length = n) (parts : ∀ f ∈ fs, Uniform n f) :
      Uniform n (.stitching domain range fs bounds encode)

theorem Uniform.outputs?_inCharge {n : Nat} {f g : Function} {inputs : List Float32} (h : f.Uniform n)
    (hg : f.InCharge inputs g) : g.outputs? = some n := by
  induction hg with
  | sampled =>
    cases h with
    | sampled outputs => rw [outputs?, outputs]
  | exponential =>
    cases h with
    | exponential outputs => rw [outputs?, outputs]
  | stitching selected _ ih =>
    cases h with
    | stitching _ parts => exact ih (parts _ (List.mem_of_getElem? selected))

theorem length_clampOutputs (range : Option (Ranges Float32)) (outputs : List Float32) :
    (clampOutputs range outputs).length = outputs.length := by
  cases range with
  | none => rfl
  | some range => rw [clampOutputs, List.length_map, List.length_zipIdx]

theorem evalNth_eq : ∀ (fs : List Function) (k : Nat) {part : Function} (inputs : List Float32), fs[k]? = some part →
    evalNth fs k inputs = part.eval inputs
  | _ :: _, 0, _, inputs, h => by
    cases h
    rw [evalNth]
  | _ :: fs, k + 1, _, inputs, h => by
    rw [evalNth]
    exact evalNth_eq fs k inputs h

/-- There is a part for every input. -/
theorem exists_part {fs : List Function} {bounds : List Float32} (bounded : bounds.length + 1 = fs.length) (x : Float32) :
    ∃ part ∈ fs, fs[piece bounds x]? = some part := by
  have le : piece bounds x ≤ bounds.length := List.findIdx_le_length
  have lt : piece bounds x < fs.length := by omega
  exact ⟨fs[piece bounds x], List.getElem_mem lt, List.getElem?_eq_getElem lt⟩

theorem Sound.exists_outputs {f : Function} (h : f.Sound) : ∃ n, f.outputs? = some n := by
  induction h with
  | sampled => exact ⟨_, by rw [outputs?]⟩
  | exponential => exact ⟨_, by rw [outputs?]⟩
  | @stitching domain range fs bounds encode bounded _ _ ih =>
    cases range with
    | some range => exact ⟨range.length, by rw [outputs?]⟩
    | none =>
      match fs with
      | f :: fs =>
        obtain ⟨n, hn⟩ := ih f List.mem_cons_self
        exact ⟨n, by rw [outputs?, firstOutputs?, hn]⟩

theorem Uniform.outputs? {n : Nat} {f : Function} (h : f.Uniform n) (sound : f.Sound) : f.outputs? = some n := by
  induction sound with
  | sampled =>
    cases h with
    | sampled outputs => rw [Function.outputs?, outputs]
  | exponential =>
    cases h with
    | exponential outputs => rw [Function.outputs?, outputs]
  | @stitching domain range fs bounds encode bounded _ _ ih =>
    cases h with
    | stitching ranged parts =>
      cases range with
      | some range => rw [Function.outputs?, ranged range rfl]
      | none =>
        match fs with
        | f :: fs =>
          rw [Function.outputs?, firstOutputs?]
          exact ih f List.mem_cons_self (parts f List.mem_cons_self)

/-- **There are as many outputs as the function in charge advertises.** -/
theorem Sound.eval_inCharge {f : Function} (h : f.Sound) (inputs : List Float32) :
    ∃ g, f.InCharge inputs g ∧ g.outputs? = some (f.eval inputs).length := by
  induction h generalizing inputs with
  | @sampled g bits decode range _ decoded _ =>
    refine ⟨_, .sampled, ?_⟩
    rw [outputs?, eval, evalGrid, List.length_map, List.length_zipIdx, List.length_zip, decoded, Nat.min_self]
  | @exponential domain range c0 c1 n ends =>
    refine ⟨_, .exponential, ?_⟩
    rw [outputs?, eval, length_clampOutputs, List.length_map, List.length_zip, ends, Nat.min_self]
  | @stitching domain range fs bounds encode bounded _ _ ih =>
    obtain ⟨part, mem, selected⟩ := exists_part bounded (firstInput domain inputs)
    obtain ⟨g, inner, outputs⟩ := ih part mem [pieceInput domain bounds encode (firstInput domain inputs)]
    refine ⟨g, .stitching selected inner, ?_⟩
    rw [outputs, eval, length_clampOutputs, evalNth_eq fs _ _ selected]

/-- **How many numbers a function gives.**  A number of outputs is known for every function that is read.  For any inputs
it gives as many numbers as the function that is in charge of them has outputs.  So the advertised number is the real one
wherever the parts of stitching functions agree with each other and with the ranges. -/
theorem advertised_outputs {st : Store} {o : Object} {f : Function} (h : ofObject st o = .ok f) :
    (∃ n, f.outputs? = some n) ∧ (∀ inputs, ∃ g, f.InCharge inputs g ∧ g.outputs? = some (f.eval inputs).length) ∧
      ∀ n, f.Uniform n → f.outputs? = some n ∧ ∀ inputs, (f.eval inputs).length = n := by
  have sound := ofObject_sound st o f h
  refine ⟨sound.exists_outputs, sound.eval_inCharge, fun n uniform => ⟨uniform.outputs? sound, fun inputs => ?_⟩⟩
  obtain ⟨g, inCharge, outputs⟩ := sound.eval_inCharge inputs
  rw [uniform.outputs?_inCharge inCharge] at outputs
  exact (Option.some.inj outputs).symm

def narrowStitching : Object :=
  let numbers (ns : List Int) : Object := .array (ns.map fun n => .num (.int n))
  let number (n : Int) : Object := .num (.int n)
  .dict ⟨[("Bounds", .array []), ("Domain", numbers [0, 1]), ("Encode", numbers [0, 1]), ("FunctionType", number 3),
    ("Functions", .array [.dict ⟨[("C0", numbers [0, 0]), ("C1", numbers [1, 1]), ("Domain", numbers [0, 1]),
      ("FunctionType", number 2), ("N", number 1)]⟩]), ("Range", numbers [0, 1])]⟩

/-- One output is advertised, and there are two for every input. -/
theorem range_narrower_than_part : ∃ f, ofObject .empty narrowStitching = .ok f ∧ f.outputs? = some 1 ∧
    ∀ inputs, (f.eval inputs).length = 2 := by
  obtain ⟨domain, bounds, encode, range, inner, c0, c1, n, h, two⟩ : ∃ domain bounds encode range inner c0 c1 n,
      ofObject .empty narrowStitching =
        .ok (.stitching domain (some [range]) [.exponential inner none c0 c1 n] bounds encode) ∧ c0.length = 2 :=
    ⟨_, _, _, _, _, _, _, _, rfl, rfl⟩
  refine ⟨_, h, by rw [outputs?]; rfl, fun inputs => ?_⟩
  obtain ⟨g, inCharge, outputs⟩ := (advertised_outputs h).2.1 inputs
  cases inCharge with
  | stitching selected inner =>
    obtain rfl := List.mem_singleton.mp (List.mem_of_getElem? selected)
    cases inner with
    | exponential =>
      rw [outputs?, two] at outputs
      exact (Option.some.inj outputs).symm

end Function

end PdfContent
