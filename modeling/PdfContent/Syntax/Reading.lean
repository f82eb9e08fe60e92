import PdfContent.Syntax.Token
/-!
# Reading — objects from tokens

Arrays and dictionaries are read with a stack of the containers that are still open.  An element that would lie inside
of more than `maxNesting` containers is dropped, and the end of the bytes closes every container that is open.
-/
namespace PdfContent

/-- A container whose end has not been read: its elements, the last one first, and the key that waits for a value. -/
inductive Frame where
  | array (items : List Object)
  | dict (entries : List (Name × Object)) (key : Option Name)

namespace Frame

def close : Frame → Object
  | .array items => .array items.reverse
  | .dict entries _ => .dict (.ofList entries.reverse)

def add (o : Object) : Frame → Frame
  | .array items => .array (o :: items)
  | .dict entries (some key) => .dict ((key, o) :: entries) none
  | .dict entries none => .dict entries none

/-- Leaves an element out; the key that waits for it is dropped. -/
def skip : Frame → Frame
  | .array items => .array items
  | .dict entries _ => .dict entries none

end Frame

namespace Reading

/-- How many containers may lie around an element. -/
def maxNesting : Nat := 64

/-- The word between the numbers of a reference and what follows. -/
def referenceWord : Bytes := Bytes.ofText "R"

/-- A reference, if an integer and the word `R` follow the number, else the number itself.  Numbers that are too large
for a reference are dropped together with the word, and only the first of them stays. -/
def numberOrReference (n : Number) (s : Bytes) : Object × Bytes :=
  match n with
  | .real _ => (.num n, s)
  | .int i =>
    match Token.next? s with
    | some (.number (.int g), s₁) =>
      match Token.next? s₁ with
      | some (.keyword w, s₂) =>
        if w != referenceWord then (.num n, s)
        else if 0 ≤ i && i < UInt32.size && 0 ≤ g && g < UInt16.size then (.ref ⟨i.toNat, g.toNat⟩, s₂)
        else (.num n, s₂)
      | _ => (.num n, s)
    | _ => (.num n, s)

def constant? (word : Bytes) : Option Object :=
  if word == Bytes.ofText "true" then some (.bool true)
  else if word == Bytes.ofText "false" then some (.bool false)
  else if word == Bytes.ofText "null" then some .null
  else none

/-- An object that is one token, or a reference of three. -/
def scalar? (references : Bool) (t : Token) (s : Bytes) : Option Object × Bytes :=
  match t with
  | .number n => if references then let (o, s) := numberOrReference n s; (some o, s) else (some (.num n), s)
  | .name n => (some (.name n), s)
  | .string b => (some (.str b), s)
  | .keyword w => (constant? w, s)
  | _ => (none, s)

inductive Step where
  | more (outer : List Frame) (top : Frame) (rest : Bytes)
  | done (o : Object) (rest : Bytes)

def finish (outer : List Frame) (top : Frame) (rest : Bytes) : Step :=
  match outer with
  | [] => .done top.close rest
  | f :: outer => .more outer (f.add top.close) rest

def element (references : Bool) (outer : List Frame) (top : Frame) (t : Token) (rest : Bytes) : Step :=
  if outer.length + 1 > maxNesting then .more outer top.skip rest
  else
    match t with
    | .arrayStart => .more (top :: outer) (.array []) rest
    | .dictStart => .more (top :: outer) (.dict [] none) rest
    | _ =>
      match scalar? references t rest with
      | (some o, rest) => .more outer (top.add o) rest
      | (none, rest) => .more outer top.skip rest

/-- Reads on in the innermost container.  In a dictionary, what stands in the place of a key and is no name is
ignored. -/
def step (references : Bool) (outer : List Frame) (top : Frame) (t : Token) (rest : Bytes) : Step :=
  match top, t with
  | .array _, .arrayEnd => finish outer top rest
  | .dict _ _, .dictEnd => finish outer top rest
  | .dict entries none, .name key => .more outer (.dict entries (some key)) rest
  | .dict _ none, _ => .more outer top rest
  | _, _ => element references outer top t rest

def closeAll (outer : List Frame) (top : Frame) : Object := (outer.foldl (fun f g => g.add f.close) top).close

def Step.rest : Step → Bytes
  | .more _ _ rest => rest
  | .done _ rest => rest

theorem length_numberOrReference_le (n : Number) (s : Bytes) : (numberOrReference n s).2.length ≤ s.length := by
  unfold numberOrReference
  repeat' split
  all_goals (try simp only [Nat.le_refl])
  all_goals (rename_i h₁ _ _ _ h₂ _ _; have := Token.length_next?_lt h₁; have := Token.length_next?_lt h₂; omega)

theorem length_scalar?_le (refs : Bool) (t : Token) (s : Bytes) : (scalar? refs t s).2.length ≤ s.length := by
  cases t <;> simp only [scalar?, Nat.le_refl]
  rename_i n
  cases refs
  · exact Nat.le_refl _
  · exact length_numberOrReference_le n s

theorem length_step_le (refs : Bool) (outer : List Frame) (top : Frame) (t : Token) (rest : Bytes) :
    (step refs outer top t rest).rest.length ≤ rest.length := by
  have hs := length_scalar?_le refs t rest
  have he : (element refs outer top t rest).rest.length ≤ rest.length := by
    unfold element
    repeat' split
    all_goals (try simp only [Step.rest, Nat.le_refl])
    all_goals (rename_i h; rw [h] at hs; exact hs)
  have hf : (finish outer top rest).rest = rest := by unfold finish; split <;> rfl
  unfold step
  split
  · exact Nat.le_of_eq (congrArg List.length hf)
  · exact Nat.le_of_eq (congrArg List.length hf)
  · exact Nat.le_refl _
  · exact Nat.le_refl _
  · exact he

def container (references : Bool) (outer : List Frame) (top : Frame) (s : Bytes) : Object × Bytes :=
  match _h : Token.next? s with
  | none => (closeAll outer top, [])
  | some (t, rest) =>
    match _hs : step references outer top t rest with
    | .done o rest => (o, rest)
    | .more outer' top' rest' => container references outer' top' rest'
termination_by s.length
decreasing_by
  have h₁ := Token.length_next?_lt _h
  have h₂ := length_step_le references outer top t rest
  rw [_hs] at h₂
  exact Nat.lt_of_le_of_lt h₂ h₁

def objectFrom (references : Bool) (t : Token) (rest : Bytes) : Option Object × Bytes :=
  match t with
  | .arrayStart => let (o, rest) := container references [] (.array []) rest; (some o, rest)
  | .dictStart => let (o, rest) := container references [] (.dict [] none) rest; (some o, rest)
  | _ => scalar? references t rest

theorem length_container_le (references : Bool) (outer : List Frame) (top : Frame) (s : Bytes) :
    (container references outer top s).2.length ≤ s.length := by
  fun_induction container references outer top s with
  | case1 => exact Nat.zero_le _
  | case2 outer top s t rest h o rest' hs =>
    have h₁ := Token.length_next?_lt h
    have h₂ := length_step_le references outer top t rest
    rw [hs] at h₂
    exact Nat.le_of_lt (Nat.lt_of_le_of_lt h₂ h₁)
  | case3 outer top s t rest h outer' top' rest' hs ih =>
    have h₁ := Token.length_next?_lt h
    have h₂ := length_step_le references outer top t rest
    rw [hs] at h₂
    exact Nat.le_trans ih (Nat.le_of_lt (Nat.lt_of_le_of_lt h₂ h₁))

theorem length_objectFrom_le (references : Bool) (t : Token) (rest : Bytes) :
    (objectFrom references t rest).2.length ≤ rest.length := by
  cases t with
  | arrayStart => exact length_container_le references [] (.array []) rest
  | dictStart => exact length_container_le references [] (.dict [] none) rest
  | _ => exact length_scalar?_le references _ rest

/-- The first object of the bytes, with references, and what follows it. -/
def object? (s : Bytes) : Option (Object × Bytes) :=
  match Token.next? s with
  | none => none
  | some (t, rest) =>
    match objectFrom true t rest with
    | (some o, rest) => some (o, rest)
    | (none, _) => none

end Reading

end PdfContent
