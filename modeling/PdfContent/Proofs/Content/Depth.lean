import PdfContent.Proofs.Content.Steps
import PdfContent.Proofs.Syntax.Printing
/-!
# Depth — containers that lie too deep

A row of tokens in which every bracket has its partner (`TokenRow`) is the inside of an array or a dictionary.  An
operand holds every element inside of at most `maxNesting` containers at its own place, and the parser goes on behind
the bracket that closes the operand, if it pairs the brackets as they are written (`TokenRow.Paired`, `nesting_cut`).

However deep containers lie, it does so with two exceptions.  A container with `maxNesting` others around it is read no
deeper and ends at the first bracket that closes its kind (`Reaches.tooDeep`), so if it holds a container of its own
kind, it ends too early (`deep_array_ends_early`).  And of a container in the place of a key only the opening bracket is passed over, so if it
is a dictionary, its end is that of the one around it, and names inside of it become keys there.
-/
namespace PdfContent

open Reading

/-! ## Rows -/

inductive Container where
  | array
  | dict

/-- What the next token inside of a container stands in the place of. -/
inductive Place where
  | element
  | key
  | value

def Place.after (t : Token) : Place → Place
  | .element => .element
  | .key =>
    match t with
    | .name _ => .value
    | _ => .key
  | .value => .key

namespace Container

def opening : Container → Token
  | array => .arrayStart
  | dict => .dictStart

def closing : Container → Token
  | array => .arrayEnd
  | dict => .dictEnd

def place : Container → Place
  | array => .element
  | dict => .key

def frame : Container → Frame
  | array => .array []
  | dict => .dict [] none

end Container

/-- Tokens of which every bracket has its partner: a token that is no bracket and what follows it, or a container and
what follows it. -/
inductive TokenRow where
  | nil
  | single (t : Token) (plain : ¬t.IsMark) (rest : TokenRow)
  | bracketed (k : Container) (inside rest : TokenRow)

def Token.object? : Token → Option Object
  | .number n => some (.num n)
  | .name n => some (.name n)
  | .string b => some (.str b)
  | .keyword w => constant? w
  | _ => none

def Token.key? : Token → Option Name
  | .name n => some n
  | _ => none

/-- What stands inside of `depth` containers, unless that is too deep. -/
def within (depth : Nat) (o : Option Object) : Option Object := if depth ≤ maxNesting then o else none

namespace TokenRow

def tokens : TokenRow → List Token
  | nil => []
  | single t _ rest => t :: rest.tokens
  | bracketed k inside rest => k.opening :: (inside.tokens ++ k.closing :: rest.tokens)

mutual

/-- The elements of an array inside of which the row stands, with `depth` containers around each. -/
def items (depth : Nat) : TokenRow → List Object
  | nil => []
  | single t _ rest => (within depth t.object?).toList ++ rest.items depth
  | bracketed .array inside rest => (within depth (some (.array (inside.items (depth + 1))))).toList ++ rest.items depth
  | bracketed .dict inside rest =>
    (within depth (some (.dict (.ofList (inside.entries (depth + 1) none))))).toList ++ rest.items depth

/-- The entries of a dictionary inside of which the row stands, after a key that waits for its value or none.  In the
place of a key only names count, and a key with a value that is no object is left out. -/
def entries (depth : Nat) : Option Name → TokenRow → List (Name × Object)
  | _, nil => []
  | none, single t _ rest => rest.entries depth t.key?
  | none, bracketed _ _ rest => rest.entries depth none
  | some key, single t _ rest => ((within depth t.object?).map (key, ·)).toList ++ rest.entries depth none
  | some key, bracketed .array inside rest =>
    ((within depth (some (.array (inside.items (depth + 1))))).map (key, ·)).toList ++ rest.entries depth none
  | some key, bracketed .dict inside rest =>
    ((within depth (some (.dict (.ofList (inside.entries (depth + 1) none))))).map (key, ·)).toList ++
      rest.entries depth none

end

def closed (depth : Nat) (inside : TokenRow) : Container → Object
  | .array => .array (inside.items (depth + 1))
  | .dict => .dict (.ofList (inside.entries (depth + 1) none))

/-- The parser takes every bracket that it finds for the partner of the right one.  So a container in the place of a key
holds nothing that counts there, and one inside of which everything is too deep holds no other of its kind. -/
def Paired : Nat → Place → TokenRow → Prop
  | _, _, nil => True
  | depth, place, single t _ rest => rest.Paired depth (place.after t)
  | depth, .key, bracketed k inside rest =>
    (∀ t ∈ inside.tokens ++ [k.closing], t ≠ .dictEnd ∧ t.key? = none) ∧ rest.Paired depth .key
  | depth, place, bracketed k inside rest =>
    (if depth < maxNesting then inside.Paired (depth + 1) k.place else k.closing ∉ inside.tokens) ∧
      rest.Paired depth (place.after k.opening)

variable {depth : Nat}

theorem paired_bracketed {place : Place} (hp : place ≠ .key) {k : Container} {inside rest : TokenRow}
    (h : (bracketed k inside rest).Paired depth place) :
    (if depth < maxNesting then inside.Paired (depth + 1) k.place else k.closing ∉ inside.tokens) ∧
      rest.Paired depth (place.after k.opening) := by
  cases place with
  | element | value => exact h
  | key => exact absurd rfl hp

/-- Nothing of what is too deep is held. -/
theorem tooDeep (h : maxNesting < depth) (r : TokenRow) : r.items depth = [] ∧ ∀ key, r.entries depth key = [] := by
  have drop (o : Option Object) : within depth o = none := if_neg (Nat.not_le.mpr h)
  induction r with
  | nil => exact ⟨rfl, fun _ => by rw [entries]⟩
  | single t plain rest ih =>
    refine ⟨by simp [items, drop, ih.1], fun key => ?_⟩
    cases key <;> simp [entries, drop, ih.2]
  | bracketed k inside rest _ ih =>
    refine ⟨by cases k <;> simp [items, drop, ih.1], fun key => ?_⟩
    cases k <;> cases key <;> simp [entries, drop, ih.2]

end TokenRow

/-! ## Containers that are open -/

namespace Frame

def kind : Frame → Container
  | array _ => .array
  | dict _ _ => .dict

def place : Frame → Place
  | array _ => .element
  | dict _ none => .key
  | dict _ (some _) => .value

def take (t : Token) : Frame → Frame
  | dict entries none => dict entries t.key?
  | top => t.object?.elim top.skip (top.add ·)

def filled (depth : Nat) (r : TokenRow) : Frame → Object
  | array items => .array (items.reverse ++ r.items depth)
  | dict entries key => .dict (.ofList (entries.reverse ++ r.entries depth key))

/-- The container is of the kind and comes to the object if it ends here. -/
structure EndsAs (top : Frame) (k : Container) (o : Object) : Prop where
  kind : top.kind = k
  close : top.close = o

variable {depth : Nat}

theorem place_take (t : Token) (top : Frame) : (top.take t).place = top.place.after t := by
  match top with
  | array items => cases h : t.object? <;> simp [take, h, add, skip, place, Place.after]
  | dict entries none => cases t <;> rfl
  | dict entries (some key) => cases h : t.object? <;> simp [take, h, add, skip, place, Place.after]

theorem place_add (o : Object) (k : Container) (top : Frame) : (top.add o).place = top.place.after k.opening := by
  match top with
  | array items => rfl
  | dict entries none => cases k <;> rfl
  | dict entries (some key) => rfl

theorem dict_of_place {top : Frame} (h : top.place = .key) : ∃ entries, top = dict entries none := by
  match top with
  | array items => cases h
  | dict entries none => exact ⟨entries, rfl⟩
  | dict entries (some key) => cases h

theorem kind_take (t : Token) (top : Frame) : (top.take t).kind = top.kind := by
  match top with
  | array items => cases h : t.object? <;> simp [take, h, add, skip, kind]
  | dict entries none => rfl
  | dict entries (some key) => cases h : t.object? <;> simp [take, h, add, skip, kind]

theorem kind_add (o : Object) (top : Frame) : (top.add o).kind = top.kind := by
  match top with
  | array items => rfl
  | dict entries none => rfl
  | dict entries (some key) => rfl

theorem filled_nil (top : Frame) : top.filled depth .nil = top.close := by
  cases top <;> simp [filled, close, TokenRow.items, TokenRow.entries]

theorem filled_tooDeep (h : maxNesting < depth) (r : TokenRow) (top : Frame) : top.filled depth r = top.close := by
  obtain ⟨noItems, noEntries⟩ := TokenRow.tooDeep h r
  cases top <;> simp [filled, close, noItems, noEntries]

theorem filled_single (hd : depth ≤ maxNesting) {t : Token} {plain : ¬t.IsMark} (rest : TokenRow) (top : Frame) :
    top.filled depth (.single t plain rest) = (top.take t).filled depth rest := by
  match top with
  | array items => cases h : t.object? <;> simp [filled, take, h, add, skip, TokenRow.items, within, hd]
  | dict entries none => simp [filled, take, TokenRow.entries]
  | dict entries (some key) => cases h : t.object? <;> simp [filled, take, h, add, skip, TokenRow.entries, within, hd]

theorem filled_bracketed (hd : depth ≤ maxNesting) (k : Container) (inside rest : TokenRow) (top : Frame) :
    top.filled depth (.bracketed k inside rest) = (top.add (inside.closed depth k)).filled depth rest := by
  match top with
  | array items => cases k <;> simp [filled, add, TokenRow.items, TokenRow.closed, within, hd]
  | dict entries none => simp [filled, add, TokenRow.entries]
  | dict entries (some key) => cases k <;> simp [filled, add, TokenRow.entries, TokenRow.closed, within, hd]

end Frame

namespace Container

theorem kind_frame (k : Container) : k.frame.kind = k := by
  cases k <;> rfl

theorem place_frame (k : Container) : k.frame.place = k.place := by
  cases k <;> rfl

theorem filled_frame (depth : Nat) (k : Container) (inside : TokenRow) :
    k.frame.filled (depth + 1) inside = inside.closed depth k := by
  cases k <;> rfl

end Container

/-! ## Steps -/

section

variable {outer : List Frame} {top : Frame} {t : Token} {rest : Bytes}

theorem element_single (hd : outer.length + 1 ≤ maxNesting) (plain : ¬t.IsMark) :
    element false outer top t rest = .more outer (t.object?.elim top.skip (top.add ·)) rest := by
  unfold element
  rw [if_neg (Nat.not_lt.mpr hd)]
  cases t with
  | arrayStart | arrayEnd | dictStart | dictEnd => exact (plain trivial).elim
  | keyword w => cases h : constant? w <;> simp [scalar?, Token.object?, h]
  | number | name | string => rfl

/-- A token that is no bracket goes into the innermost container. -/
theorem step_single (hd : outer.length + 1 ≤ maxNesting) (plain : ¬t.IsMark) :
    step false outer top t rest = .more outer (top.take t) rest := by
  cases t with
  | arrayStart | arrayEnd | dictStart | dictEnd => exact (plain trivial).elim
  | number | name | string | keyword =>
    match top with
    | .dict entries none => rfl
    | .array items | .dict entries (some key) => exact element_single hd plain

theorem step_opening (hd : outer.length + 1 ≤ maxNesting) (hs : top.place ≠ .key) (k : Container) :
    step false outer top k.opening rest = .more (top :: outer) k.frame rest := by
  have opened : element false outer top k.opening rest = .more (top :: outer) k.frame rest := by
    unfold element
    rw [if_neg (Nat.not_lt.mpr hd)]
    cases k <;> rfl
  rw [← opened]
  match top with
  | .array items | .dict entries (some key) => cases k <;> rfl
  | .dict entries none => exact absurd rfl hs

theorem step_closing (top : Frame) : step false outer top top.kind.closing rest = finish outer top rest := by
  cases top <;> rfl

/-- In the place of a key only a name counts, and the end of the dictionary. -/
theorem step_ignored {entries : List (Name × Object)} (ht : t ≠ .dictEnd ∧ t.key? = none) :
    step false outer (.dict entries none) t rest = .more outer (.dict entries none) rest := by
  cases t with
  | dictEnd => exact absurd rfl ht.1
  | name n => exact nomatch ht.2
  | _ => rfl

/-- Where everything is too deep, only the end of the container counts. -/
theorem step_tooDeep {k : Container} {o : Object} (hd : maxNesting < outer.length + 1) (ht : t ≠ k.closing)
    (h : top.EndsAs k o) : ∃ top', top'.EndsAs k o ∧ step false outer top t rest = .more outer top' rest := by
  obtain ⟨rfl, rfl⟩ := h
  have dropped : element false outer top t rest = .more outer top.skip rest := by
    unfold element
    rw [if_pos hd]
  match top with
  | .array items =>
    refine ⟨_, ⟨rfl, rfl⟩, Eq.trans ?_ dropped⟩
    cases t with
    | arrayEnd => exact absurd rfl ht
    | _ => rfl
  | .dict entries (some key) =>
    refine ⟨.dict entries none, ⟨rfl, rfl⟩, Eq.trans ?_ dropped⟩
    cases t with
    | dictEnd => exact absurd rfl ht
    | _ => rfl
  | .dict entries none =>
    cases t with
    | dictEnd => exact absurd rfl ht
    | name n => exact ⟨.dict entries (some n), ⟨rfl, rfl⟩, rfl⟩
    | _ => exact ⟨.dict entries none, ⟨rfl, rfl⟩, rfl⟩

end

/-! ## Runs -/

/-- Reading on in a container comes to reading on in one with the property `P`, with the tokens `more` and then `c` to
go. -/
def Reaches (c : Bytes) (outer : List Frame) (top : Frame) (s : Bytes) (more : List Token) (P : Frame → Prop) : Prop :=
  ∃ top' s', P top' ∧ ReadsTo c s' more ∧ container false outer top s = container false outer top' s'

namespace Reaches

variable {c s : Bytes} {outer : List Frame} {ts more : List Token} {P : Frame → Prop}

theorem of_eq {top top₁ : Frame} {s₁ : Bytes} (h : container false outer top s = container false outer top₁ s₁)
    (h₁ : Reaches c outer top₁ s₁ more P) : Reaches c outer top s more P := by
  obtain ⟨top', s', h', hs', same⟩ := h₁
  exact ⟨top', s', h', hs', h.trans same⟩

/-- An inner container that is closed goes into the one around it. -/
theorem closing {f top : Frame} {k : Container} {o : Object}
    (h : Reaches c (f :: outer) top s (k.closing :: more) (·.EndsAs k o)) :
    ∃ s', ReadsTo c s' more ∧ container false (f :: outer) top s = container false outer (f.add o) s' := by
  obtain ⟨top', s₁, ⟨rfl, rfl⟩, hs, read⟩ := h
  obtain ⟨s', hn, hs'⟩ := hs.of_cons
  exact ⟨s', hs', read.trans (container_more hn (step_closing top'))⟩

/-- What every single token keeps, a row of tokens keeps. -/
theorem of_steps (hstep : ∀ t ∈ ts, ∀ top rest, P top →
      ∃ top', P top' ∧ step false outer top t rest = .more outer top' rest)
    {top : Frame} (h : P top) (hs : ReadsTo c s (ts ++ more)) : Reaches c outer top s more P := by
  induction ts generalizing top s with
  | nil => exact ⟨top, s, h, hs, rfl⟩
  | cons t ts ih =>
    obtain ⟨rest, hn, hs⟩ := hs.of_cons
    obtain ⟨top₁, h₁, read⟩ := hstep t (.head _) top rest h
    exact .of_eq (container_more hn read) (ih (fun t ht => hstep t (.tail _ ht)) h₁ hs)

/-- A container in which everything is too deep goes on to the first bracket that closes its kind. -/
theorem tooDeep (hd : maxNesting < outer.length + 1) {k : Container} {top : Frame} (hk : top.kind = k)
    (ht : k.closing ∉ ts) (hs : ReadsTo c s (ts ++ more)) :
    Reaches c outer top s more (·.EndsAs k top.close) :=
  of_steps (fun _ hm _ _ h => step_tooDeep hd (fun he => ht (he ▸ hm)) h) ⟨hk, rfl⟩ hs

theorem ignored {entries : List (Name × Object)} (ht : ∀ t ∈ ts, t ≠ .dictEnd ∧ t.key? = none)
    (hs : ReadsTo c s (ts ++ more)) : Reaches c outer (.dict entries none) s more (· = .dict entries none) := by
  refine of_steps (fun t hm top rest h => ?_) rfl hs
  subst h
  exact ⟨_, rfl, step_ignored (ht t hm)⟩

end Reaches

namespace TokenRow

/-- **A row fills the container in which it is read.** -/
theorem reaches {c : Bytes} {more : List Token} (r : TokenRow) {outer : List Frame} {top : Frame} {s : Bytes}
    (hd : outer.length + 1 ≤ maxNesting) (hp : r.Paired (outer.length + 1) top.place)
    (hs : ReadsTo c s (r.tokens ++ more)) :
    Reaches c outer top s more (·.EndsAs top.kind (top.filled (outer.length + 1) r)) := by
  induction r generalizing outer top s more with
  | nil => exact ⟨top, s, ⟨rfl, (Frame.filled_nil top).symm⟩, hs, rfl⟩
  | single t plain rest ih =>
    obtain ⟨s₁, hn, hs⟩ := hs.of_cons
    have hp : rest.Paired (outer.length + 1) (top.take t).place := by
      rw [Frame.place_take]
      exact hp
    rw [Frame.filled_single hd, ← Frame.kind_take t]
    exact .of_eq (container_more hn (step_single hd plain)) (ih hd hp hs)
  | bracketed k inside rest ihInside ih =>
    have hs : ReadsTo c s (k.opening :: (inside.tokens ++ k.closing :: (rest.tokens ++ more))) := by
      simpa [tokens] using hs
    rw [Frame.filled_bracketed hd, ← Frame.kind_add (inside.closed (outer.length + 1) k)]
    by_cases hkey : top.place = .key
    case pos =>
      obtain ⟨entries, rfl⟩ := Frame.dict_of_place hkey
      obtain ⟨counts, hp⟩ := hp
      have counts : ∀ t ∈ k.opening :: (inside.tokens ++ [k.closing]), t ≠ .dictEnd ∧ t.key? = none :=
        List.forall_mem_cons.mpr ⟨by cases k <;> exact ⟨nofun, rfl⟩, counts⟩
      obtain ⟨_, s₁, rfl, hs₁, same⟩ :
          Reaches c outer (.dict entries none) s (rest.tokens ++ more) (· = .dict entries none) :=
        .ignored counts (by simpa using hs)
      exact .of_eq same (ih hd hp hs₁)
    case neg =>
      obtain ⟨paired, hp⟩ := paired_bracketed hkey hp
      rw [← Frame.place_add (inside.closed (outer.length + 1) k)] at hp
      obtain ⟨s₁, hn, hs₁⟩ := hs.of_cons
      have inner : Reaches c (top :: outer) k.frame s₁ (k.closing :: (rest.tokens ++ more))
          (·.EndsAs k (inside.closed (outer.length + 1) k)) := by
        rw [← k.filled_frame]
        split at paired
        case isTrue deeper =>
          rw [← k.place_frame] at paired
          have filled : Reaches c (top :: outer) k.frame s₁ _ _ := ihInside deeper paired hs₁
          rwa [k.kind_frame] at filled
        case isFalse deepest =>
          have hd : maxNesting < (top :: outer).length + 1 := Nat.lt_succ_of_le (Nat.not_lt.mp deepest)
          rw [Frame.filled_tooDeep (show maxNesting < outer.length + 1 + 1 from hd)]
          exact .tooDeep hd k.kind_frame paired hs₁
      obtain ⟨s₂, hs₂, read⟩ := inner.closing
      exact .of_eq ((container_more hn (step_opening hd hkey k)).trans read) (ih hd hp hs₂)

/-- The row inside of `n` arrays, each the only element of the one around it. -/
def inArrays (r : TokenRow) : Nat → TokenRow
  | 0 => r
  | n + 1 => bracketed .array (r.inArrays n) nil

theorem tokens_inArrays (r : TokenRow) (n : Nat) :
    (r.inArrays n).tokens = List.replicate n .arrayStart ++ (r.tokens ++ List.replicate n .arrayEnd) := by
  induction n with
  | zero => simp [inArrays]
  | succ n ih =>
    rw [List.replicate_succ, List.replicate_succ', inArrays, tokens, ih]
    simp [tokens, Container.opening, Container.closing]

/-- Inside of the deepest array that is held, a row without an array is cut off. -/
theorem paired_inArrays {r : TokenRow} (hr : .arrayEnd ∉ r.tokens) (n : Nat) {depth : Nat}
    (hn : depth + n = maxNesting) : (r.inArrays (n + 1)).Paired depth .element := by
  induction n generalizing depth with
  | zero =>
    refine ⟨?_, trivial⟩
    rw [if_neg (by omega)]
    exact hr
  | succ n ih =>
    refine ⟨?_, trivial⟩
    rw [if_pos (by omega)]
    exact ih (by omega)

end TokenRow

/-! ## Operands -/

namespace ReadsTo

variable {c s : Bytes} {ts : List Token}

theorem append {r : Bytes} {us : List Token} (h : ReadsTo r s ts) (hr : ReadsTo c r us) : ReadsTo c s (ts ++ us) := by
  induction h with
  | nil => exact hr
  | cons hn _ ih => exact .cons hn ih

theorem replicate {b : UInt8} {t : Token} (hb : ∀ r, Token.next? (b :: r) = some (t, r)) (h : ReadsTo c s ts) :
    ∀ n, ReadsTo c (List.replicate n b ++ s) (List.replicate n t ++ ts)
  | 0 => h
  | n + 1 => .cons (hb _) (h.replicate hb n)

theorem inArrays {n : Nat} {r : TokenRow} (hr : ReadsTo (List.replicate n 0x5d ++ c) s r.tokens) :
    ReadsTo c (List.replicate n 0x5b ++ s) (r.inArrays n).tokens := by
  rw [TokenRow.tokens_inArrays]
  refine .replicate (fun _ => rfl) (hr.append ?_) n
  have ends : ReadsTo c (List.replicate n 0x5d ++ c) (List.replicate n .arrayEnd ++ []) :=
    .replicate (fun _ => rfl) .nil n
  rwa [List.append_nil] at ends

end ReadsTo

theorem objectFrom_opening (k : Container) (s : Bytes) : objectFrom false k.opening s =
    (some (container false [] k.frame s).1, (container false [] k.frame s).2) := by
  cases k <;> rfl

/-- **What is nested too deep is cut off, and everything else keeps its place**, if the brackets are paired as they are
written. -/
theorem nesting_cut {k : Container} {inside : TokenRow} {s c : Bytes} (hp : inside.Paired 1 k.place)
    (hs : ReadsTo c s (k.opening :: (inside.tokens ++ [k.closing]))) :
    Content.next? s = some (.operand (inside.closed 0 k), c) := by
  obtain ⟨s₁, hn, hs₁⟩ := hs.of_cons
  have filled : Reaches c [] k.frame s₁ [k.closing] (·.EndsAs k.frame.kind (k.frame.filled 1 inside)) :=
    inside.reaches (by decide) (by rwa [k.place_frame]) hs₁
  rw [k.kind_frame, k.filled_frame] at filled
  obtain ⟨top, s₂, ⟨hk, hc⟩, hs₂, read⟩ := filled
  obtain ⟨s₃, hn', hs₃⟩ := hs₂.of_cons
  rw [← hk] at hn'
  have whole : container false [] k.frame s₁ = (inside.closed 0 k, c) := by
    rw [read, container_done hn' (step_closing top), hc, hs₃.of_nil]
  refine Content.next?_object hn (by cases k <;> exact nofun) ?_
  rw [objectFrom_opening, whole]

def smallDict : TokenRow := .bracketed .dict (.single (.name ⟨[0x4b]⟩) id (.single (.number (.int 2)) id .nil)) .nil

def emptyArray : TokenRow := .bracketed .array .nil (.single (.number (.int 2)) id .nil)

/-- The 65th array ends with the one inside of it. -/
theorem next?_arrays : Content.next? (List.replicate 65 0x5b ++ (Bytes.ofText "[1] 2" ++ List.replicate 65 0x5d)) =
    some (.operand ((emptyArray.inArrays 63).closed 0 .array), [0x5d]) := by
  rw [show Bytes.ofText "[1] 2" = _ from Bytes.ofText_ofList _]
  refine Content.next?_object rfl (fun _ => nofun) (objectFrom_of_steps (show objectIn? 140 _ _ = _ from ?_))
  set_option maxRecDepth 4096 in rfl

/-- A dictionary inside of 65 arrays is cut off.  If another array stands there in its place, its end closes the 65th
array, and what follows is an element of the 64th; of the brackets at the end one is left over. -/
theorem deep_array_ends_early :
    (((smallDict.inArrays 64).Paired 1 .element ∧
      ReadsTo [] (List.replicate 65 0x5b ++ (Bytes.ofText "<</K 2>>" ++ List.replicate 65 0x5d))
        (smallDict.inArrays 65).tokens) ∧
      Content.next? (List.replicate 65 0x5b ++ (Bytes.ofText "<</K 2>>" ++ List.replicate 65 0x5d)) =
        some (.operand ((smallDict.inArrays 64).closed 0 .array), [])) ∧
    Content.next? (List.replicate 65 0x5b ++ (Bytes.ofText "[1] 2" ++ List.replicate 65 0x5d)) =
      some (.operand ((emptyArray.inArrays 63).closed 0 .array), [0x5d]) := by
  have dict : .arrayEnd ∉ smallDict.tokens := by simp [smallDict, TokenRow.tokens, Container.opening, Container.closing]
  have paired : (smallDict.inArrays 64).Paired 1 .element := TokenRow.paired_inArrays dict 63 rfl
  have reads : ReadsTo [] (List.replicate 65 0x5b ++ (Bytes.ofText "<</K 2>>" ++ List.replicate 65 0x5d))
      (smallDict.inArrays 65).tokens := by
    rw [show Bytes.ofText "<</K 2>>" = _ from Bytes.ofText_ofList _]
    exact .inArrays (.cons rfl (.cons rfl (.cons rfl (.cons rfl .nil))))
  exact ⟨⟨⟨paired, reads⟩, nesting_cut paired reads⟩, next?_arrays⟩

end PdfContent
