import PdfContent.Proofs.Content.Item
/-!
# Progress — a content parser moves on and ends

What is left of the bytes after an item or an image is an end piece of what was left before, so the parser has an
offset that never goes back and never leaves the bytes.  An item moves it by a byte at least, and only where nothing is
left is there no item (`Parser.Turn.Advances`): `Parser.turns_advance`, and together `Parser.reading_ends`.
-/
namespace PdfContent

variable {s rest : Bytes}

/-! ## Tokens -/

namespace Token

theorem skipFiller_suffix (inComment : Bool) (s : Bytes) : skipFiller inComment s <:+ s := by
  induction s generalizing inComment with
  | nil => exact List.suffix_refl _
  | cons b r ih =>
    have further (c : Bool) : skipFiller c r <:+ b :: r := (ih c).trans (List.suffix_cons b r)
    unfold skipFiller
    repeat' split
    all_goals first | exact further _ | exact List.suffix_refl _

theorem stringBody_suffix (depth : Nat) (s : Bytes) : (stringBody depth s).2 <:+ s := by
  fun_induction stringBody depth s
  all_goals first
    | exact List.nil_suffix
    | exact List.suffix_cons _ _
    | simp_all only
      exact List.IsSuffix.trans (by assumption) (by simp only [List.suffix_cons, List.suffix_cons_iff, or_true])

theorem next?_suffix {t : Token} (h : next? s = some (t, rest)) : rest <:+ s := by
  have hs := skipFiller_suffix false s
  unfold next? at h
  split at h
  case h_1 => cases h
  case h_2 b r hb =>
    rw [hb] at hs
    have hr : r <:+ s := (List.suffix_cons b r).trans hs
    have regular : r.dropWhile Byte.isRegular <:+ s := (List.dropWhile_suffix _).trans hr
    have hex : (r.dropWhile (· != 0x3e)).drop 1 <:+ s :=
      (List.drop_suffix 1 _).trans ((List.dropWhile_suffix _).trans hr)
    repeat' split at h
    all_goals simp only [Option.some.injEq, Prod.mk.injEq] at h
    all_goals obtain ⟨-, rfl⟩ := h
    · exact regular
    · rename_i body rest' hbody
      exact (congrArg Prod.snd hbody ▸ stringBody_suffix 0 r).trans hr
    · exact (List.suffix_cons _ _).trans hr
    · exact hex
    · exact (List.drop_suffix 1 r).trans hr
    · exact hr
    · exact hr
    · exact regular

/-- Where no token is left, only filler was. -/
theorem next?_eq_none_iff : next? s = none ↔ skipFiller false s = [] := by
  fun_cases next? s with
  | case1 h => simp only [h]
  | _ => simp_all

end Token

/-! ## Objects -/

namespace Reading

theorem numberOrReference_suffix (n : Number) (s : Bytes) : (numberOrReference n s).2 <:+ s := by
  unfold numberOrReference
  repeat' split
  all_goals first
    | exact List.suffix_refl _
    | rename_i h₁ _ _ _ h₂ _ _
      exact (Token.next?_suffix h₂).trans (Token.next?_suffix h₁)

theorem scalar?_suffix (references : Bool) (t : Token) (s : Bytes) : (scalar? references t s).2 <:+ s := by
  cases t <;> simp only [scalar?, List.suffix_refl]
  case number n =>
    cases references with
    | false => exact List.suffix_refl _
    | true => exact numberOrReference_suffix n s

theorem element_suffix (references : Bool) (outer : List Frame) (top : Frame) (t : Token) (rest : Bytes) :
    (element references outer top t rest).rest <:+ rest := by
  have hs := scalar?_suffix references t rest
  unfold element
  repeat' split
  all_goals first
    | exact List.suffix_refl _
    | rename_i h
      rw [h] at hs
      exact hs

theorem step_suffix (references : Bool) (outer : List Frame) (top : Frame) (t : Token) (rest : Bytes) :
    (step references outer top t rest).rest <:+ rest := by
  have hf : (finish outer top rest).rest <:+ rest := by
    unfold finish
    split <;> exact List.suffix_refl _
  unfold step
  split
  · exact hf
  · exact hf
  · exact List.suffix_refl _
  · exact List.suffix_refl _
  · exact element_suffix references outer top t rest

/-- However deep containers lie in each other and whether or not they are closed, reading them goes on through the
bytes. -/
theorem container_suffix (references : Bool) (outer : List Frame) (top : Frame) (s : Bytes) :
    (container references outer top s).2 <:+ s := by
  -- an end of the bytes, the end of the outermost container, and a step that leaves containers open
  fun_induction container references outer top s with
  | case1 => exact List.nil_suffix
  | case2 outer top s t rest h o rest' hs =>
    have hstep := step_suffix references outer top t rest
    rw [hs] at hstep
    exact hstep.trans (Token.next?_suffix h)
  | case3 outer top s t rest h outer' top' rest' hs ih =>
    have hstep := step_suffix references outer top t rest
    rw [hs] at hstep
    exact ih.trans (hstep.trans (Token.next?_suffix h))

theorem objectFrom_suffix (references : Bool) (t : Token) (rest : Bytes) :
    (objectFrom references t rest).2 <:+ rest := by
  cases t with
  | arrayStart => exact container_suffix references [] (.array []) rest
  | dictStart => exact container_suffix references [] (.dict [] none) rest
  | _ => exact scalar?_suffix references _ rest

end Reading

/-! ## Items and the data of images -/

namespace Content

/-- The first item, if there is one, and what is left in either case.  `next?` does not say what is left if there is
none. -/
def read (s : Bytes) : Option Token × Bytes :=
  match _h : PdfContent.Token.next? s with
  | none => (none, PdfContent.Token.skipFiller false s)
  | some (t, rest) =>
    match t with
    | .keyword word =>
      match Reading.constant? word with
      | some o => (some (.operand o), rest)
      | none => (some (.command word), rest)
    | t =>
      match Reading.objectFrom false t rest with
      | (some o, rest) => (some (.operand o), rest)
      | (none, _) => read rest
termination_by s.length
decreasing_by exact PdfContent.Token.length_next?_lt _h

/-- **Without an item nothing is left.** -/
theorem read_eq (s : Bytes) :
    read s = (match next? s with | some (t, rest) => (some t, rest) | none => (none, [])) := by
  fun_induction read s with
  | case1 s h => rw [next?_end h, PdfContent.Token.next?_eq_none_iff.mp h]
  | case2 s rest word h o ho => rw [next?_constant h ho]
  | case3 s rest word h ho => rw [next?_keyword h ho]
  | case4 s rest t h hk o rest' ho =>
    have ht (w : Bytes) : t ≠ .keyword w := fun e => hk w (e ▸ h) e (by subst e; rfl)
    rw [next?_object h ht ho]
  | case5 s rest t h hk rest' ho _ ih =>
    have ht (w : Bytes) : t ≠ .keyword w := fun e => hk w (e ▸ h) e (by subst e; rfl)
    rw [ih, next?_skip h ht ho]

theorem read_of_none (h : next? s = none) : read s = (none, []) := by rw [read_eq, h]

theorem read_of_some {t : Token} (h : next? s = some (t, rest)) : read s = (some t, rest) := by rw [read_eq, h]

theorem next?_suffix {t : Token} (h : next? s = some (t, rest)) : rest <:+ s := by
  fun_induction next? s with
  | case1 => cases h
  | case2 s rest' word hw o ho =>
    cases h
    exact PdfContent.Token.next?_suffix hw
  | case3 s rest' word hw ho =>
    cases h
    exact PdfContent.Token.next?_suffix hw
  | case4 s rest' t' ht hk o rest'' hr =>
    cases h
    have ho := Reading.objectFrom_suffix false t' rest'
    rw [hr] at ho
    exact ho.trans (PdfContent.Token.next?_suffix ht)
  | case5 s rest' t' _ _ _ _ ht ih => exact (ih h).trans (PdfContent.Token.next?_suffix ht)

theorem read_suffix (s : Bytes) : (read s).2 <:+ s := by
  rw [read_eq]
  split
  · exact next?_suffix (by assumption)
  · exact List.nil_suffix

theorem searchEnd_suffix {before data : Bytes} (h : searchEnd before s = some (data, rest)) : rest <:+ s := by
  induction s generalizing before with
  | nil => cases h
  | cons b r ih =>
    unfold searchEnd at h
    split at h
    · cases h
      exact (List.drop_suffix 1 r).trans (List.suffix_cons b r)
    · exact (ih h).trans (List.suffix_cons b r)

theorem afterLength?_suffix {n : Nat} (h : afterLength? n s = some rest) : rest <:+ s := by
  simp only [afterLength?] at h
  split at h
  · split at h
    · cases h
      exact (List.drop_suffix 2 _).trans ((List.dropWhile_suffix _).trans (List.drop_suffix n s))
    · cases h
  · cases h

theorem dataToEnd_suffix (s : Bytes) : (dataToEnd s).2 <:+ s := by
  unfold dataToEnd
  split
  · exact searchEnd_suffix (by assumption)
  · exact List.nil_suffix

/-- What follows the data of an image is an end piece of the bytes, whatever length is given for the data. -/
theorem imageData_suffix (position : Nat) (length : Option Nat) (s : Bytes) :
    (imageData position length s).2 <:+ s := by
  simp only [imageData]
  -- one blank may stand between the operator and the data
  generalize hd : (if s.head?.any Byte.isBlank then s.drop 1 else s) = data
  have hs : data <:+ s := by
    rw [← hd]
    split
    · exact List.drop_suffix 1 s
    · exact List.suffix_refl s
  refine List.IsSuffix.trans ?_ hs
  split
  · exact dataToEnd_suffix data
  · split
    · exact List.suffix_refl data
    · split
      · exact afterLength?_suffix (by assumption)
      · exact dataToEnd_suffix data

/-! ## The parser -/

structure Parser where
  data : Bytes
  /-- The bytes that have not been read. -/
  rest : Bytes
  suffix : rest <:+ data

namespace Parser

def new (data : Bytes) : Parser := ⟨data, data, List.suffix_refl data⟩

def offset (p : Parser) : Nat := p.data.length - p.rest.length

theorem offset_add (p : Parser) : p.offset + p.rest.length = p.data.length :=
  Nat.sub_add_cancel p.suffix.length_le

theorem drop_offset (p : Parser) : p.data.drop p.offset = p.rest := (List.suffix_iff_eq_drop.mp p.suffix).symm

def next (p : Parser) : Option Token × Parser :=
  ((read p.rest).1, ⟨p.data, (read p.rest).2, (read_suffix p.rest).trans p.suffix⟩)

/-- The data of an inline image, of which the dictionary may give the length. -/
def imageData (p : Parser) (length : Option Nat) : Option Bytes × Parser :=
  let read := Content.imageData p.offset length p.rest
  (read.1, ⟨p.data, read.2, (imageData_suffix p.offset length p.rest).trans p.suffix⟩)

@[simp] theorem new_offset (data : Bytes) : (new data).offset = 0 := Nat.sub_self _

theorem offset_le_of_suffix {p p' : Parser} (hd : p'.data = p.data) (hr : p'.rest <:+ p.rest) :
    p.offset ≤ p'.offset := by
  unfold offset
  rw [hd]
  exact Nat.sub_le_sub_left hr.length_le _

theorem offset_le_next (p : Parser) : p.offset ≤ p.next.2.offset := offset_le_of_suffix rfl (read_suffix p.rest)

theorem offset_le_imageData (p : Parser) (length : Option Nat) : p.offset ≤ (p.imageData length).2.offset :=
  offset_le_of_suffix rfl (imageData_suffix _ _ _)

theorem offset_lt_next {p : Parser} {t : Token} (h : p.next.1 = some t) : p.offset < p.next.2.offset := by
  have h : (read p.rest).1 = some t := h
  have before := p.offset_add
  have after : p.next.2.offset + p.next.2.rest.length = p.data.length := p.next.2.offset_add
  cases hn : next? p.rest with
  | none => cases h.symm.trans (congrArg Prod.fst (read_of_none hn))
  | some x =>
    have left : p.next.2.rest = x.2 := congrArg Prod.snd (read_of_some hn)
    have hlt : x.2.length < p.rest.length := length_next?_lt hn
    rw [left] at after
    omega

theorem offset_of_next_eq_none {p : Parser} (h : p.next.1 = none) : p.next.2.offset = p.data.length := by
  have h : (read p.rest).1 = none := h
  have after : p.next.2.offset + p.next.2.rest.length = p.data.length := p.next.2.offset_add
  cases hn : next? p.rest with
  | none =>
    have left : p.next.2.rest = [] := congrArg Prod.snd (read_of_none hn)
    rw [left] at after
    exact after
  | some x => cases h.symm.trans (congrArg Prod.fst (read_of_some hn))

/-! ### Calls in any order -/

/-- What a parser can be asked for: the next item, or the data of an image for which a length may be given. -/
inductive Call where
  | next
  | imageData (length : Option Nat)

inductive Answer where
  | item (t : Option Token)
  | data (d : Option Bytes)

def Answer.item? : Answer → Option Token
  | .item t => t
  | .data _ => none

structure Turn where
  before : Parser
  answer : Answer
  after : Parser

def answer (p : Parser) : Call → Answer × Parser
  | .next => (.item p.next.1, p.next.2)
  | .imageData length => (.data (p.imageData length).1, (p.imageData length).2)

def turn (p : Parser) (c : Call) : Turn := ⟨p, (p.answer c).1, (p.answer c).2⟩

def turns (p : Parser) : List Call → List Turn
  | [] => []
  | c :: cs => p.turn c :: (p.turn c).after.turns cs

/-- In a call the parser stays in the bytes and does not go back.  It gets on when it answers with an item, and is
behind all bytes when it answers that there is none. -/
structure Turn.Advances (t : Turn) (data : Bytes) : Prop where
  same : t.before.data = data ∧ t.after.data = data
  forward : t.before.offset ≤ t.after.offset
  inside : t.after.offset ≤ data.length
  here : data.drop t.after.offset = t.after.rest
  item : ∀ i, t.answer = .item (some i) → t.before.offset < t.after.offset
  stop : t.answer = .item none → t.after.offset = data.length

theorem turn_advances (p : Parser) (c : Call) : (p.turn c).Advances p.data := by
  have inside (q : Parser) (hq : q.data = p.data) : q.offset ≤ p.data.length := hq ▸ Nat.sub_le _ _
  have here (q : Parser) (hq : q.data = p.data) : p.data.drop q.offset = q.rest := hq ▸ q.drop_offset
  cases c with
  | next =>
    exact {
      same := ⟨rfl, rfl⟩
      forward := p.offset_le_next
      inside := inside p.next.2 rfl
      here := here p.next.2 rfl
      item := fun i hi => offset_lt_next (Answer.item.inj hi)
      stop := fun hn => offset_of_next_eq_none (Answer.item.inj hn) }
  | imageData length =>
    exact {
      same := ⟨rfl, rfl⟩
      forward := p.offset_le_imageData length
      inside := inside (p.imageData length).2 rfl
      here := here (p.imageData length).2 rfl
      item := fun _ => nofun
      stop := nofun }

theorem turns_advance (p : Parser) (cs : List Call) : ∀ t ∈ p.turns cs, t.Advances p.data := by
  induction cs generalizing p with
  | nil => exact nofun
  | cons c cs ih =>
    have first := p.turn_advances c
    intro t ht
    cases ht with
    | head => exact first
    | tail _ ht => exact first.same.2 ▸ ih (p.turn c).after t ht

/-- Over all calls the offsets are in order, from the one before the first call on. -/
theorem turns_sorted (p : Parser) (cs : List Call) :
    (p.offset :: (p.turns cs).map (·.after.offset)).Pairwise (· ≤ ·) := by
  induction cs generalizing p with
  | nil => exact List.pairwise_singleton _ _
  | cons c cs ih =>
    have first : p.offset ≤ (p.turn c).after.offset := (p.turn_advances c).forward
    have later := ih (p.turn c).after
    refine List.pairwise_cons.mpr ⟨?_, later⟩
    intro n hn
    cases hn with
    | head => exact first
    | tail _ hn => exact Nat.le_trans first ((List.pairwise_cons.mp later).1 n hn)

def items (ts : List Turn) : List Token := ts.filterMap fun t => t.answer.item?

/-- Every item has a byte of its own among those that are left. -/
theorem length_items_le (p : Parser) (cs : List Call) : (items (p.turns cs)).length ≤ p.rest.length := by
  induction cs generalizing p with
  | nil => exact Nat.zero_le _
  | cons c cs ih =>
    have advances := p.turn_advances c
    have forward : p.offset ≤ (p.turn c).after.offset := advances.forward
    have later := ih (p.turn c).after
    -- an item in the list is made up for by the byte at least that the offset has moved
    have before := p.offset_add
    have after := (p.turn c).after.offset_add
    rw [advances.same.2] at after
    simp only [items, turns, List.filterMap_cons] at later ⊢
    split
    case h_1 => omega
    case h_2 i hi =>
      have hi : (p.turn c).answer = .item (some i) := by
        cases ha : (p.turn c).answer with
        | item t => rw [ha] at hi; exact congrArg Answer.item hi
        | data d => rw [ha] at hi; cases hi
      have further : p.offset < (p.turn c).after.offset := advances.item i hi
      simp only [List.length_cons]
      omega

/-! ### Nothing but items -/

theorem length_tokens_le (s : Bytes) : (tokens s).length ≤ s.length := by
  fun_induction tokens s with
  | case1 => exact Nat.zero_le _
  | case2 s t rest h ih => exact Nat.lt_of_le_of_lt ih (length_next?_lt h)

/-- Asked for one item after the other, a parser answers with all items and from then on that there is none. -/
theorem turns_next (p : Parser) (n : Nat) :
    (p.turns (List.replicate n .next)).map (·.answer) =
      (List.range n).map fun i => .item ((tokens p.rest)[i]?.map (·.1)) := by
  induction n generalizing p with
  | zero => rfl
  | succ n ih =>
    rw [List.replicate_succ, turns, List.map_cons, ih, List.range_succ_eq_map, List.map_cons, List.map_map]
    cases hn : next? p.rest with
    | none =>
      have hread : read p.rest = (none, []) := read_of_none hn
      have done : tokens p.next.2.rest = [] := by
        simp only [next, hread]
        exact tokens_of_none (next?_end rfl)
      have first : (p.turn .next).answer = .item none := by simp only [turn, answer, next, hread]
      rw [first, tokens_of_none hn]
      exact congrArg _ (List.map_congr_left fun i _ => by simp only [turn, answer, done]; rfl)
    | some x =>
      obtain ⟨t, rest⟩ := x
      have hread : read p.rest = (some t, rest) := read_of_some hn
      have left : p.next.2.rest = rest := by simp only [next, hread]
      have first : (p.turn .next).answer = .item (some t) := by simp only [turn, answer, next, hread]
      rw [first, tokens_of_some hn]
      exact congrArg _ (List.map_congr_left fun i _ => by simp only [turn, answer, left]; rfl)

/-- **Reading content gets on and ends.**  For all bytes and calls, each call leaves the parser in the bytes and not
before where it was; an item moves it on by a byte at least, and there is no item only behind all bytes.  So there are
at most as many items as bytes, and asked for nothing but items the parser answers with all of them and then that there
is none. -/
theorem reading_ends (data : Bytes) :
    (∀ cs : List Call, (∀ t ∈ (new data).turns cs, t.Advances data) ∧
      (0 :: ((new data).turns cs).map (·.after.offset)).Pairwise (· ≤ ·) ∧
      (items ((new data).turns cs)).length ≤ data.length) ∧
    (tokens data).length ≤ data.length ∧
    ∀ n, ((new data).turns (List.replicate n .next)).map (·.answer) =
      (List.range n).map fun i => .item ((tokens data)[i]?.map (·.1)) :=
  ⟨fun cs => ⟨(new data).turns_advance cs, new_offset data ▸ (new data).turns_sorted cs,
    (new data).length_items_le cs⟩, length_tokens_le data, (new data).turns_next⟩

end Parser

end Content

end PdfContent
