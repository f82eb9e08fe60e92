import Mathlib.Data.List.Forall2
import PdfContent.Proofs.Content.Operator
import PdfContent.Proofs.Content.Steps
import PdfContent.Proofs.Drawing.Alongside
/-!
# Marks — what marked content changes

The operators of marked content change nothing that a builder could tell, but they stand in the history of operators like
all others.  So content without them tells the builder the same, as long as the operators that look into the history see
the same (`session_unmarked`).
-/
namespace PdfContent

namespace Content

def markWords : List Bytes :=
  [Bytes.ofText "BMC", Bytes.ofText "BDC", Bytes.ofText "EMC", Bytes.ofText "MP", Bytes.ofText "DP"]

def operandItems (args : List (Object × Thunk Nat)) : List Item := args.map fun (o, stop) => .operand o stop

/-- Content, and what is left of it if operators of marked content are deleted with the operands before them.  Where the
operands that are kept end may change. -/
inductive Unmarked : List Item → List Item → Prop where
  | keep (args args' : List (Object × Thunk Nat)) (name : Bytes) (image : Option ImageSource) {is is' : List Item} :
      args.map Prod.fst = args'.map Prod.fst → Unmarked is is' →
        Unmarked (operandItems args ++ .command name image :: is) (operandItems args' ++ .command name image :: is')
  | delete (args : List (Object × Thunk Nat)) (name : Bytes) (image : Option ImageSource) {is is' : List Item} :
      name ∈ markWords → Unmarked is is' → Unmarked (operandItems args ++ .command name image :: is) is'
  | panic (args args' : List (Object × Thunk Nat)) (p : Panic) {is is' : List Item} :
      args.map Prod.fst = args'.map Prod.fst → Unmarked is is' →
        Unmarked (operandItems args ++ .panic p :: is) (operandItems args' ++ .panic p :: is')
  | rest (args args' : List (Object × Thunk Nat)) :
      args.map Prod.fst = args'.map Prod.fst → Unmarked (operandItems args) (operandItems args')

/-- Every command has exactly the operands that its operator takes. -/
inductive Exact : List Item → Prop where
  | nil : Exact []
  | command (args : List (Object × Thunk Nat)) (image : Option ImageSource) {name : Bytes} {op : Operator} {is : List Item} :
      Operator.find? name = some op → op.select (args.map Prod.fst) = .ok (args.map Prod.fst) → Exact is →
        Exact (operandItems args ++ .command name image :: is)

theorem Unmarked.refl (is : List Item) : Unmarked is is := by
  -- the operands before the next command are collected
  suffices h : ∀ args, Unmarked (operandItems args ++ is) (operandItems args ++ is) from h []
  induction is with
  | nil => exact fun args => by rw [List.append_nil]; exact .rest args args rfl
  | cons i is ih =>
    intro args
    cases i with
    | operand o stop =>
      have collected : operandItems args ++ .operand o stop :: is = operandItems (args ++ [(o, stop)]) ++ is := by
        rw [operandItems, operandItems, List.map_append, List.append_assoc]
        rfl
      rw [collected]
      exact ih _
    | command name image => exact .keep args args name image rfl (ih [])
    | panic p => exact .panic args args p rfl (ih [])

end Content

namespace Machine

open Content (Item Unmarked operandItems markWords)

variable {α : Type} [Scalar α] {env : Environment α} {ran ran' : Executed α → Prop} {inner : Inner α} {m n : Machine α}

/-! ## Content in chunks -/

/-- The operands before a command that are kept, the last one first. -/
def kept (operands : List Object) (xs : List Object) : List Object :=
  operands.foldl (fun xs o => if xs.length < maxOperands then o :: xs else xs) xs

variable (env inner) in
theorem items_operands (args : List (Object × Thunk Nat)) (xs : List Object) (m : Machine α) :
    ∃ n, (operandItems args).foldl (item env inner) (xs, m) = (kept (args.map Prod.fst) xs, n) ∧ m.Alike n ∧
      n.executed = m.executed := by
  induction args generalizing xs m with
  | nil => exact ⟨m, rfl, .refl m, rfl⟩
  | cons a args ih =>
    by_cases h : xs.length < maxOperands
    · obtain ⟨n, hn, alike, same⟩ := ih (a.1 :: xs) m
      refine ⟨n, ?_, alike, same⟩
      have first : item env inner (xs, m) (.operand a.1 a.2) = (a.1 :: xs, m) := if_pos h
      have next : kept ((a :: args).map Prod.fst) xs = kept (args.map Prod.fst) (a.1 :: xs) :=
        congrArg (kept _) (if_pos h)
      rw [next, ← hn, ← first]
      rfl
    · obtain ⟨n, hn, alike, same⟩ := ih xs (m.report (.operandOverflow a.2.get))
      refine ⟨n, ?_, (Alike.reported rfl m).trans alike, same⟩
      have first : item env inner (xs, m) (.operand a.1 a.2) = (xs, m.report (.operandOverflow a.2.get)) := if_neg h
      have next : kept ((a :: args).map Prod.fst) xs = kept (args.map Prod.fst) xs := congrArg (kept _) (if_neg h)
      rw [next, ← hn, ← first]
      rfl

variable (env inner) in
/-- Content begins with a command, of which the machine has read the operands. -/
theorem content_command (args : List (Object × Thunk Nat)) (name : Bytes) (image : Option Content.ImageSource)
    (is : List Item) (m : Machine α) :
    ∃ k, m.content env inner (operandItems args ++ .command name image :: is) =
        (k.command env inner name (kept (args.map Prod.fst) []).reverse image).content env inner is ∧
      m.Alike k ∧ k.executed = m.executed := by
  obtain ⟨k, hk, alike, same⟩ := items_operands env inner args [] m
  refine ⟨k, ?_, alike, same⟩
  unfold content
  rw [List.foldl_append, hk]
  rfl

variable (env inner) in
/-- Content begins with a panic behind some operands. -/
theorem content_panic (args : List (Object × Thunk Nat)) (p : Panic) (is : List Item) (m : Machine α) :
    ∃ k, m.content env inner (operandItems args ++ .panic p :: is) = (k.report (.panic p)).content env inner is ∧
      m.Alike k ∧ k.executed = m.executed := by
  obtain ⟨k, hk, alike, same⟩ := items_operands env inner args [] m
  refine ⟨k, ?_, alike, same⟩
  unfold content
  rw [List.foldl_append, hk]
  rfl

variable (env inner) in
theorem content_rest (args : List (Object × Thunk Nat)) (m : Machine α) :
    ∃ k, m.content env inner (operandItems args) =
        (if (kept (args.map Prod.fst) []).isEmpty then k
          else k.report (.leftoverOperands (kept (args.map Prod.fst) []).length)) ∧
      m.Alike k ∧ k.executed = m.executed := by
  obtain ⟨k, hk, alike, same⟩ := items_operands env inner args [] m
  refine ⟨k, ?_, alike, same⟩
  unfold content
  rw [hk]

theorem execute_mark {op : Operator}
    (h : op.operation = .beginMarked ∨ op.operation = .endMarked ∨ op.operation = .markPoint) (a : Operands)
    (image : Option Content.ImageSource) (m : Machine α) : m.Alike (m.execute env inner op a image) := by
  unfold execute executeObject
  rcases h with h | h | h
  · rw [h]; exact beginMarked m
  · rw [h]; exact endMarked m
  · rw [h]; exact .refl m

/-- **An operator of marked content leaves the machine alike**, whatever stands before it. -/
theorem command_mark {name : Bytes} (h : name ∈ markWords) (operands : List Object)
    (image : Option Content.ImageSource) (m : Machine α) : m.Alike (m.command env inner name operands image) := by
  have marks : ∀ name ∈ markWords, ∃ op, Operator.find? name = some op ∧
      (op.operation = .beginMarked ∨ op.operation = .endMarked ∨ op.operation = .markPoint) := by decide
  obtain ⟨op, hop, kind⟩ := marks name h
  have noted : m.Alike { m with history := m.history.push op.name } := ⟨m.log, _, m.markedContent, rfl, rfl⟩
  unfold command
  rw [hop]
  dsimp only
  split
  · exact .reported (Operator.panic?_of_select ‹_›) m
  · rename_i taken _
    exact noted.trans (execute_mark kind ⟨taken⟩ image _)

/-! ## Two drawings -/

namespace Follows

variable (hf : Follows env ran ran' inner)
include hf

theorem drawn (name : Bytes) (operands : List Object) (image : Option Content.ImageSource) (m : Machine α) :
    Draws env .content m (m.command env inner name operands image) :=
  .command hf.draws name operands image (.nothing m)

theorem content {is is' : List Item} (h : Unmarked is is') (hm : Along ran ran' m n) :
    Along ran ran' (m.content env inner is) (n.content env inner is') := by
  induction h generalizing m n with
  | @keep args args' name image is is' ha _ ih =>
    obtain ⟨k, hk, mk, same⟩ := content_command env inner args name image is m
    obtain ⟨l, hl, nl, same'⟩ := content_command env inner args' name image is' n
    have begun : Along ran ran' k l := hm.map same same' fun h => mk.symm.trans (h.trans nl)
    rw [hk, hl, ha]
    exact ih (begun.draws (hf.drawn name _ image k) (hf.drawn name _ image l) fun h => hf.command h name _ image)
  | @delete args name image is is' hn _ ih =>
    obtain ⟨k, hk, mk, same⟩ := content_command env inner args name image is m
    have begun : Along ran ran' k n := hm.map same rfl fun h => mk.symm.trans h
    rw [hk]
    exact ih (begun.draws (hf.drawn name _ image k) (.nothing n) fun h =>
      .of_alike ((command_mark hn _ image k).symm.trans h))
  | @panic args args' p is is' _ _ ih =>
    obtain ⟨k, hk, mk, same⟩ := content_panic env inner args p is m
    obtain ⟨l, hl, nl, same'⟩ := content_panic env inner args' p is' n
    have begun : Along ran ran' k l := hm.map same same' fun h => mk.symm.trans (h.trans nl)
    rw [hk, hl]
    exact ih (begun.map rfl rfl fun h => h.report _)
  | rest args args' ha =>
    obtain ⟨k, hk, mk, same⟩ := content_rest env inner args m
    obtain ⟨l, hl, nl, same'⟩ := content_rest env inner args' n
    have ended : Along ran ran' k l := hm.map same same' fun h => mk.symm.trans (h.trans nl)
    rw [hk, hl, ha]
    exact .branch (fun _ => ended) fun _ => ended.map rfl rfl fun h => h.report _

end Follows

/-- **Content and what is left of it are drawn alike**, on however many levels. -/
theorem run_unmarked (hears : env.builder.HearsCalls) (seen : SeenAlike ran ran') (level : Nat) {is is' : List Item}
    (h : Unmarked is is') (hm : Along ran ran' m n) : Along ran ran' (run env level is m) (run env level is' n) := by
  -- what the levels below draw is the same content in both drawings
  induction level generalizing is is' m n with
  | zero => exact hm
  | succ level ih =>
    have follows : Follows env ran ran' (run env level) :=
      ⟨hears, seen, Draws.run level, fun is _ _ h => ih (.refl is) (.of_alike h)⟩
    exact follows.content h hm

/-- Requests, and what is left of them if operators of marked content are deleted. -/
inductive Request.Unmarked (st : Store) : Request → Request → Prop where
  | content {o o' : Object} {data data' : Checked Bytes} : contentBytes st o = .ok data →
      contentBytes st o' = .ok data' → Content.Unmarked (Content.itemsOf st data) (Content.itemsOf st data') →
        Request.Unmarked st (.content o) (.content o')
  | same (r : Request) : Request.Unmarked st r r

theorem serve_unmarked (hears : env.builder.HearsCalls) (seen : SeenAlike ran ran') {r r' : Request}
    (h : r.Unmarked env.store r') (hm : Along ran ran' m n) : Along ran ran' (m.serve env r) (n.serve env r') := by
  have served {o : Object} {data : Checked Bytes} (k : Machine α) (h : contentBytes env.store o = .ok data) :
      k.serve env (.content o) = run env levels (Content.itemsOf env.store data) k := by
    unfold serve draw
    dsimp only
    rw [h]
    rfl
  cases h with
  | @content o o' data data' ho ho' hu =>
    rw [served m ho, served n ho']
    exact run_unmarked hears seen levels hu hm
  | same =>
    cases r with
    | content o =>
      cases ho : contentBytes env.store o with
      | ok data =>
        rw [served m ho, served n ho]
        exact run_unmarked hears seen levels (.refl _) hm
      | error e =>
        unfold serve draw
        dsimp only
        rw [ho]
        exact hm
    | precision type delta maxDepth =>
      exact hm.map rfl rfl fun h =>
        h.update (fun k => { k with precision := k.precision.set type delta maxDepth }) fun _ _ _ _ _ => rfl

theorem requests_unmarked (hears : env.builder.HearsCalls) (seen : SeenAlike ran ran') {requests requests' : List Request}
    (h : List.Forall₂ (Request.Unmarked env.store) requests requests') (hm : Along ran ran' m n) :
    Along ran ran' (requests.foldl (serve env) m) (requests'.foldl (serve env) n) := by
  induction h generalizing m n with
  | nil => exact hm
  | cons hr _ ih => exact ih (serve_unmarked hears seen hr hm)

/-- **Marked content changes nothing that the builder is told**, whatever is drawn, from the start of a page or a cell to
its end: without some or all of the operators of marked content, the calls are the same, and so are the panics between
them, as long as every operator that is executed at alike moments of both drawings, in nested content too, sees the same
of the operators executed before it. -/
theorem session_unmarked (hears : env.builder.HearsCalls) (origin : Origin α) {requests requests' : List Request}
    (h : List.Forall₂ (Request.Unmarked env.store) requests requests')
    (seen : SeenAlike (session env origin requests).executed (session env origin requests').executed) :
    calls (session env origin requests).finish.log = calls (session env origin requests').finish.log ∧
      heard (session env origin requests).finish.log = heard (session env origin requests').finish.log := by
  have alike : (session env origin requests).Alike (session env origin requests') :=
    requests_unmarked hears seen h (.of_alike (.refl _)) (fun _ he => he) fun _ he => he
  exact ⟨(alike.restoreTo 0).calls_eq, (alike.restoreTo 0).heard_eq⟩

def moved (a b c d e f : Thunk Nat) : List Item :=
  operandItems [(.num (.int 1), a), (.num (.int 0), b), (.num (.int 0), c), (.num (.int 1), d), (.num (.int 0), e),
    (.num (.int 0), f)] ++ [.command (Bytes.ofText "cm") none]

theorem items_level (st : Store) : ∃ a b c d e f, Content.items st (Bytes.ofText "q 1 0 0 1 0 0 cm") =
    .command (Bytes.ofText "q") none :: moved a b c d e f :=
  ⟨_, _, _, _, _, _, Content.items_of_plain 10 rfl⟩

theorem items_marked_level (st : Store) : ∃ stop a b c d e f, Content.items st (Bytes.ofText "/P BMC q 1 0 0 1 0 0 cm") =
    .operand (.name (.ofText "P")) stop :: .command (Bytes.ofText "BMC") none :: .command (Bytes.ofText "q") none ::
      moved a b c d e f :=
  ⟨_, _, _, _, _, _, _, Content.items_of_plain 12 rfl⟩

theorem marked_level_told :
    let env : Environment Float := ⟨.empty, .recording true, true, .default⟩
    let content (text : String) : Request := .content (.stream ⟨.empty, Bytes.ofText text⟩)
    let drawn (text : String) : Machine Float := session env (.cell .empty ⟨0, 0, 0, 0⟩) [content text]
    let marked := "/P BMC q 1 0 0 1 0 0 cm"
    let plain := "q 1 0 0 1 0 0 cm"
    env.builder.HearsCalls ∧ List.Forall₂ (Request.Unmarked env.store) [content marked] [content plain] ∧
      SeenAlike (drawn marked).executed (drawn plain).executed ∧
      calls (drawn marked).finish.log = calls (drawn plain).finish.log := by
  intro env content drawn marked plain
  obtain ⟨a, b, c, d, e, f, hplain⟩ := items_level env.store
  obtain ⟨stop, a', b', c', d', e', f', hmarked⟩ := items_marked_level env.store
  have hears : env.builder.HearsCalls := Builder.recording_hearsCalls true
  have unmarked : Unmarked (Content.items env.store (Bytes.ofText marked)) (Content.items env.store (Bytes.ofText plain)) := by
    rw [hmarked, hplain]
    refine .delete [(_, stop)] (Bytes.ofText "BMC") none (by decide) (.keep [] [] (Bytes.ofText "q") none rfl ?_)
    exact .keep [(_, a'), (_, b'), (_, c'), (_, d'), (_, e'), (_, f')]
      [(_, a), (_, b), (_, c), (_, d), (_, e), (_, f)] (Bytes.ofText "cm") none rfl (.rest [] [] rfl)
  have requests : List.Forall₂ (Request.Unmarked env.store) [content marked] [content plain] :=
    .cons (.content rfl rfl unmarked) .nil
  have drawn_items (text : String) : drawn text =
      run env levels (Content.items env.store (Bytes.ofText text)) (opening env (.cell .empty ⟨0, 0, 0, 0⟩)) := rfl
  have seen : SeenAlike (drawn marked).executed (drawn plain).executed := by
    rw [drawn_items, drawn_items, hmarked, hplain]
    rintro e e' (rfl | rfl | rfl | he) (rfl | rfl | he') hop -
    all_goals first
      | rfl
      | exact absurd (congrArg Operator.operation hop) (by decide)
      | exact he.elim
      | exact he'.elim
  exact ⟨hears, requests, seen, (session_unmarked hears _ requests seen).1⟩

theorem items_parted_level (st : Store) : ∃ stop a b c d e f, Content.items st (Bytes.ofText "q /P BMC 1 0 0 1 0 0 cm") =
    .command (Bytes.ofText "q") none :: .operand (.name (.ofText "P")) stop :: .command (Bytes.ofText "BMC") none ::
      moved a b c d e f :=
  ⟨_, _, _, _, _, _, _, Content.items_of_plain 12 rfl⟩

/-- **Marked content can change what the builder is told**: a group is started for a change of the coordinate system unless
it stands right behind the save, and a mark in between is enough for it not to. -/
theorem parted_level_told :
    let env : Environment Float := ⟨.empty, .recording true, true, .default⟩
    let content (text : String) : Request := .content (.stream ⟨.empty, Bytes.ofText text⟩)
    let drawn (text : String) : Machine Float := session env (.cell .empty ⟨0, 0, 0, 0⟩) [content text]
    let parted := "q /P BMC 1 0 0 1 0 0 cm"
    let plain := "q 1 0 0 1 0 0 cm"
    env.builder.HearsCalls ∧ Content.Exact (Content.items env.store (Bytes.ofText parted)) ∧
      List.Forall₂ (Request.Unmarked env.store) [content parted] [content plain] ∧
      (∀ name image, Item.command name image ∈ Content.items env.store (Bytes.ofText plain) → name ∉ markWords) ∧
      calls (drawn parted).finish.log ≠ calls (drawn plain).finish.log := by
  intro env content drawn parted plain
  obtain ⟨a, b, c, d, e, f, hplain⟩ := items_level env.store
  obtain ⟨stop, a', b', c', d', e', f', hparted⟩ := items_parted_level env.store
  have exact' : Content.Exact (Content.items env.store (Bytes.ofText parted)) := by
    rw [hparted]
    refine .command [] none rfl rfl (.command [(_, stop)] none rfl rfl ?_)
    exact .command [(_, a'), (_, b'), (_, c'), (_, d'), (_, e'), (_, f')] none rfl rfl .nil
  have unmarked : Unmarked (Content.items env.store (Bytes.ofText parted))
      (Content.items env.store (Bytes.ofText plain)) := by
    rw [hparted, hplain]
    refine .keep [] [] (Bytes.ofText "q") none rfl (.delete [(_, stop)] (Bytes.ofText "BMC") none (by decide) ?_)
    exact .keep [(_, a'), (_, b'), (_, c'), (_, d'), (_, e'), (_, f')]
      [(_, a), (_, b), (_, c), (_, d), (_, e), (_, f)] (Bytes.ofText "cm") none rfl (.rest [] [] rfl)
  have none_left (name image) (h : Item.command name image ∈ Content.items env.store (Bytes.ofText plain)) :
      name ∉ markWords := by
    rw [hplain] at h
    have named : name = Bytes.ofText "q" ∧ image = none ∨ name = Bytes.ofText "cm" ∧ image = none := by
      simpa [moved, operandItems] using h
    rcases named with ⟨rfl, -⟩ | ⟨rfl, -⟩ <;> decide
  have drawn_items (text : String) : drawn text =
      run env levels (Content.items env.store (Bytes.ofText text)) (opening env (.cell .empty ⟨0, 0, 0, 0⟩)) := rfl
  refine ⟨Builder.recording_hearsCalls true, exact', .cons (.content rfl rfl unmarked) .nil, none_left, fun h => ?_⟩
  rw [drawn_items, drawn_items, hparted, hplain] at h
  have lengths : (4 : Nat) = 3 := congrArg List.length h
  exact absurd lengths (by decide)

end Machine

end PdfContent
