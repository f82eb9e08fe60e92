import PdfContent.Proofs.Drawing.Form
/-!
# Run — every operator, all content and every level of nesting keep to the moves

`execute` splits by the kind of operator; a command is at most one operator; content is a fold over its items; and
content nested `depth` deep draws because content one level further down does.
-/
namespace PdfContent

namespace Draws

open Machine

variable {α : Type} [Scalar α] {env : Environment α}

theorem restyled {b : Bool} (f : State α → State α) (m : Machine α) (h : ∀ s, (f s).basis = s.basis)
    (ho : ∀ s, (f s).outline = s.outline) : Draws env (.part b) m (m.restyle f) :=
  (modifyState (h _) fun restorable => by rw [ho]; exact restorable).trans (updateStyle _)

theorem extend {b : Bool} (label : String) {f : Outline α → Option (Outline α)} (m : Machine α)
    (hf : ∀ o o', o.Restorable → f o = some o' → o'.Restorable) : Draws env (.part b) m (m.extend label f) := by
  unfold Machine.extend
  split
  case h_1 o ho => exact setOutline fun restorable => hf _ o restorable ho
  case h_2 => exact .report _ m

section

variable {inner : Inner α} (hinner : ∀ items m, Draws env .content m (inner items m))
include hinner

theorem executeState (op : Operator) (a : Operands) (m : Machine α) :
    Draws env (.operator op.operation) m (m.executeState env inner op a) := by
  unfold Machine.executeState
  split
  case h_1 h => rw [h]; exact .save m
  case h_2 h => rw [h]; exact .restore m
  case h_3 h => rw [h]; exact .concat _ m
  all_goals refine .effect _ ?_
  case h_4 | h_5 | h_6 | h_7 => exact restyled _ m (fun _ => rfl) fun _ => rfl
  case h_8 => exact restyled _ m (fun s => by split <;> rfl) fun s => by split <;> rfl
  case h_9 => exact withSome _ m fun _ => modifyState rfl id
  case h_10 => exact modifyState rfl id
  case h_11 => exact withSome _ m fun n => setParameters hinner n m
  case h_12 => exact select _ _ _ none m
  case h_13 => exact withSome _ m fun n => setColorSpace _ n m
  case h_14 => exact setColor _ _ _ m
  case h_15 => exact setColorOrPattern _ _ _ m
  case h_16 => exact .refl m

theorem executePath (op : Operator) (a : Operands) (m : Machine α) :
    Draws env (.operator op.operation) m (m.executePath env inner op a) := by
  unfold Machine.executePath
  split
  case h_10 h =>
    rw [h]
    cases a.name? with
    | none => exact .effect _ (.refl m)
    | some n => exact shading n m
  all_goals refine .effect _ ?_
  case h_1 => exact setOutline fun restorable => restorable.move _
  case h_7 => exact addRect _ m
  case h_2 => exact extend _ m fun _ _ restorable ho => restorable.line? ho
  case h_3 | h_5 => exact extend _ m fun _ _ restorable ho => restorable.curve? ho
  case h_4 =>
    refine extend _ m fun o o' restorable ho => ?_
    obtain ⟨p, -, ho⟩ := Option.bind_eq_some_iff.mp ho
    exact restorable.curve? ho
  case h_6 => exact extend _ m fun _ _ restorable ho => restorable.close? ho
  case h_8 => exact endPath m
  case h_9 => exact paintPath hinner _ m
  case h_11 rule _ => exact .note (some rule) m.compatibility m.markedContent m
  case h_12 => exact .refl m

theorem executeText (op : Operator) (a : Operands) (m : Machine α) :
    Draws env (.operator op.operation) m (m.executeText env inner op a) := by
  unfold Machine.executeText
  refine .effect _ ?_
  split
  case h_1 => exact beginText m
  case h_2 => exact tellState rfl rfl
  case h_3 | h_4 | h_6 | h_9 => exact modifyText m rfl
  case h_5 => exact setScaling _ m
  case h_7 => exact withSome _ m fun n => setFont n _ m
  case h_8 => exact withSome _ m fun mode => setTextMode mode m
  case h_10 => exact moveLine _ m
  case h_11 => exact (modifyText m rfl).trans (moveLine _ _)
  case h_12 => exact setTextMatrix _ m
  case h_13 => exact nextLine m
  case h_14 => exact withSome _ m fun s => showText hinner _ s m .refl fun _ _ h => h
  case h_15 => exact withSome _ m fun s => showText hinner _ s m nextLine fun _ _ h => h
  case h_16 =>
    exact withSome _ m fun s => showText hinner _ s m (fun m => (modifyText m rfl).trans (nextLine _)) fun _ _ h => h
  case h_17 => exact withSome _ m fun items => showAdjusted hinner _ items m
  case h_18 => exact .refl m

theorem executeObject (op : Operator) (a : Operands) (image : Option Content.ImageSource) (m : Machine α) :
    Draws env (.operator op.operation) m (m.executeObject env inner op a image) := by
  unfold Machine.executeObject
  refine .effect _ ?_
  split
  case h_1 => exact withSome _ m fun n => drawObject hinner n m
  case h_2 => exact withSome _ m fun source => drawInline source m
  case h_3 => exact .report _ m
  case h_4 => exact .note m.pendingClip (m.compatibility + 1) m.markedContent m
  case h_5 => exact .note m.pendingClip (m.compatibility - 1) m.markedContent m
  case h_6 => exact .note m.pendingClip m.compatibility (m.markedContent + 1) m
  case h_7 =>
    exact .branch (fun _ => .report _ m)
      (fun _ => .note m.pendingClip m.compatibility (m.markedContent - 1) m)
  case h_8 => exact .refl m

/-- **One operator**: whatever it does is a stretch of its own kind. -/
theorem execute (op : Operator) (a : Operands) (image : Option Content.ImageSource) (m : Machine α) :
    Draws env (.operator op.operation) m (m.execute env inner op a image) := by
  unfold Machine.execute
  split
  all_goals first
    | exact executeState hinner op a m
    | exact executePath hinner op a m
    | exact executeText hinner op a m
    | exact executeObject hinner op a image m

theorem command (name : Bytes) (operands : List Object) (image : Option Content.ImageSource) {m n : Machine α}
    (h : Draws env .content m n) : Draws env .content m (n.command env inner name operands image) := by
  unfold Machine.command
  split
  · exact .branch (fun _ => .fault _ h) (fun _ => h)
  · rename_i op _
    split
    · exact .fault _ h
    · exact .perform op h (execute hinner op _ image _)

theorem item {m : Machine α} (x : List Object × Machine α) (i : Content.Item) (h : Draws env .content m x.2) :
    Draws env .content m (Machine.item env inner x i).2 := by
  cases i with
  | operand o stop =>
    unfold Machine.item
    dsimp only
    split
    · exact h
    · exact .fault _ h
  | command name image => exact command hinner name _ image h
  | panic p => exact .fault _ h

theorem items {m : Machine α} :
    ∀ (is : List Content.Item) (x : List Object × Machine α), Draws env .content m x.2 →
      Draws env .content m (is.foldl (Machine.item env inner) x).2
  | [], _, h => h
  | i :: is, x, h => items is _ (item hinner x i h)

theorem content (is : List Content.Item) (m : Machine α) : Draws env .content m (m.content env inner is) :=
  .branch (fun _ => items hinner is ([], m) (.nothing m)) (fun _ => .fault _ (items hinner is ([], m) (.nothing m)))

end

/-- **All content**: whatever is drawn, on however many levels, is a stretch of operators. -/
theorem run : ∀ (depth : Nat) (is : List Content.Item) (m : Machine α),
    Draws env .content m (Machine.run env depth is m)
  | 0, _, m => .nothing m
  | depth + 1, is, m => content (run depth) is m

end Draws

end PdfContent
