import PdfContent.Color.Image
import PdfContent.Content.Token
/-!
# Item — content as a list of operands and commands

What stands between the start and the end of an inline image belongs to the command that starts it.  So content is read
before any of it is drawn, and two contents are drawn one after the other by drawing the items of both.
-/
namespace PdfContent.Content

/-- An inline image as it was read: what was wrong with it, and the image unless the content ended inside of it. -/
structure ImageSource where
  faults : List Diagnostic
  image : Option Stream

inductive Item where
  /-- An operand and the offset where it ends, which is only counted if it is asked for. -/
  | operand (o : Object) (stop : Thunk Nat)
  /-- A command.  The one that starts an inline image has the image with it. -/
  | command (name : Bytes) (image : Option ImageSource)
  /-- A panic in place of the content. -/
  | panic (p : Panic)

def imageWord : Bytes := Bytes.ofText "BI"

def dataWord : Bytes := Bytes.ofText "ID"

def notAName : Diagnostic := .badImage .keyNotName

/-- The operands up to the data of an inline image, what is wrong with them, and what follows.  No other command may
stand there. -/
def imageOperands (s : Bytes) : List Object × List Diagnostic × Option Bytes :=
  match _h : next? s with
  | none => ([], [.inlineImageEof], none)
  | some (.command name, rest) =>
    if name == dataWord then ([], [], some rest)
    else
      let (operands, faults, data) := imageOperands rest
      (operands, notAName :: faults, data)
  | some (.operand o, rest) =>
    let (operands, faults, data) := imageOperands rest
    (o :: operands, faults, data)
termination_by s.length
decreasing_by all_goals exact length_next?_lt _h

/-- Keys and values from operands that alternate.  A pair without a name in the first place is left out. -/
def imageEntries : List Object → List (Name × Object) × List Diagnostic
  | [] => ([], [])
  | [_] => ([], [notAName])
  | .name key :: value :: r => let (entries, faults) := imageEntries r; ((key, value) :: entries, faults)
  | _ :: _ :: r => let (entries, faults) := imageEntries r; (entries, notAName :: faults)

def readImage (st : Store) (total : Nat) (s : Bytes) : ImageSource × Bytes :=
  match imageOperands s with
  | (_, faults, none) => (⟨faults, none⟩, [])
  | (operands, faults, some rest) =>
    let entries := imageEntries operands
    let d := InlineImage.expand (.ofList entries.1)
    let read := imageData (total - rest.length) (st.lookup? d "Length") rest
    (match read.1 with
      | some data => ⟨faults ++ entries.2, some ⟨d, data⟩⟩
      | none => ⟨faults ++ entries.2 ++ [.inlineImageEof], none⟩, read.2)

theorem length_imageOperands_le {s rest : Bytes} {operands : List Object} {faults : List Diagnostic}
    (h : imageOperands s = (operands, faults, some rest)) : rest.length ≤ s.length := by
  fun_induction imageOperands s generalizing operands faults with
  | case1 => cases h
  | case2 s name rest' hs hn =>
    cases h
    exact Nat.le_of_lt (length_next?_lt hs)
  | case3 s name rest' hs hn os fs data hr ih =>
    cases h
    exact Nat.le_trans (ih hr) (Nat.le_of_lt (length_next?_lt hs))
  | case4 s o rest' hs os fs data hr ih =>
    cases h
    exact Nat.le_trans (ih hr) (Nat.le_of_lt (length_next?_lt hs))

theorem length_readImage_le (st : Store) (total : Nat) (s : Bytes) : (readImage st total s).2.length ≤ s.length := by
  unfold readImage
  split
  · exact Nat.zero_le _
  · exact Nat.le_trans (length_imageData_le _ _ _) (length_imageOperands_le (by assumption))

def itemsFrom (st : Store) (total : Nat) (s : Bytes) : List Item :=
  match _h : next? s with
  | none => []
  | some (.operand o, rest) => .operand o (.mk fun _ => total - rest.length) :: itemsFrom st total rest
  | some (.command name, rest) =>
    if name == imageWord then
      let read := readImage st total rest
      .command name (some read.1) :: itemsFrom st total read.2
    else .command name none :: itemsFrom st total rest
termination_by s.length
decreasing_by
  · exact length_next?_lt _h
  · exact Nat.lt_of_le_of_lt (length_readImage_le st total rest) (length_next?_lt _h)
  · exact length_next?_lt _h

def items (st : Store) (data : Bytes) : List Item := itemsFrom st data.length data

/-- The items of content that has to be decoded first. -/
def itemsOf (st : Store) : Checked Bytes → List Item
  | .ok data => items st data
  | .error p => [.panic p]

end PdfContent.Content
