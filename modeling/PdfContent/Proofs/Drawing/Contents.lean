import PdfContent.Drawing.Page
import PdfContent.Proofs.Content.Whole
/-!
# Contents — an array of contents is drawn one content after the other

The contents of an array are put together before they are read.  If each of them ends outside, then what is drawn is what
the items of the contents draw, the items of each content read by itself (`draw_contents`).
-/
namespace PdfContent

namespace Content

theorem joinContents_nil (ds : List Bytes) : joinContents ([] :: ds) = joinContents ds := rfl

theorem joinContents_cons {d : Bytes} (ds : List Bytes) (hd : d ≠ []) : joinContents (d :: ds) = joined (d :: ds) := by
  cases d with
  | nil => exact absurd rfl hd
  | cons => rfl

/-- **Contents that end outside are read one after the other.** -/
theorem items_joinContents {st : Store} {ds : List Bytes} (h : Separate st 0 ds) :
    items st (joinContents ds) = (itemsApart st 0 ds).flatten := by
  induction ds with
  | nil => exact itemsFrom_nil
  | cons d ds ih =>
    by_cases hd : d = []
    · subst hd
      have nothing : itemsFrom st (0 + List.length ([] : Bytes)) [] = [] := itemsFrom_nil
      rw [joinContents_nil, ih h.2, itemsApart, nothing]
      rfl
    · have taken : 0 + d.length ≠ 0 := by simpa using hd
      rw [joinContents_cons ds hd, items, ← itemsFrom_joined taken h, Nat.zero_add]

end Content

namespace Machine

variable {α : Type} [Scalar α]

/-- **The contents of an array are drawn one after the other.**  If each of them but the last ends outside of strings,
containers, comments and inline images, then drawing the array draws the items of the first content, then those of the
second and so on, and nothing is lost or put together where one content ends and another begins.  Nothing of them is
drawn if decoding one of them ends in a panic. -/
theorem draw_contents (env : Environment α) (m : Machine α) {o : Object} {os : List Object} {streams : List Stream}
    (ho : env.store.resolve o = .array os) (hs : os.mapM (fun o => (env.store.resolve o).stream?) = some streams) :
    (∀ contents, streams.mapM (bytesOf env.store) = .ok contents → Content.Separate env.store 0 contents →
      m.draw env o = .ok (run env levels (Content.itemsApart env.store 0 contents).flatten m)) ∧
    ∀ p, streams.mapM (bytesOf env.store) = .error p → m.draw env o = .ok (run env levels [.panic p] m) := by
  have bytes : contentBytes env.store o = .ok ((streams.mapM (bytesOf env.store)).map joinContents) := by
    unfold contentBytes
    rw [ho]
    simp only [hs]
  unfold draw
  rw [bytes]
  refine ⟨fun contents hd apart => ?_, fun p hd => ?_⟩
  · rw [hd, ← Content.items_joinContents apart]
    rfl
  · rw [hd]
    rfl

/-- A rectangle whose operator stands in another content than its operands. -/
theorem rectangle_in_contents :
    let env : Environment Float := ⟨.empty, .silent, true, .default⟩
    let page : Machine Float := start env [] .empty .identity
    let streams : List Stream := [⟨.empty, Bytes.ofText "0 0 10 10"⟩, ⟨.empty, Bytes.ofText "re f"⟩]
    let contents : List Bytes := [Bytes.ofText "0 0 10 10", Bytes.ofText "re f"]
    let array : Object := .array (streams.map .stream)
    env.store.resolve array = array ∧
      (streams.map Object.stream).mapM (fun o => (env.store.resolve o).stream?) = some streams ∧
      Content.Separate env.store 0 contents ∧
      page.draw env array = .ok (run env levels (Content.itemsApart env.store 0 contents).flatten page) := by
  intro env page streams contents array
  have digit {s rest : Bytes} {n : Number} (h : PdfContent.Token.Whole s (.number n) rest) :
      Content.Whole s (.operand (.num n)) rest := .object h (fun _ => nofun) trivial rfl
  have separate : Content.Separate env.store 0 contents :=
    ⟨fun _ => .operand (digit ⟨rfl, rfl⟩) (.operand (digit ⟨rfl, rfl⟩) (.operand (digit ⟨rfl, rfl⟩)
      (.operand (digit ⟨rfl, rfl⟩) (.filler rfl rfl)))), fun h => absurd rfl h, trivial⟩
  have resolved : (streams.map Object.stream).mapM (fun o => (env.store.resolve o).stream?) = some streams := rfl
  exact ⟨rfl, resolved, separate, (draw_contents env page rfl resolved).1 contents rfl separate⟩

/-- **Not all contents are drawn one after the other.**  The end of an inline image is not found if what follows it in
another content does not look like content, and a comment goes on in the next content: each time the save that the second
content consists of is lost. -/
theorem contents_run_together :
    let env : Environment Float := ⟨.empty, .silent, true, .default⟩
    let page : Machine Float := start env [] .empty .identity
    let content (data : Bytes) : Object := .stream ⟨.empty, data⟩
    let save : List Content.Item := [.command (Bytes.ofText "q") none]
    let image := Bytes.ofText "BI ID x EI"
    let noted : Bytes := [0x71, 0x25, 0xe9]
    (∃ d, Content.items env.store image = [.command (Bytes.ofText "BI") (some ⟨[], some ⟨d, Bytes.ofText "x"⟩⟩)]) ∧
      Content.items env.store noted = save ∧
      (∃ n, page.draw env (.array [content image, content noted]) = .ok n ∧ n.saved.length = 0) ∧
      (run env levels (Content.items env.store image ++ save) page).saved.length = 1 ∧
      Content.items env.store (Bytes.ofText "%") = [] ∧ Content.items env.store (Bytes.ofText "q") = save ∧
      (∃ n, page.draw env (.array [content (Bytes.ofText "%"), content (Bytes.ofText "q")]) = .ok n ∧
        n.saved.length = 0) ∧
      (run env levels ([] ++ save) page).saved.length = 1 := by
  intro env page content save image noted
  have first : Content.items env.store image = [.command (Bytes.ofText "BI")
      (some ⟨[], some ⟨InlineImage.expand (.ofList []), Bytes.ofText "x"⟩⟩)] := by
    have start : Content.next? image = some (.command Content.imageWord, Bytes.ofText " ID x EI") :=
      Content.next?_keyword rfl rfl
    have data : Content.imageOperands (Bytes.ofText " ID x EI") = ([], [], some (Bytes.ofText " x EI")) :=
      Content.imageOperands_data (Content.next?_keyword rfl rfl)
    rw [Content.items, Content.itemsFrom_image start, Content.readImage, data]
    exact congrArg (Content.Item.command _ _ :: ·) Content.itemsFrom_nil
  have second : Content.items env.store noted = save := by
    have start : Content.next? noted = some (.command (Bytes.ofText "q"), [0x25, 0xe9]) := Content.next?_keyword rfl rfl
    rw [Content.items, Content.itemsFrom_command start rfl, Content.itemsFrom_end (Content.next?_end rfl)]
  have lost : Content.items env.store (joinContents [image, noted]) =
      [.command (Bytes.ofText "BI") (some ⟨[.inlineImageEof], none⟩)] := by
    have start : Content.next? (joinContents [image, noted]) =
        some (.command Content.imageWord, Bytes.ofText " ID x EI " ++ noted) := Content.next?_keyword rfl rfl
    have data : Content.imageOperands (Bytes.ofText " ID x EI " ++ noted) =
        ([], [], some (Bytes.ofText " x EI " ++ noted)) := Content.imageOperands_data (Content.next?_keyword rfl rfl)
    rw [Content.items, Content.itemsFrom_image start, Content.readImage, data]
    exact congrArg (Content.Item.command _ _ :: ·) Content.itemsFrom_nil
  have plain : Content.items env.store (Bytes.ofText "q") = save := by
    have start : Content.next? (Bytes.ofText "q") = some (.command (Bytes.ofText "q"), []) := Content.next?_keyword rfl rfl
    rw [Content.items, Content.itemsFrom_command start rfl, Content.itemsFrom_nil]
  have comment : Content.items env.store (Bytes.ofText "%") = [] := Content.itemsFrom_end (Content.next?_end rfl)
  have swallowed : Content.items env.store (joinContents [Bytes.ofText "%", Bytes.ofText "q"]) = [] :=
    Content.itemsFrom_end (Content.next?_end rfl)
  have saved (items : List Content.Item) {items' : List Content.Item} (h : items' = items) :
      (run env levels items' page).saved.length = (run env levels items page).saved.length := by rw [h]
  exact ⟨⟨_, first⟩, second, ⟨_, rfl, saved _ lost⟩, saved (_ ++ save) (congrArg (· ++ save) first), comment, plain,
    ⟨_, rfl, saved _ swallowed⟩, rfl⟩

end Machine

end PdfContent
