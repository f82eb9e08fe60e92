import PdfContent.Word
/-!
# Emission — values that are handed out one after the other

What takes the values has seen those before a panic when it comes, so they are part of the result.
-/
namespace PdfContent

/-- Values in the order in which they are handed out, and the panic behind the last one, if there is one. -/
structure Emission (β : Type) where
  items : List β
  panic? : Option Panic

namespace Emission

variable {β γ : Type}

def nil : Emission β := ⟨[], none⟩

def one (b : β) : Emission β := ⟨[b], none⟩

/-- What is handed out once a value is known, which may fail. -/
def after (v : Checked γ) (f : γ → Emission β) : Emission β :=
  match v with
  | .ok v => f v
  | .error p => ⟨[], some p⟩

/-- The values of the first, and then those of the second unless a panic comes before them. -/
def append (x y : Emission β) : Emission β :=
  match x.panic? with
  | none => ⟨x.items ++ y.items, y.panic?⟩
  | some _ => x

instance : Append (Emission β) := ⟨append⟩

def map (f : β → γ) (x : Emission β) : Emission γ := ⟨x.items.map f, x.panic?⟩

def flatMap (xs : List γ) (f : γ → Emission β) : Emission β := xs.foldr (fun x rest => f x ++ rest) nil

theorem after_eq {v : Checked γ} {f : γ → Emission β} {c : γ} (h : v = .ok c) : after v f = f c := by rw [h]; rfl

theorem one_append (b : β) (x : Emission β) : one b ++ x = ⟨b :: x.items, x.panic?⟩ := rfl

end Emission

end PdfContent
