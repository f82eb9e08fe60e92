import PdfContent.Graphics.State
/-!
# Clip — the clip path in effect and those saved with the graphics state

Shading operators fill what they are clipped to, so the path is kept after it has been used up.
-/
namespace PdfContent

structure ClipPath (α : Type) where
  /-- In user space at the time the clip was set. -/
  path : Path α
  rule : FillRule

structure ClipHistory (α : Type) where
  current : Option (ClipPath α)
  saved : List (Option (ClipPath α))

namespace ClipHistory

variable {α : Type}

def empty : ClipHistory α := ⟨none, []⟩

def set (h : ClipHistory α) (path : Path α) (rule : FillRule) : ClipHistory α := { h with current := some ⟨path, rule⟩ }

def save (h : ClipHistory α) : ClipHistory α := { h with saved := h.current :: h.saved }

def restore (h : ClipHistory α) : ClipHistory α :=
  match h.saved with
  | [] => h
  | c :: r => ⟨c, r⟩

def depth (h : ClipHistory α) : Nat := h.saved.length

end ClipHistory

end PdfContent
