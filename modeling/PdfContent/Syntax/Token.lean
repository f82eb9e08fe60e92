import PdfContent.Syntax.Literal
/-!
# Token — cutting bytes into tokens

`Token.next?` skips what separates tokens and reads one.  What is left of the bytes is always shorter.
-/
namespace PdfContent

inductive Token where
  | number (n : Number)
  | name (n : Name)
  | string (bytes : Bytes)
  | arrayStart
  | arrayEnd
  | dictStart
  | dictEnd
  | keyword (word : Bytes)

namespace Token

/-- Drops white space, comments and delimiters that open nothing: a closing parenthesis, a brace or a single `>`. -/
def skipFiller (inComment : Bool) : Bytes → Bytes
  | [] => []
  | b :: r =>
    if inComment then skipFiller (!Byte.isEol b) r
    else if Byte.isBlank b then skipFiller false r
    else if b == 0x25 then skipFiller true r
    else if b == 0x29 || b == 0x7b || b == 0x7d then skipFiller false r
    else if b == 0x3e && r.head? != some 0x3e then skipFiller false r
    else b :: r

/-- The body of a literal string up to its closing parenthesis, and what follows it.  Parentheses inside are balanced
unless a backslash stands before them; without an end, everything is the body. -/
def stringBody (depth : Nat) : Bytes → Bytes × Bytes
  | [] => ([], [])
  | b :: r =>
    if b == 0x5c then
      match r with
      | [] => ([b], [])
      | c :: r' => let (body, rest) := stringBody depth r'; (b :: c :: body, rest)
    else if b == 0x28 then let (body, rest) := stringBody (depth + 1) r; (b :: body, rest)
    else if b == 0x29 then
      match depth with
      | 0 => ([], r)
      | depth + 1 => let (body, rest) := stringBody depth r; (b :: body, rest)
    else let (body, rest) := stringBody depth r; (b :: body, rest)

def startsNumber (b : UInt8) : Bool := Byte.isDigit b || b == 0x2b || b == 0x2d || b == 0x2e

def ofWord (word : Bytes) : Token :=
  match word with
  | b :: _ => if startsNumber b then ((Literal.number? word).map number).getD (keyword word) else keyword word
  | [] => keyword word

def next? (s : Bytes) : Option (Token × Bytes) :=
  match skipFiller false s with
  | [] => none
  | b :: r =>
    if b == 0x2f then
      some (name ⟨Literal.name (r.takeWhile Byte.isRegular)⟩, r.dropWhile Byte.isRegular)
    else if b == 0x28 then
      let (body, rest) := stringBody 0 r
      some (string (Literal.string body), rest)
    else if b == 0x3c then
      match r with
      | 0x3c :: r' => some (dictStart, r')
      | _ => some (string (Literal.hexString (r.takeWhile (· != 0x3e))), (r.dropWhile (· != 0x3e)).drop 1)
    else if b == 0x3e then some (dictEnd, r.drop 1)
    else if b == 0x5b then some (arrayStart, r)
    else if b == 0x5d then some (arrayEnd, r)
    else some (ofWord (b :: r.takeWhile Byte.isRegular), r.dropWhile Byte.isRegular)

theorem length_skipFiller_le (c : Bool) (s : Bytes) : (skipFiller c s).length ≤ s.length := by
  induction s generalizing c with
  | nil => simp [skipFiller]
  | cons b r ih =>
    simp only [skipFiller]
    have h0 := ih false
    have h1 := ih true
    have h2 := ih (!Byte.isEol b)
    repeat' split
    all_goals simp only [List.length_cons]
    all_goals omega

theorem length_stringBody_le (d : Nat) (s : Bytes) : (stringBody d s).2.length ≤ s.length := by
  fun_induction stringBody d s <;> simp_all <;> omega

theorem length_dropWhile_le (p : UInt8 → Bool) (s : Bytes) : (s.dropWhile p).length ≤ s.length :=
  (List.dropWhile_suffix p).length_le

/-- A token takes at least one byte. -/
theorem length_next?_lt {s rest : Bytes} {t : Token} (h : next? s = some (t, rest)) : rest.length < s.length := by
  have hs := length_skipFiller_le false s
  simp only [next?] at h
  split at h
  · cases h
  · rename_i b r hb
    rw [hb, List.length_cons] at hs
    have hd := length_dropWhile_le Byte.isRegular r
    have hx := length_dropWhile_le (· != 0x3e) r
    have hb := length_stringBody_le 0 r
    have hn := List.length_drop (i := 1) (l := r)
    have hy := List.length_drop (i := 1) (l := r.dropWhile (· != 0x3e))
    repeat' split at h
    all_goals (simp only [Option.some.injEq, Prod.mk.injEq] at h; obtain ⟨_, rfl⟩ := h)
    all_goals (try simp only [List.length_cons] at hs)
    all_goals omega

end Token

end PdfContent
