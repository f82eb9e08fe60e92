import PdfContent.Bytes
/-!
# RunLength — runs of equal bytes and of literal bytes
-/
namespace PdfContent.RunLength

/-- Decodes runs: a length below 128 is followed by one more byte than it says, one above 128 by a byte that is repeated
257 less that many times, and 128 ends the data.  A literal run that is cut off keeps its bytes. -/
def decode (s : Bytes) : Bytes :=
  match s with
  | [] => []
  | n :: r =>
    if n == 128 then []
    else if n < 128 then r.take (n.toNat + 1) ++ decode (r.drop (n.toNat + 1))
    else
      match r with
      | [] => []
      | b :: r => List.replicate (257 - n.toNat) b ++ decode r
termination_by s.length

end PdfContent.RunLength
