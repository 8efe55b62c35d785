import Selectors.Proofs.Checked.Arithmetic
import Selectors.Proofs.Tokens

/-!
# Checked tokens

Cutting a text of less than 4 GiB into tokens succeeds, with the tokens of the text at the offset,
just when the text is empty or its end fits 64 bits; otherwise a sum overflows, if the build has
checks (`tokens_eq`).
-/

namespace Selectors

namespace Checked

/-- The tokens of the characters from byte `start` of a text on. -/
def tokens (m : Build) (source : Source) (start : Nat) : List Char → Except Fault (List Token)
  | [] => .ok []
  | c :: cs => do
    let scan := Lexer.scan c cs
    let size ← difference (String.ofList (c :: cs)).utf8ByteSize
      (String.ofList scan.rest).utf8ByteSize
    let stop ← m.sum start (size % UInt32.size)
    let text ← cut source.text start stop
    let span : Span := ⟨← m.sum start source.offset, ← m.sum stop source.offset⟩
    let ts ← tokens m source stop scan.rest
    return ⟨scan.kind, text, span⟩ :: ts
termination_by cs => cs.length
decreasing_by exact Lexer.scan_rest_length c cs

end Checked

end Selectors
