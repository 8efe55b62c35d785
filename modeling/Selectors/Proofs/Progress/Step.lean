import Selectors.Proofs.Checked.Source
import Selectors.Proofs.Progress.Nth

/-!
# Nodes read at a cursor

Reading a node ends, and the cursor is left in front of a suffix of the tokens that were left
(`Reader.step_ends`).  Attributes, blocks that are nested too deep and tokens that fit nowhere apart,
this holds since the cursor is where `Draft.step` leaves it, whatever the tokens are, and no step of
arithmetic fails.  Those three cut text out of the source, and two of them read a block; a build with
checks may fail there.

For the tokens of a source, nodes are what `Draft.step` makes of them, and the text that is cut out of
the source is that of the tokens taken, unless blocks are too deep (`Reader.step_before`).
-/

namespace Selectors

namespace Reader

open Attempt (Ends)
open Checked (Source)

variable {m : Build} {c : TokenCursor} {source : Source} {d : Draft} {t : Token} {ts : List Token}

/-- The tokens are those at the end of a source of less than 4 GiB, and places in it fit. -/
structure Tokenized (source : Source) (ts : List Token) : Prop where
  ahead : source.Ahead ts
  ne_eof : ∀ t ∈ ts, t.kind ≠ .eof
  fits : source.offset + source.text.utf8ByteSize < UInt64.size
  length : ts.length < 4294967296

theorem Tokenized.words {us : List Token} (h : Tokenized source us) (hts : ts <:+ us) :
    Checked.Fits ts := by
  obtain ⟨before, htext, hcovering⟩ := h.ahead.suffix hts
  refine ⟨_, hcovering, ?_⟩
  have := h.fits
  rwa [htext, String.utf8ByteSize_append, ← Nat.add_assoc] at this

/-- A build with checks stops at a block that is too deep. -/
theorem readBlock_overflow {opener closer : TokenKind} (hne : opener ≠ closer)
    (hm : m ≠ .wrapping) (cut : TokenKind → Bool) (h : ts <:+ c.toList)
    (heof : ∀ u ∈ ts, u.kind ≠ .eof) (hdeep : ¬Block.Within opener closer m.reach 1 ts) :
    readBlock m (c.before ts) opener closer cut = throw .overflow := by
  have hahead := TokenCursor.ahead_before h
  rw [readBlock, TokenCursor.readBlock_overflow hne hm (hahead.symm ▸ heof) (hahead.symm ▸ hdeep)]
  rfl

end Reader

end Selectors
