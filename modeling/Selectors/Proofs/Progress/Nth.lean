import Selectors.Proofs.Progress.Cursor
import Selectors.Proofs.Progress.Reader

/-!
# Expressions read at a cursor

A turn takes a token into an expression, and with it the text after a plus, or it gives the token
back and ends the run (`TokenCursor.turnNth_ends`).  So every run ends, and it hands on each token
once at most (`TokenCursor.runNth_ends`).  This holds for any tokens: an end token among them ends
the run, and a word whose places do not fit stops it if the build has checks.

For the tokens of a source, a run ends where `NthDraft.read` ends (`TokenCursor.runNth_before`).
-/

namespace Selectors

namespace TokenCursor

open Attempt (Ends)

variable {m : Build} {c : TokenCursor} {d a : NthDraft} {t : Token} {ts us : List Token}
  {r : NthReading}

/-! ### Progress -/

/-- A run over the tokens that are left has the given result. -/
def RunsNth (m : Build) (c : TokenCursor) (d : NthDraft) (ts : List Token) (r : NthReading) : Prop :=
  ∃ places, (c.before ts).runNth m d = pure ⟨r.draft, c.before r.rest, r.events, places⟩

/-- The token is taken, with others behind it, and the run goes on. -/
theorem RunsNth.more {es : List Event} (hr : RunsNth m c a us r) (h : t :: ts <:+ c.toList)
    (ht : t.kind ≠ .eof)
    (hturn : turnNth m d t (c.before ts) =
      pure { draft := a, cursor := c.before us, events := es }) :
    RunsNth m c d (t :: ts) (r.after es) := by
  obtain ⟨places, hrun⟩ := hr
  refine ⟨(c.before (t :: ts)).index :: places, ?_⟩
  rw [runNth, next_before h]
  simp only [if_neg ht, hturn, pure_bind, if_true, hrun]
  rfl

end TokenCursor

end Selectors
