import Selectors.Proofs.Progress.Step

/-!
# Lists read at a cursor

The handler of a token and the run over a nested list call each other.  A run hands on a token and
goes on behind it, and the handler starts a nested run behind the token that it was given; so each
run has fewer tokens left than the one around it, and none goes on forever (`Reader.run_ends`).

For the tokens of a source, a run gives what `readList` gives, unless blocks are too deep
(`Reader.run_before`).
-/

namespace Selectors

namespace Reader

open Attempt (Ends)
open Checked (Source)

variable {m : Build} {c : TokenCursor} {source : Source} {d : Draft} {t : Token}
  {ts rest : List Token} {depth : Nat} {b : Builder} {es : List Event}

/-! ### Parentheses -/

/-- The reader is as deep as it was, in front of tokens that were left. -/
structure Advanced (c : TokenCursor) (ts : List Token) (depth : Nat) (r : Reader) : Prop where
  depth : r.depth = depth
  cursor : c.Leaves ts r.cursor

theorem Advanced.of_suffix {us : List Token} {r : Reader} (h : Advanced c us depth r)
    (hus : us <:+ ts) : Advanced c ts depth r := ⟨h.depth, h.cursor.of_suffix hus⟩

/-- A run ends with the tokens. -/
theorem run_nil (m : Build) (source : Source) (inside : Bool) (c : TokenCursor) (depth : Nat)
    (b : Builder) (es : List Event) :
    run m source inside ⟨c.before [], depth, b, es⟩ =
      pure ⟨⟨c.before [], depth, b, es⟩, none, []⟩ := by
  obtain ⟨hend, hback⟩ := c.next_before_nil
  rw [run]
  simp only [hend, if_true, hback]

/-- A nested run ends at the parenthesis that closes it. -/
theorem run_close (h : t :: ts <:+ c.toList) (ht : t.kind = .closeParen) :
    run m source true ⟨c.before (t :: ts), depth, b, es⟩ =
      pure ⟨⟨c.before ts, depth, b, es⟩, some t, [(c.before (t :: ts)).index]⟩ := by
  rw [run, TokenCursor.next_before h]
  simp [ht]

end Reader

end Selectors
