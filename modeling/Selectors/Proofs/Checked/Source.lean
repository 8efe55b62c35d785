import Selectors.Proofs.Checked.Arithmetic
import Selectors.Proofs.Source

/-!
# Raw text of a source

What is left of the tokens stands at the end of the source (`Source.Ahead`), so the text between two
of its tokens can be cut out of the source: it is the text of the tokens between them.
-/

namespace Selectors

namespace Checked

namespace Source

variable {m : Build} {source : Source} {t : Token} {ts us rest : List Token}

/-- The tokens cover the end of the source. -/
def Ahead (source : Source) (ts : List Token) : Prop :=
  ∃ before, source.text = before ++ Token.join ts ∧
    Token.Covering (source.offset + before.utf8ByteSize) ts

theorem Ahead.suffix (h : source.Ahead ts) (hrest : rest <:+ ts) : source.Ahead rest := by
  obtain ⟨us, rfl⟩ := hrest
  obtain ⟨before, htext, hts⟩ := h
  refine ⟨before ++ Token.join us, ?_, ?_⟩
  · rw [htext, Token.join_append, String.append_assoc]
  · rw [String.utf8ByteSize_append, ← Nat.add_assoc]
    exact (Token.covering_append.1 hts).2

theorem raw_eq {start stop : Nat} (a w b : String) (htext : source.text = a ++ w ++ b)
    (hstart : start = source.offset + a.utf8ByteSize) (hstop : stop = start + w.utf8ByteSize) :
    source.raw m start stop = .ok w := by
  have hcut := slice?_append a w b
  rw [← htext] at hcut
  rw [raw, Build.difference_eq (by omega), bind_ok, Build.difference_eq (by omega), bind_ok,
    hstop, hstart, Nat.add_assoc, Nat.add_sub_cancel_left, Nat.add_sub_cancel_left, hcut]
  rfl

/-- The text of a token and some tokens after it. -/
theorem Ahead.raw (h : source.Ahead (t :: us ++ rest)) :
    source.raw m t.span.start ((us.getLast?.map (·.span.stop)).getD t.span.stop) =
      .ok (t.text ++ Token.join us) := by
  obtain ⟨before, htext, hts⟩ := h
  obtain ⟨⟨ht, -⟩, hus⟩ := Token.covering_cons.1 hts
  have hstop := (Token.covering_append.1 hus).1.stop_eq
  rw [ht, Span.start_ofText, Span.stop_ofText, hstop]
  refine raw_eq before (t.text ++ Token.join us) (Token.join rest) ?_ rfl ?_
  · simp [htext, Token.join, Token.join_append, String.append_assoc]
  · rw [String.utf8ByteSize_append, Nat.add_assoc]

/-- The last token ends where the source ends. -/
theorem Ahead.stop_eq (h : source.Ahead (t :: ts)) :
    (ts.getLast?.map (·.span.stop)).getD t.span.stop =
      source.offset + source.text.utf8ByteSize := by
  obtain ⟨before, htext, hts⟩ := h
  obtain ⟨⟨ht, -⟩, hts⟩ := Token.covering_cons.1 hts
  rw [ht, Span.stop_ofText, hts.stop_eq, htext, Token.join]
  simp only [String.utf8ByteSize_append]
  omega

end Source

end Checked

end Selectors
