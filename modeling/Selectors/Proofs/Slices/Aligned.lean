import Selectors.Proofs.Lexemes

/-!
# Cutting a slice again

A slice of a text that runs from the start of one of its tokens to the end of another, or of the
same one, has just those two tokens and the ones between them, each where it was
(`tokenize_slice`).  Nothing behind the slice is needed to end its last token, and nothing in front
of it to start its first.
-/

namespace Selectors

/-- The items from one index to another stand between those in front of them and those behind. -/
theorem exists_append_of_le {α : Type} {l : List α} {i j : Nat} (hij : i ≤ j) (hj : j < l.length) :
    ∃ us vs, l = us ++ (l.take (j + 1)).drop i ++ vs ∧
      ((l.take (j + 1)).drop i).head? = some l[i] ∧
      ((l.take (j + 1)).drop i).getLast? = some l[j] := by
  refine ⟨l.take i, l.drop (j + 1), ?_, ?_, ?_⟩
  · have htake : (l.take (j + 1)).take i = l.take i := by
      rw [List.take_take, Nat.min_eq_left (by omega)]
    rw [← htake, List.take_append_drop, List.take_append_drop]
  · rw [List.head?_drop, List.getElem?_take_of_lt (by omega), List.getElem?_eq_getElem]
  · rw [List.getLast?_drop, if_neg (by rw [List.length_take]; omega), List.getLast?_take]
    simp [List.getElem?_eq_getElem hj]

namespace Token

variable {p : Nat} {us ms vs : List Token}

/-- Tokens between others are those of their own text, at their place. -/
theorem Lexed.middle (h : Lexed p (us ++ ms ++ vs)) : Lexed (p + (join us).utf8ByteSize) ms :=
  (lexed_append (lexed_append h).1).2

/-- From the start of the first to the end of the last, tokens span their text. -/
theorem Covering.span_eq (h : Covering p ms) {first last : Token}
    (hfirst : ms.head? = some first) (hlast : ms.getLast? = some last) :
    (⟨first.span.start, last.span.stop⟩ : Span) = .ofText p (join ms) := by
  have htiles : Tiles 0 p (p + (join ms).utf8ByteSize) (ms.map Token.span) :=
    h.laid.tiles (by rw [extent_eq, Nat.add_zero])
  rw [htiles.first first.span (by rw [List.head?_map, hfirst]; rfl),
    htiles.last last.span (by rw [List.getLast?_map, hlast]; rfl)]
  rfl

end Token

/-- **Cutting a slice between two tokens gives the tokens between them.**  Take any two tokens of a
text, the first not behind the second, or one token twice: the text from the start of the one to the
end of the other, cut at the place where it stands, gives these two and all tokens between them. -/
theorem tokenize_slice (source : String) (offset : Nat)
    (h : offset + source.utf8ByteSize < UInt64.size) :
    ∃ ts, tokenize? source offset = .ok ts ∧
      ∀ (i j : Nat) (hij : i ≤ j) (hj : j < ts.length), ∃ w,
        (⟨ts[i].span.start, ts[j].span.stop⟩ : Span).Shows source offset w ∧
          tokenize? w ts[i].span.start = .ok ((ts.take (j + 1)).drop i) := by
  have hlexed := Token.lexed_tokenize source offset
  have hjoin := join_tokenize source offset
  refine ⟨tokenize source offset, tokenize?_of_fits h, fun i j hij hj => ?_⟩
  generalize tokenize source offset = ts at hlexed hjoin hj ⊢
  obtain ⟨us, vs, hsplit, hfirst, hlast⟩ := exists_append_of_le hij hj
  generalize (ts.take (j + 1)).drop i = ms at hsplit hfirst hlast ⊢
  have hmiddle : Token.Lexed (offset + (Token.join us).utf8ByteSize) ms :=
    (hsplit ▸ hlexed).middle
  have hspan := hmiddle.covering.span_eq hfirst hlast
  obtain ⟨hstart, hstop⟩ := Span.mk.inj hspan
  have hshows : Span.Shows source offset (Token.join ms) ⟨ts[i].span.start, ts[j].span.stop⟩ := by
    refine Span.Cuts.shows ⟨Token.join us, Token.join vs, ?_, hspan⟩
    rw [← Token.join_append, ← Token.join_append, ← hsplit, hjoin]
  have hfits : ts[i].span.start + (Token.join ms).utf8ByteSize < UInt64.size := by
    rw [hstart, ← hstop]
    exact Nat.lt_of_le_of_lt hshows.stop_le h
  refine ⟨Token.join ms, hshows, ?_⟩
  rw [tokenize?_of_fits hfits, hstart, hmiddle]

/-- A star that follows an escaped slash, and the comment after it. -/
theorem tokenize_slice_escaped :
    5 + "\\/*/**/b".utf8ByteSize < UInt64.size ∧
      ∃ ts, tokenize? "\\/*/**/b" 5 = .ok ts ∧ 1 ≤ 2 ∧ ∃ h : 2 < ts.length, ∃ w,
        (⟨ts[1].span.start, ts[2].span.stop⟩ : Span).Shows "\\/*/**/b" 5 w ∧
          tokenize? w ts[1].span.start = .ok ((ts.take 3).drop 1) := by
  obtain ⟨ts, hts, hall⟩ := tokenize_slice "\\/*/**/b" 5 (by decide)
  have hlength : 2 < ts.length := by
    have hcut : (tokenize "\\/*/**/b" 5).length = 4 := by decide +kernel
    rw [tokenize?_of_fits (by decide)] at hts
    rw [← Except.ok.inj hts, hcut]
    decide
  exact ⟨by decide, ts, hts, by decide, hlength, hall 1 2 (by decide) hlength⟩

end Selectors
