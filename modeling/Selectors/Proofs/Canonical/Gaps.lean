import Selectors.Proofs.Canonical.Pieces

/-!
# Reading printed combinators

A combinator and the blanks around it print to at most three tokens, and these are read as one gap
with just that combinator, provided that what follows does not continue the gap
(`leads_combinator`).  Blanks alone are read the same way, also at the edges of a selector, where
they are trimmed later.
-/

namespace Selectors

open Lexer

variable {stop depth p : Nat} {cs rest : List Char}

/-! ### Where a gap ends -/

/-- No gap goes on with these characters. -/
def EndsGap (cs : List Char) : Prop :=
  ∀ c ∈ cs.head?, isBlank c = false ∧ c ≠ '+' ∧ c ≠ '>' ∧ c ≠ '~' ∧ c ≠ '/'

theorem endsGap_cons {c : Char}
    (h : isBlank c = false ∧ c ≠ '+' ∧ c ≠ '>' ∧ c ≠ '~' ∧ c ≠ '/') : EndsGap (c :: cs) := by
  rintro d hd
  obtain rfl := Option.some.inj hd
  exact h

theorem isGap_stringBody (quote : Char) (cs : List Char) :
    (stringBody quote cs).kind.isGap = false := by
  fun_induction stringBody quote cs <;> simp_all [TokenKind.isGap]

theorem isGap_scan {c : Char} (h : EndsGap (c :: cs)) : (scan c cs).kind.isGap = false := by
  obtain ⟨hblank, hplus, hgreater, htilde, hslash⟩ := h c rfl
  rw [scan, if_neg (by simp [hslash]), if_neg (by simp [hblank])]
  by_cases hquote : isQuote c
  · rw [if_pos hquote]
    exact isGap_stringBody c cs
  · rw [if_neg hquote]
    split
    · rename_i k hk
      unfold TokenKind.ofDelimiter? at hk
      split at hk <;> cases hk <;> first | rfl | contradiction
    · rw [textRun_kind]
      rfl

theorem isGap_cut (h : EndsGap cs) : ∀ t ∈ (cut p cs).head?, t.kind.isGap = false := by
  cases cs with
  | nil => simp [cut, lexemes, Token.place]
  | cons c cs =>
    intro t ht
    rw [cut, lexemes] at ht
    cases ht
    exact isGap_scan h

/-- The tokens of a gap are read up to the first token that is none. -/
theorem gap_append {us ts : List Token} (hus : ∀ u ∈ us, u.kind.isGap)
    (hts : ∀ t ∈ ts.head?, t.kind.isGap = false) (t : Token) (atFront : Bool) :
    Gap.read atFront t (us ++ ts) = us.foldl (Gap.push atFront) (Gap.start t) ∧
      Gap.rest (us ++ ts) = ts := by
  have hstop : ts.takeWhile (·.kind.isGap) = [] ∧ ts.dropWhile (·.kind.isGap) = ts := by
    cases ts with
    | nil => exact ⟨rfl, rfl⟩
    | cons u us => simp [hts u rfl]
  rw [Gap.read, Gap.rest, List.takeWhile_append_of_pos hus, List.dropWhile_append_of_pos hus,
    hstop.1, hstop.2, List.append_nil]
  exact ⟨rfl, rfl⟩

/-! ### Blanks -/

/-- The token of blanks, if there are any. -/
theorem cut_blanks {s : String} (p : Nat) (hs : IsBlanks s)
    (h : ∀ c ∈ rest.head?, isBlank c = false) :
    ∃ us q, cut p (s.toList ++ rest) = us ++ cut q rest ∧ Token.join us = s ∧
      (us = [] ∨ ∃ t, us = [t] ∧ t.kind = .space) := by
  by_cases hne : s = ""
  · subst hne
    exact ⟨[], p, rfl, rfl, .inl rfl⟩
  · obtain ⟨t, q, hcut, hk, rfl⟩ := cut_cons p (lexemes_blanks hne hs h)
    exact ⟨[t], q, hcut, by simp [Token.join], .inr ⟨t, rfl, hk⟩⟩

theorem ofText_of_isBlanks {s : String} (hs : IsBlanks s) :
    CombinatorKind.ofText s = .descendant := by
  have hne : ∀ c : Char, isBlank c = false → s ≠ String.ofList [c] := by
    rintro c hc rfl
    have := hs c (by simp)
    rw [hc] at this
    cases this
  have hplus : s ≠ "+" := hne '+' rfl
  have hgreater : s ≠ ">" := hne '>' rfl
  have htilde : s ≠ "~" := hne '~' rfl
  simp [CombinatorKind.ofText, hplus, hgreater, htilde]

/-! ### Combinators -/

/-- The kind of the token of a combinator. -/
def CombinatorKind.token : CombinatorKind → TokenKind
  | descendant => .space
  | nextSibling => .plus
  | child => .greaterThan
  | subsequentSibling => .tilde

theorem cut_combinator {kind : CombinatorKind} (p : Nat) (rest : List Char)
    (h : kind ≠ .descendant) :
    ∃ t q, cut p (kind.name.toList ++ rest) = t :: cut q rest ∧ t.kind = kind.token ∧
      t.text = kind.name := by
  cases kind with
  | descendant => exact absurd rfl h
  | nextSibling => exact cut_delimiter p rest (rfl : TokenKind.ofDelimiter? '+' = _)
  | child => exact cut_delimiter p rest (rfl : TokenKind.ofDelimiter? '>' = _)
  | subsequentSibling => exact cut_delimiter p rest (rfl : TokenKind.ofDelimiter? '~' = _)

theorem CombinatorKind.ofText_name {kind : CombinatorKind} (h : kind ≠ descendant) :
    ofText kind.name = kind := by
  cases kind <;> first | exact absurd rfl h | rfl

/-- A combinator token after blanks, if there are any, takes them over. -/
theorem gap_front {kind : CombinatorKind} {t : Token} {us : List Token} (hkind : kind ≠ .descendant)
    (hk : t.kind = kind.token) (ht : t.text = kind.name)
    (hus : us = [] ∨ ∃ u, us = [u] ∧ u.kind = .space) (hblanks : IsBlanks (Token.join us))
    (atFront : Bool) :
    ∃ u ws span, us ++ [t] = u :: ws ∧ u.kind.isCombinator ∧ (∀ w ∈ ws, w.kind.isGap) ∧
      ws.foldl (Gap.push atFront) (Gap.start u) =
        { current := ⟨span, kind, kind.name, Token.join us, "", false⟩ } := by
  have hname := CombinatorKind.ofText_name hkind
  have htoken : t.kind.isGap ∧ t.kind.isCombinator := by
    rw [hk]
    cases kind <;> exact ⟨rfl, rfl⟩
  -- a combinator token is neither blanks nor a comment
  have hpush : ∀ g : Gap, g.push atFront t = g.pushCombinator atFront t := by
    intro g
    unfold Gap.push
    rw [hk]
    cases kind <;> first | exact absurd rfl hkind | rfl
  rcases hus with rfl | ⟨u, rfl, hu⟩
  · refine ⟨t, [], t.span, rfl, htoken.2, by simp, ?_⟩
    simp [Gap.start, Combinator.ofToken, ht, hname, Token.join]
  · have hblank : CombinatorKind.ofText u.text = .descendant :=
      ofText_of_isBlanks (by simpa [Token.join] using hblanks)
    refine ⟨u, [t], ⟨u.span.start, t.span.stop⟩, rfl, by rw [hu]; rfl, by simpa using htoken.1, ?_⟩
    simp [hpush, Gap.pushCombinator, Gap.start, Combinator.ofToken, hblank, Combinator.print, ht,
      hname, Token.join]

/-- Blanks after a combinator, if there are any, belong to it. -/
theorem gap_back {vs : List Token} (span : Span) (kind : CombinatorKind) (text before : String)
    (hvs : vs = [] ∨ ∃ v, vs = [v] ∧ v.kind = .space) (atFront : Bool) :
    ∃ span', vs.foldl (Gap.push atFront) { current := ⟨span, kind, text, before, "", false⟩ } =
      { current := ⟨span', kind, text, before, Token.join vs, false⟩ } := by
  rcases hvs with rfl | ⟨v, rfl, hv⟩
  · exact ⟨span, rfl⟩
  · exact ⟨⟨span.start, v.span.stop⟩, by simp [Gap.push, hv, Gap.pushBlanks, Token.join]⟩

/-- The tokens of a gap that comes down to one combinator are read as this combinator. -/
theorem leads_gap {t : Token} {us ts : List Token} {c : Combinator} (b : Builder) (d : Draft)
    (ht : t.kind.isCombinator) (hus : ∀ u ∈ us, u.kind.isGap)
    (hts : ∀ t ∈ ts.head?, t.kind.isGap = false)
    (hc : us.foldl (Gap.push d.nodes.isEmpty) (Gap.start t) = { current := c }) :
    Leads stop depth (b.set d) (t :: (us ++ ts)) (b.set (d.push (.combinator c))) ts := by
  obtain ⟨hread, hrest⟩ := gap_append hus hts t d.nodes.isEmpty
  have hstep : d.step depth t (us ++ ts) = d.stepGap t (us ++ ts) := by
    unfold Draft.step
    cases hk : t.kind <;> rw [hk] at ht <;> first | rfl | contradiction
  have hkind : ∀ {k : TokenKind}, k.isCombinator = false → t.kind ≠ k := by
    rintro k hk rfl
    rw [hk] at ht
    cases ht
  have hdraft : d.step depth t (us ++ ts) = ⟨d.push (.combinator c), ts, []⟩ := by
    rw [hstep, Draft.stepGap, hread, hrest, hc]
    simp [Gap.nodes, Draft.push]
  exact .node ⟨hkind rfl, hkind rfl, hkind rfl⟩ hdraft

/-- **A combinator is read**, with the blanks around it. -/
theorem leads_combinator (stop depth : Nat) {c : Combinator} (p : Nat) (b : Builder) (d : Draft)
    (hc : c.Fits) (h : EndsGap rest) :
    ∃ c' q, Leads stop depth (b.set d) (cut p (c.print.toList ++ rest))
        (b.set (d.push (.combinator c'))) (cut q rest) ∧ c'.unplaced = c.unplaced := by
  obtain ⟨span, kind, text, before, after, invalid⟩ := c
  obtain ⟨hinvalid, hc⟩ := hc
  have hblank : ∀ c ∈ rest.head?, isBlank c = false := fun c hc => (h c hc).1
  dsimp only at hinvalid hc
  subst hinvalid
  rcases hc with ⟨rfl, hne, hblanks, rfl, rfl⟩ | ⟨hkind, rfl, hbefore, hafter⟩
  · obtain ⟨t, q, hcut, hk, rfl⟩ := cut_cons p (lexemes_blanks hne hblanks hblank)
    have hsplit : (Combinator.print ⟨span, .descendant, t.text, "", "", false⟩).toList ++ rest =
        t.text.toList ++ rest := by
      simp [Combinator.print]
    rw [hsplit, hcut]
    have hlead : Leads stop depth (b.set d) (t :: ([] ++ cut q rest))
        (b.set (d.push (.combinator (.ofToken t)))) (cut q rest) :=
      leads_gap b d (by rw [hk]; rfl) (by simp) (isGap_cut h) rfl
    refine ⟨.ofToken t, q, hlead, ?_⟩
    simp [Combinator.unplaced, Combinator.ofToken, ofText_of_isBlanks hblanks]
  · -- blanks, the combinator, and blanks again
    have hsplit : (Combinator.print ⟨span, kind, kind.name, before, after, false⟩).toList ++ rest =
        before.toList ++ (kind.name.toList ++ (after.toList ++ rest)) := by
      simp [Combinator.print]
    have hfirst : ∀ c ∈ (kind.name.toList ++ (after.toList ++ rest)).head?, isBlank c = false := by
      cases kind <;> first | exact absurd rfl hkind | (intro c hc; cases hc; rfl)
    obtain ⟨us, q, hcut, rfl, hus⟩ := cut_blanks p hbefore hfirst
    obtain ⟨t, q', hcut', hk, ht⟩ := cut_combinator q (after.toList ++ rest) hkind
    obtain ⟨vs, q'', hcut'', rfl, hvs⟩ := cut_blanks q' hafter hblank
    obtain ⟨u, ws, span₁, hws, hu, hgap, hfold⟩ :=
      gap_front hkind hk ht hus hbefore d.nodes.isEmpty
    obtain ⟨span₂, hfold'⟩ := gap_back span₁ kind kind.name (Token.join us) hvs d.nodes.isEmpty
    have htokens : us ++ t :: (vs ++ cut q'' rest) = u :: (ws ++ vs ++ cut q'' rest) := by
      rw [← List.singleton_append, ← List.append_assoc, hws, List.cons_append, List.append_assoc]
    rw [hsplit, hcut, hcut', hcut'', htokens]
    rw [← hfold, ← List.foldl_append] at hfold'
    refine ⟨_, q'', leads_gap b d hu ?_ (isGap_cut h) hfold', rfl⟩
    intro w hw
    rcases List.mem_append.1 hw with hw | hw
    · exact hgap w hw
    · rcases hvs with rfl | ⟨v, rfl, hv⟩
      · cases hw
      · obtain rfl := List.mem_singleton.1 hw
        rw [hv]
        rfl

end Selectors
