import Selectors.Proofs.Slices.Passes

/-!
# Selectors read on their own

A list of selectors is no more than its selectors side by side: which commas separate them is found
out while reading, but each selector, read on its own from its text at its place, is the same again
(`selectors_parse`).

Reading a list closes a selector at each separating comma.  The tokens since the last one are a
passage, which does not depend on the comma and what is behind it; a selector that the end of the
text closes has all tokens up to there.  `Since` says of a draft that it was reached in one of these
two ways, and `Reads.standsAlone` keeps this along the reading.
-/

namespace Selectors

/-- A list with no selector but one that starts at `p`. -/
def Builder.fresh (p : Nat) : Builder := { draft := some { start := p } }

/-- The selector is that of some text on its own, or it has no text. -/
def Selector.StandsAlone (s : Selector) : Prop :=
  Parsed [s] ∨ s.nodes = [] ∧ s.before = "" ∧ s.after = ""

/-- A list that starts with a selector reads like an empty one. -/
theorem Reads.of_fresh {stop p : Nat} {t : Token} {ts : List Token} {r : Reading}
    (h : Reads stop 0 (.fresh p) (t :: ts) r) (hp : t.span.start = p) :
    Reads stop 0 {} (t :: ts) r := by
  subst hp
  cases h with
  | close ht hd => exact absurd hd (Nat.lt_irrefl 0)
  | comma ht hr => exact .comma ht hr
  | parens ht hd ho hi hc hr => exact .parens ht hd ho hi hc hr
  | node hclose hcomma hparen hs hr => exact .node hclose hcomma hparen hs hr

/-- The selector that the tokens of a text read as stands alone. -/
theorem Reads.standsAlone_close {stop p : Nat} {ts : List Token} {d : Draft} {es : List Event}
    (h : Reads stop 0 (.fresh p) ts ⟨⟨[], some d⟩, none, [], es⟩) (hts : Token.Lexed p ts)
    (hstop : stop = p + (Token.join ts).utf8ByteSize) : (d.close stop).StandsAlone := by
  cases ts with
  | nil =>
    cases h
    exact .inr ⟨rfl, rfl, rfl⟩
  | cons t ts =>
    have hp : t.span.start = p := by rw [hts.covering.head_span, Span.start_ofText]
    exact .inl ((h.of_fresh hp).parsed hts hstop)

/-- Reading came from the start of a selector at `p` over the tokens `us` to a draft, with the
tokens `ts` left. -/
inductive Since (stop p : Nat) (us : List Token) (d : Draft) : List Token → Prop where
  | passes {ts : List Token} {es : List Event}
      (h : Passes 0 (.fresh p) (us ++ ts) ⟨[], some d⟩ ts es) : Since stop p us d ts
  | reads {es : List Event} (h : Reads stop 0 (.fresh p) us ⟨⟨[], some d⟩, none, [], es⟩) :
      Since stop p us d []

namespace Since

variable {stop p : Nat} {us vs ts rest : List Token} {t : Token} {d d' : Draft} {es : List Event}

theorem start : Since stop p [] { start := p } ts := .passes .refl

theorem done (h : Since stop p us d []) :
    ∃ es, Reads stop 0 (.fresh p) us ⟨⟨[], some d⟩, none, [], es⟩ := by
  cases h with
  | passes h =>
    rw [List.append_nil] at h
    exact ⟨_, h.reads .done⟩
  | reads h => exact ⟨_, h⟩

/-- Reading goes on. -/
theorem step (h : Since stop p us d (t :: ts))
    (hstep : Passes 0 ⟨[], some d⟩ (t :: ts) ⟨[], some d'⟩ rest es) (hvs : vs ++ rest = t :: ts) :
    Since stop p (us ++ vs) d' rest := by
  cases h with
  | passes h =>
    have hall := h.trans hstep
    rw [← hvs, ← List.append_assoc] at hall
    exact .passes hall

/-- Reading comes to the end of the tokens, perhaps with a parenthesis still open. -/
theorem finish (h : Since stop p us d (t :: ts))
    (hr : Reads stop 0 ⟨[], some d⟩ (t :: ts) ⟨⟨[], some d'⟩, none, [], es⟩) :
    Since stop p (us ++ t :: ts) d' [] := by
  cases h with
  | passes h => exact .reads (h.reads hr)

/-- The selector before a comma stands alone. -/
theorem standsAlone_close (h : Since stop p us d (t :: ts)) (hts : Token.Lexed p (us ++ t :: ts)) :
    (d.close t.span.start).StandsAlone := by
  obtain ⟨hus, hrest⟩ := Token.lexed_append hts
  cases h with
  | passes h =>
    have hreads : Reads t.span.start 0 (.fresh p) us _ := h.reads_alone (.inl rfl)
    exact hreads.standsAlone_close hus (by rw [hrest.covering.head_span, Span.start_ofText])

end Since

/-- **Every selector that is read stands alone.** -/
theorem Reads.standsAlone {stop depth p : Nat} {b : Builder} {us ts : List Token} {r : Reading}
    {d : Draft} (h : Reads stop depth b ts r) (hdepth : depth = 0) (hb : b.draft = some d)
    (hclosed : ∀ s ∈ b.closed, s.StandsAlone) (hd : Since stop p us d ts)
    (hts : Token.Lexed p (us ++ ts))
    (hstop : stop = p + (Token.join (us ++ ts)).utf8ByteSize) :
    ∀ s ∈ r.builder.finish stop, s.StandsAlone := by
  induction h generalizing p us d with
  | @done depth b =>
    rw [List.append_nil] at hts hstop
    obtain ⟨es, hr⟩ := hd.done
    simp only [Builder.finish, hb, Option.map_some, Option.toList_some, List.mem_reverse,
      List.singleton_append, List.mem_cons]
    rintro s (rfl | hs)
    · exact hr.standsAlone_close hts hstop
    · exact hclosed s hs
  | close ht hlt => omega
  | @comma depth b t ts r ht hr ih =>
    -- the draft is closed, and the next selector starts behind the comma
    have hcurrent : b.current t = d := by simp [Builder.current, hb]
    have hrest := (Token.lexed_append hts).2
    refine ih hdepth rfl ?_ .start hrest.tail ?_
    · simp only [Builder.comma, hcurrent, List.mem_cons]
      rintro s (rfl | hs)
      · exact hd.standsAlone_close hts
      · exact hclosed s hs
    · rw [hstop, hrest.covering.head_span]
      simp only [Token.join_append, Token.join, String.utf8ByteSize_append, Span.stop_ofText,
        List.nil_append, Nat.add_assoc]
  | @parens depth b t ts o inner r n ht hlt ho hi hn hr ihi ihr =>
    subst hdepth
    have hcurrent : b.current t = d := by simp [Builder.current, hb]
    rw [hcurrent] at ho hn
    obtain ⟨builder, closer, rest, events⟩ := inner
    cases closer with
    | none =>
      -- an open parenthesis takes the tokens to the end
      obtain rfl : rest = [] := hi.rest_eq_nil rfl
      have hend := hd.finish (.parens ht hlt ho hi hn .done)
      exact ihr rfl rfl hclosed hend (by rwa [List.append_nil]) (by rwa [List.append_nil])
    | some c =>
      have hrest : rest <:+ t :: ts := (hi.suffix.trans (ho ▸ d.openParens_suffix t ts)).trans
        (List.suffix_cons t ts)
      obtain ⟨vs, hvs⟩ := hrest
      have hpass := Passes.parens (b := ⟨[], some d⟩) ht hlt ho (hi.passes rfl)
        (hi.kind_closer c rfl) (hn.trans (Draft.closeParens_closed ..)) .refl
      exact ihr rfl rfl hclosed (hd.step hpass hvs) (by rwa [List.append_assoc, hvs])
        (by rwa [List.append_assoc, hvs])
  | @node depth b t ts s r hclose hcomma hparen hs hr ih =>
    subst hdepth
    have hcurrent : b.current t = d := by simp [Builder.current, hb]
    rw [hcurrent] at hs
    have hrest : s.rest <:+ t :: ts := (hs ▸ Draft.step_suffix 0 d t ts).trans
      (List.suffix_cons t ts)
    obtain ⟨vs, hvs⟩ := hrest
    exact ih rfl rfl hclosed (hd.step (.node hclose hcomma hparen hs .refl) hvs)
      (by rwa [List.append_assoc, hvs]) (by rwa [List.append_assoc, hvs])

/-! ### Parsed trees -/

theorem parse_standsAlone (source : String) (offset : Nat) :
    ∀ s ∈ parse source offset, s.StandsAlone := by
  have hlexed := Token.lexed_tokenize source offset
  have hjoin := join_tokenize source offset
  simp only [parse, parseLogged, readSelectors]
  cases hts : tokenize source offset with
  | nil =>
    rw [← Reads.done.eq_readList]
    simp [Builder.finish]
  | cons t ts =>
    rw [hts] at hlexed hjoin
    -- `Since` is about a draft, which the first token would start where the text starts
    have hfresh := reads_readList (offset + source.utf8ByteSize) 0 (.fresh offset) (t :: ts)
    have hstart : t.span.start = offset := by rw [hlexed.covering.head_span, Span.start_ofText]
    rw [← (hfresh.of_fresh hstart).eq_readList]
    exact hfresh.standsAlone rfl rfl (by simp [Builder.fresh]) .start hlexed
      (by rw [List.nil_append, hjoin])

/-- **A list of selectors is its selectors side by side.**  Only the empty text has no selectors.
Each selector of a text, read on its own from its text at its place, is the same again, unless it
has no text, and then it is empty. -/
theorem selectors_parse (source : String) (offset : Nat)
    (h : offset + source.utf8ByteSize < UInt64.size) :
    ∃ list, parse? source offset = .ok list ∧ (list = [] ↔ source = "") ∧
      ∀ s ∈ list, ∃ w, s.span.Shows source offset w ∧
        (w ≠ "" → parse? w s.span.start = .ok [s]) ∧
        (w = "" → s.nodes = [] ∧ s.before = "" ∧ s.after = "") := by
  refine ⟨parse source offset, parse?_of_fits h, ⟨fun hnil => ?_, ?_⟩, fun s hs => ?_⟩
  · rw [← (parse_covers source offset).1, hnil]
    rfl
  · rintro rfl
    exact parse_empty offset
  · have hcuts := parse_cuts s hs
    have hspan : s.span = .ofText s.span.start s.print := by rw [Span.ofText, ← hcuts.stop_eq]
    have hfits : s.span.start + s.print.utf8ByteSize < UInt64.size := by
      rw [← hcuts.stop_eq]
      exact Nat.lt_of_le_of_lt hcuts.shows.stop_le h
    refine ⟨s.print, hcuts.shows, ?_⟩
    rcases parse_standsAlone source offset s hs with hparsed | ⟨hnodes, hbefore, hafter⟩
    · have hparse := hparsed.parse_eq (p := s.span.start) ⟨hspan, trivial⟩
      have htext : Selector.printList [s] = s.print := by
        simp [Selector.printList, Selector.printTail]
      rw [htext] at hparse
      refine ⟨fun _ => by rw [parse?_of_fits hfits, hparse], fun hempty => ?_⟩
      -- the empty text has no selectors
      rw [hempty, parse_empty] at hparse
      cases hparse
    · refine ⟨fun hne => absurd ?_ hne, fun _ => ⟨hnodes, hbefore, hafter⟩⟩
      simp [Selector.print_eq, hnodes, hbefore, hafter, Node.printAll]

theorem selectors_parse_unclosed :
    7 + "a[b ,:is(c,d),e(,".utf8ByteSize < UInt64.size ∧
      ∃ list, parse? "a[b ,:is(c,d),e(," 7 = .ok list ∧ (list = [] ↔ "a[b ,:is(c,d),e(," = "") ∧
        ∀ s ∈ list, ∃ w, s.span.Shows "a[b ,:is(c,d),e(," 7 w ∧
          (w ≠ "" → parse? w s.span.start = .ok [s]) ∧
          (w = "" → s.nodes = [] ∧ s.before = "" ∧ s.after = "") :=
  ⟨by decide, selectors_parse _ 7 (by decide)⟩

end Selectors
