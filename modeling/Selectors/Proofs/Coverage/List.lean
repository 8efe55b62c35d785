import Selectors.Proofs.Coverage.Step

/-!
# Lists cover the tokens read

A list being read covers a text if its closed selectors, each with the comma after it, and then
its draft cover that text.  Every rule of reading keeps this true, so a whole list covers all its
tokens (`Reads.covers`), and so does the finished list (`Builder.Covers.finish`).
-/

namespace Selectors

namespace Selector

/-- Selectors, each before a comma. -/
def printEach : List Selector → String
  | [] => ""
  | s :: ss => s.print ++ "," ++ printEach ss

theorem printEach_append (ss ts : List Selector) :
    printEach (ss ++ ts) = printEach ss ++ printEach ts := by
  induction ss with
  | nil => simp [printEach]
  | cons s ss ih => simp [printEach, ih, String.append_assoc]

theorem printList_cons_cons (s t : Selector) (ss : List Selector) :
    printList (s :: t :: ss) = s.print ++ "," ++ printList (t :: ss) := by
  simp [printList, printTail, String.append_assoc]

theorem printList_concat (ss : List Selector) (s : Selector) :
    printList (ss ++ [s]) = printEach ss ++ s.print := by
  induction ss with
  | nil => simp [printList, printTail, printEach]
  | cons a ss ih =>
    obtain ⟨b, bs, hb⟩ : ∃ b bs, ss ++ [s] = b :: bs := by cases ss <;> simp
    rw [List.cons_append, hb, printList_cons_cons, ← hb, ih, printEach]
    simp only [String.append_assoc]

theorem extent_eq (ss : List Selector) :
    extent 1 Selector.print ss = (printEach ss).utf8ByteSize := by
  induction ss with
  | nil => rfl
  | cons s ss ih => simp [extent, printEach, String.utf8ByteSize_append, ih]; rfl

end Selector

namespace Draft

variable {d : Draft} {p : Nat} {w : String}

/-- A closed draft spans and prints the text that it covers. -/
theorem Covers.close (h : d.Covers p w) (stop : Nat) (hstop : stop = p + w.utf8ByteSize) :
    (d.close stop).span = .ofText p w ∧ (d.close stop).print = w ∧
      (NodeRef.selector (d.close stop)).Every NodeRef.Arranged := by
  have hlaid : Laid 0 Node.span Node.print (d.start + d.before.utf8ByteSize) d.nodes.reverse := by
    rw [h.start]
    exact h.cover.laid
  obtain ⟨hs, hp, hl⟩ := Selector.cover_trim
    (s := ⟨⟨d.start, stop⟩, d.before, "", d.nodes.reverse⟩) hlaid
  refine ⟨?_, ?_, NodeRef.every_selector.2 ⟨hl, ?_⟩⟩
  · rw [Draft.close, hs, h.start, hstop, Span.ofText]
  · rw [Draft.close, hp, Selector.print_eq, String.append_empty]
    exact h.cover.print
  · refine (Selector.every_trim (fun n hn => ?_) _).2 fun n hn => h.inner n (List.mem_reverse.1 hn)
    cases n <;> trivial

end Draft

/-- Closed selectors, last one first, print to `u` with a comma after each, and lie where `u` has
them when it starts at `p`. -/
structure Builder.Closed (p : Nat) (closed : List Selector) (u : String) : Prop where
  print : Selector.printEach closed.reverse = u
  laid : Laid 1 Selector.span Selector.print p closed.reverse
  inner : ∀ s ∈ closed, (NodeRef.selector s).Every NodeRef.Arranged

/-- The list prints to `w`, and all in it lies where `w` has it when it starts at `p`. -/
inductive Builder.Covers (p : Nat) : Builder → String → Prop where
  | empty : Covers p {} ""
  | draft {closed : List Selector} {d : Draft} {u v : String} (hc : Builder.Closed p closed u)
      (hd : d.Covers (p + u.utf8ByteSize) v) : Covers p ⟨closed, some d⟩ (u ++ v)

namespace Builder

variable {b : Builder} {p : Nat} {u v w : String} {t : Token}

theorem closed_nil (p : Nat) : Closed p [] "" := ⟨rfl, trivial, by simp⟩

/-- A draft that is closed before a comma. -/
theorem Closed.concat {closed : List Selector} (h : Closed p closed u) {s : Selector}
    (hs : s.span = .ofText (p + u.utf8ByteSize) v) (hp : s.print = v)
    (hi : (NodeRef.selector s).Every NodeRef.Arranged) :
    Closed p (s :: closed) (u ++ v ++ ",") := by
  refine ⟨?_, ?_, by simpa using ⟨hi, h.inner⟩⟩
  · rw [List.reverse_cons, Selector.printEach_append, h.print, Selector.printEach, hp,
      Selector.printEach, String.append_empty, String.append_assoc]
  · rw [List.reverse_cons]
    exact laid_concat.2 ⟨h.laid, by rw [Selector.extent_eq, h.print, hp, hs]⟩

/-- The selector being read when a token comes covers the end of the text so far. -/
theorem Covers.current (h : b.Covers p w) (ht : t.span.start = p + w.utf8ByteSize) :
    ∃ u v, w = u ++ v ∧ Closed p b.closed u ∧ (b.current t).Covers (p + u.utf8ByteSize) v := by
  cases h with
  | empty =>
    refine ⟨"", "", rfl, closed_nil p, ?_⟩
    simpa [Builder.current, ht] using Draft.covers_new p
  | draft hc hd => exact ⟨_, _, rfl, hc, hd⟩

theorem Covers.set {d : Draft} (hc : Closed p b.closed u) (hd : d.Covers (p + u.utf8ByteSize) v) :
    (b.set d).Covers p (u ++ v) := .draft hc hd

theorem Covers.comma (h : b.Covers p w) (ht : t.span = .ofText (p + w.utf8ByteSize) t.text)
    (htext : t.text = ",") : (b.comma t).Covers p (w ++ t.text) := by
  obtain ⟨u, v, rfl, hc, hd⟩ := h.current (by rw [ht, Span.start_ofText])
  rw [String.utf8ByteSize_append, ← Nat.add_assoc] at ht
  obtain ⟨hspan, hprint, hinner⟩ := hd.close t.span.start (by rw [ht, Span.start_ofText])
  have := Covers.draft (hc.concat hspan hprint hinner) (d := { start := t.span.stop }) (v := "")
    ⟨?_, .nil _ _, by simp⟩
  · rwa [String.append_empty, ← htext] at this
  · simp only [ht, htext, Span.stop_ofText, String.utf8ByteSize_append]
    omega

/-- A finished list prints to the text that it covers. -/
theorem Covers.finish (h : b.Covers p w) (stop : Nat) (hstop : stop = p + w.utf8ByteSize) :
    Selector.printList (b.finish stop) = w ∧
      Laid 1 Selector.span Selector.print p (b.finish stop) ∧
      ∀ s ∈ b.finish stop, (NodeRef.selector s).Every NodeRef.Arranged := by
  cases h with
  | empty => exact ⟨rfl, trivial, by simp [Builder.finish]⟩
  | @draft closed d u v hc hd =>
    obtain ⟨hspan, hprint, hinner⟩ := hd.close stop
      (by rw [hstop, String.utf8ByteSize_append, Nat.add_assoc])
    have hlist : Builder.finish ⟨closed, some d⟩ stop = closed.reverse ++ [d.close stop] := by
      simp [Builder.finish]
    rw [hlist]
    refine ⟨?_, ?_, ?_⟩
    · rw [Selector.printList_concat, hc.print, hprint]
    · exact laid_concat.2 ⟨hc.laid, by rw [Selector.extent_eq, hc.print, hprint, hspan]⟩
    · simp only [List.mem_append, List.mem_reverse, List.mem_singleton]
      rintro s (hs | rfl)
      · exact hc.inner s hs
      · exact hinner

end Builder

/-! ### Parentheses -/

/-- A list that covers the tokens before `rest`, which are those of `ts` from `p + w` on. -/
def Builder.Takes (b : Builder) (rest : List Token) (p : Nat) (w : String) (ts : List Token) :
    Prop :=
  ∃ us, us ++ rest = ts ∧ b.Covers p (w ++ Token.join us)

namespace Draft

variable {d : Draft} {p : Nat} {w : String} {t : Token} {ts : List Token}

/-- The expression at the front of a nested list covers its tokens. -/
theorem openParens_takes (d : Draft) (hts : Token.Covering t.span.stop ts) :
    (d.openParens t ts).builder.Takes (d.openParens t ts).rest t.span.stop "" ts := by
  unfold Draft.openParens
  split
  · obtain ⟨us, hus, hs, hp, hl⟩ := (NthDraft.covers_start t.span.stop).read
      (by simpa using hts)
    refine ⟨us, hus, ?_⟩
    simp only [String.empty_append] at hs hp hl ⊢
    split
    · rename_i hempty
      obtain ⟨hnodes, hbefore⟩ := hempty
      simp only [NthDraft.finish] at hnodes hbefore
      rw [hnodes, hbefore] at hp
      rw [← hp]
      exact .empty
    · generalize hr : (NthDraft.start t.span.stop).read ts = r at *
      have hprint : (Node.nth r.draft.finish).print = Token.join us := by
        simpa [Node.print, Nth.print, NthDraft.finish] using hp
      have hnth : (NodeRef.node (.nth r.draft.finish)).Every NodeRef.Arranged := by
        refine NodeRef.every_nth.2 ⟨⟨?_, rfl⟩, fun _ _ => trivial⟩
        rw [show r.draft.finish.span = _ from hs]
        exact hl
      have hdraft := (covers_new t.span.stop).push (n := .nth r.draft.finish)
        (by rw [hprint]; exact hs) hnth
      rw [hprint, String.empty_append] at hdraft
      have := Builder.Covers.draft (Builder.closed_nil t.span.stop) hdraft
      rwa [String.empty_append] at this
  · exact ⟨[], rfl, by simpa [Token.join] using .empty⟩

/-- A nested list covers its tokens, whether a node owns it or not. -/
theorem Covers.closeParens (us : List Token) (stop : Nat) (inner : Reading) (h : d.Covers p w)
    (ht : Token.Covering (p + w.utf8ByteSize) (t :: (us ++ inner.closer.toList)))
    (hk : t.kind = .openParen) (hi : inner.builder.Covers t.span.stop (Token.join us))
    (hc : ∀ c ∈ inner.closer, c.kind = .closeParen)
    (hstop : inner.closer = none → stop = t.span.stop + (Token.join us).utf8ByteSize) :
    (d.closeParens stop t (Token.join (t :: (us ++ inner.closer.toList))) inner).1.Covers p
      (w ++ Token.join (t :: (us ++ inner.closer.toList))) := by
  have htext : t.text = "(" := ht.head_text (c := '(') (by rw [hk]; rfl)
  have hspan := ht.head_span
  have hclose := (Token.covering_append.1 (Token.covering_cons.1 ht).2).2
  obtain ⟨builder, closer, rest, events⟩ := inner
  unfold Draft.closeParens
  split
  · rename_i c span sigil name nodes hcloser hnodes
    obtain rfl : closer = some c := hcloser
    rw [← List.singleton_append] at hnodes
    obtain ⟨v, rfl, hd, hf, -⟩ := h.pop hnodes
    have hctext : c.text = ")" := by
      have hck := hc c rfl
      exact hclose.head_text (c := ')') (by rw [hck]; rfl)
    have hcspan := hclose.head_span
    rw [hspan, Span.stop_ofText] at hi
    obtain ⟨hlist, hlaid, hevery⟩ := hi.finish c.span.start
      (by rw [hcspan, Span.start_ofText])
    have hsigil := (h.inner _ (by rw [hnodes]; exact .head _)).self
    simp only [Node.span, Node.print, Selector.printArguments, String.append_empty] at hf
    -- the node now ends after its closing parenthesis
    have hprint : (Node.functional ⟨span.start, c.span.stop⟩ sigil name
        (some (builder.finish c.span.start))).print =
        sigil.opening ++ name ++ sigil.closing ++
          Token.join (t :: (us ++ [c])) := by
      simp [Node.print, Selector.printArguments, Token.join, hlist, htext, hctext,
        String.append_assoc]
    have hnew := hd.push (n := .functional ⟨span.start, c.span.stop⟩ sigil name
      (some (builder.finish c.span.start))) ?_ (NodeRef.every_functional.2 ⟨⟨?_, ?_⟩, hevery⟩)
    · rw [hprint, ← String.append_assoc] at hnew
      simpa [Draft.push, Node.print, Node.printAll, Selector.printArguments] using hnew
    · rw [hprint, Node.span, hf, hcspan]
      simp [Span.ofText, Token.join, Node.printAll, Node.print, Selector.printArguments]
      omega
    · exact hsigil
    · have hone : "(".utf8ByteSize = 1 := rfl
      rw [Sigil.argumentsStart, hf]
      simpa [htext, hone, Node.printAll, Node.print, Selector.printArguments, Nat.add_assoc]
        using hlaid
  · refine h.push (n := .invalid _ _) ?_ (every_invalid.2 trivial)
    rw [Node.print, Node.span, hspan]
    cases closer with
    | none => simp [Span.ofText, Token.join, hstop rfl, hspan, Nat.add_assoc]
    | some c => simp [Span.ofText, Token.join, hclose.head_span, Nat.add_assoc]

end Draft

/-! ### Whole lists -/

/-- The tokens after those that were taken follow the text of these. -/
theorem Token.Covering.advance {p stop : Nat} {w : String} {ts us rest : List Token}
    (ht : Token.Covering (p + w.utf8ByteSize) ts)
    (hstop : stop = p + w.utf8ByteSize + (Token.join ts).utf8ByteSize) (hus : us ++ rest = ts) :
    Token.Covering (p + (w ++ Token.join us).utf8ByteSize) rest ∧
      stop = p + (w ++ Token.join us).utf8ByteSize + (Token.join rest).utf8ByteSize := by
  subst hus
  rw [String.utf8ByteSize_append, ← Nat.add_assoc]
  refine ⟨(Token.covering_append.1 ht).2, ?_⟩
  simp only [hstop, Token.join_append, String.utf8ByteSize_append, Nat.add_assoc]

theorem Token.consumed_of_append {ts us rest : List Token} (h : us ++ rest = ts) :
    Token.consumed ts rest = us :=
  List.append_cancel_right ((Token.consumed_append ⟨us, h⟩).trans h.symm)

/-- What reading a list took: all tokens before its closing parenthesis, or all there are. -/
structure Reading.Takes (r : Reading) (p : Nat) (w : String) (ts us : List Token) : Prop where
  append : us ++ (r.closer.toList ++ r.rest) = ts
  covers : r.builder.Covers p (w ++ Token.join us)

/-- Events do not matter. -/
theorem Reading.Takes.log {r : Reading} {p : Nat} {w : String} {ts us : List Token}
    (h : r.Takes p w ts us) (es : List Event) : (r.after es).Takes p w ts us :=
  ⟨h.append, h.covers⟩

/-- The tokens taken later come after those taken before. -/
theorem Reading.Takes.after {r : Reading} {p : Nat} {w : String} {us vs rest ts : List Token}
    (h : r.Takes p (w ++ Token.join us) rest vs) (hus : us ++ rest = ts) :
    r.Takes p w ts (us ++ vs) := by
  constructor
  · rw [List.append_assoc, h.append, hus]
  · rw [Token.join_append, ← String.append_assoc]
    exact h.covers

/-- **Reading a list covers the tokens that it takes**, and it takes all of them unless a
parenthesis closes it. -/
theorem Reads.covers {stop depth : Nat} {b : Builder} {ts : List Token} {r : Reading} {p : Nat}
    {w : String} (h : Reads stop depth b ts r) (hb : b.Covers p w)
    (ht : Token.Covering (p + w.utf8ByteSize) ts)
    (hstop : stop = p + w.utf8ByteSize + (Token.join ts).utf8ByteSize) :
    ∃ us, r.Takes p w ts us := by
  induction h generalizing p w with
  | done => exact ⟨[], rfl, by simpa [Token.join] using hb⟩
  | close => exact ⟨[], rfl, by simpa [Token.join] using hb⟩
  | @comma depth b t ts r hk hr ih =>
    have htext : t.text = "," := ht.head_text (c := ',') (by rw [hk]; rfl)
    have hus : [t] ++ ts = t :: ts := rfl
    obtain ⟨ht', hstop'⟩ := ht.advance hstop hus
    have hb' := hb.comma ht.head_span htext
    obtain ⟨us, hr⟩ := ih (by simpa [Token.join] using hb') ht' hstop'
    exact ⟨[t] ++ us, hr.after hus⟩
  | @parens depth b t ts o inner r c hk hd ho hi hc hr ihi ihr =>
    obtain ⟨u, v, rfl, hclosed, hdraft⟩ := hb.current (t := t) (by rw [ht.head_span]; rfl)
    have hend : t.span.stop = p + (u ++ v).utf8ByteSize + t.text.utf8ByteSize := by
      rw [ht.head_span, Span.stop_ofText]
    have hts : Token.Covering (t.span.stop + "".utf8ByteSize) ts := by
      rw [hend]
      exact (Token.covering_cons.1 ht).2
    have hstop' : stop = t.span.stop + "".utf8ByteSize + (Token.join ts).utf8ByteSize := by
      simp only [hstop, hend, Token.join, String.utf8ByteSize_append, String.utf8ByteSize_empty]
      omega
    -- the block: its expression, its list, and its closing parenthesis
    obtain ⟨us₁, hus₁, hopen⟩ := (b.current t).openParens_takes (by simpa using hts)
    rw [← ho] at hus₁ hopen
    obtain ⟨hrest, hstop''⟩ := hts.advance hstop' hus₁
    obtain ⟨us₂, hus₂⟩ := ihi hopen hrest hstop''
    have hin := hus₂.after hus₁
    have htaken : t :: (us₁ ++ us₂ ++ inner.closer.toList) ++ inner.rest = t :: ts := by
      rw [List.cons_append, List.append_assoc, hin.append]
    rw [Token.consumed_of_append htaken] at hc
    have hcov := hdraft.closeParens (us₁ ++ us₂) stop inner
      (by
        rw [← htaken] at ht
        rw [Nat.add_assoc, ← String.utf8ByteSize_append]
        exact (Token.covering_append.1 ht).1) hk
      (by simpa using hin.covers) hi.kind_closer (fun hnone => by
        have happ := hin.append
        rw [hnone, hi.rest_eq_nil hnone, Option.toList_none, List.append_nil,
          List.append_nil] at happ
        rw [hstop', happ, String.utf8ByteSize_empty, Nat.add_zero])
    rw [← hc] at hcov
    obtain ⟨hrest', hstop'''⟩ := ht.advance hstop htaken
    obtain ⟨us, hr⟩ := ihr (by rw [String.append_assoc]; exact .set hclosed hcov) hrest' hstop'''
    exact ⟨_, (hr.after htaken).log _⟩
  | @node depth b t ts s r hclose hcomma hparen hs hr ih =>
    obtain ⟨u, v, rfl, hclosed, hdraft⟩ := hb.current (t := t) (by rw [ht.head_span]; rfl)
    obtain ⟨us, hus, hstep⟩ := hdraft.step depth
      (by rw [Nat.add_assoc, ← String.utf8ByteSize_append]; exact ht)
    rw [← hs] at hus hstep
    obtain ⟨hrest, hstop'⟩ := ht.advance hstop hus
    obtain ⟨vs, hr⟩ := ih (by rw [String.append_assoc]; exact .set hclosed hstep) hrest hstop'
    exact ⟨us ++ vs, (hr.after hus).log _⟩

end Selectors
