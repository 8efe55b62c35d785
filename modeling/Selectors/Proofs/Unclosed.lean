import Selectors.Proofs.Grammar.Step
import Selectors.Proofs.Shape.Edges
import Selectors.Proofs.Source

/-!
# Texts that end in an open string or comment

A string or comment that is not closed is the last token of its text.  No construct can take it but
one that fails: items are made of other tokens, and a bracket or parenthesis in which it stands is
open, too.  What fails is kept as one invalid node with all of its text (`Draft.step_unclosed`), and
nothing comes after it, so the list ends with such a node (`Reads.unclosed`).

* `parse_unclosed`: the tree of the text ends with an invalid node that has the text from its start
  to the end, the token included.
-/

namespace Selectors

/-- The kinds of the tokens that the end of the text cuts off. -/
def TokenKind.isUnclosed : TokenKind → Bool
  | unclosedString | unclosedComment => true
  | _ => false

/-! ### Constructs that do not fail -/

theorem TokenKind.not_isUnclosed_of_isPlain {k : TokenKind} (h : k.isPlain) : ¬k.isUnclosed := by
  cases k <;> simp_all [isPlain, isUnclosed]

namespace Grammar.Functional

variable {us : List Token} {u : Token}

/-- No functional selector ends with such a token: it ends with its mark, its name or comments, or
with its closing bracket. -/
theorem not_isUnclosed (h : Functional us) (hu : us.getLast? = some u) : ¬u.kind.isUnclosed := by
  have hname : ∀ {name : Option Token}, (∀ v ∈ name, v.kind = .text) →
      ∀ v ∈ name.toList, ¬v.kind.isUnclosed := by
    intro name hname v hv
    simp [hname v (Option.mem_toList.1 hv), TokenKind.isUnclosed]
  have hcomments : ∀ {cs : List Token}, (∀ c ∈ cs, c.kind = .comment) →
      ∀ c ∈ cs, ¬c.kind.isUnclosed := by
    intro cs hcs c hc
    simp [hcs c hc, TokenKind.isUnclosed]
  have hmem : u ∈ us := List.mem_of_getLast? hu
  cases h with
  | dot ht hcs hn | colon ht hcs hn =>
    rcases List.mem_cons.1 hmem with rfl | hmem
    · simp [ht, TokenKind.isUnclosed]
    · exact (List.mem_append.1 hmem).elim (hcomments hcs u) (hname hn u)
  | colons ht hcs hcolon hds hn =>
    rcases List.mem_cons.1 hmem with rfl | hmem
    · simp [ht, TokenKind.isUnclosed]
    · rcases List.mem_append.1 hmem with hmem | hmem
      · exact hcomments hcs u hmem
      · rcases List.mem_cons.1 hmem with rfl | hmem
        · simp [hcolon, TokenKind.isUnclosed]
        · exact (List.mem_append.1 hmem).elim (hcomments hds u) (hname hn u)
  | hash ht hn =>
    rcases List.mem_cons.1 hmem with rfl | hmem
    · simp [ht, TokenKind.isUnclosed]
    · exact hname hn u hmem
  | ampersand ht =>
    obtain rfl := List.mem_singleton.1 hmem
    simp [ht, TokenKind.isUnclosed]
  | @brackets o c us ho hus hc =>
    rw [← List.cons_append, List.getLast?_concat] at hu
    obtain rfl := Option.some.inj hu
    simp [hc, TokenKind.isUnclosed]

end Grammar.Functional

/-! ### Constructs that fail -/

/-- The selector ends with an invalid node, whose text ends with that of the token. -/
def Draft.EndsWith (u : Token) (d : Draft) : Prop :=
  ∃ span text nodes v, d.nodes = .invalid span text :: nodes ∧ text = v ++ u.text

variable {u : Token} {ts : List Token}

theorem Token.exists_join_eq (h : ts.getLast? = some u) : ∃ v, join ts = v ++ u.text := by
  obtain ⟨us, rfl⟩ := List.getLast?_eq_some_iff.1 h
  exact ⟨join us, by rw [join_append, join, join, String.append_empty]⟩

/-- An invalid node with the text of all tokens. -/
theorem Draft.endsWith_push (d : Draft) (span : Span) (h : ts.getLast? = some u) :
    (d.push (.invalid span (Token.join ts))).EndsWith u := by
  obtain ⟨v, hv⟩ := Token.exists_join_eq h
  exact ⟨span, _, d.nodes, v, rfl, hv⟩

/-- **A step that takes an open string or comment leaves an invalid node that ends with it.** -/
theorem Draft.step_unclosed {t : Token} (d : Draft) (depth : Nat) (hcomma : t.kind ≠ .comma)
    (hu : (t :: ts).getLast? = some u) (hk : u.kind.isUnclosed)
    (hrest : (d.step depth t ts).rest = []) : (d.step depth t ts).draft.EndsWith u := by
  by_cases hplain : t.kind.isPlain
  · obtain ⟨us, hus, hall, -⟩ := step_plain d depth ts hplain hcomma
    rw [hrest, List.append_nil] at hus
    subst hus
    have htaken : ∀ v ∈ t :: us, v.kind.isPlain := List.forall_mem_cons.2 ⟨hplain, hall⟩
    exact absurd hk (TokenKind.not_isUnclosed_of_isPlain (htaken u (List.mem_of_getLast? hu)))
  · have hfails : ∃ span us, us ++ (d.step depth t ts).rest = ts ∧
        (d.step depth t ts).draft = d.push (.invalid span (Token.join (t :: us))) := by
      by_cases hfunctional : Grammar.startsFunctional t.kind
      · rcases step_functional d depth ts hfunctional with ⟨-, us, hus, h⟩ | h
        · rw [hrest, List.append_nil] at hus
          subst hus
          exact absurd hk (h.not_isUnclosed hu)
        · exact h
      · exact step_invalid d depth ts hplain hfunctional
    obtain ⟨span, us, hus, hdraft⟩ := hfails
    rw [hrest, List.append_nil] at hus
    subst hus
    rw [hdraft]
    exact d.endsWith_push span hu

/-- A list in parentheses that takes an open string or comment is not closed, and its text is
kept. -/
theorem Draft.closeParens_unclosed {t : Token} {o : Opening} {stop depth : Nat} {inner : Reading}
    (d : Draft) (h : Reads stop depth o.builder o.rest inner) (ho : o.rest <:+ ts)
    (hu : (t :: ts).getLast? = some u) (hk : u.kind.isUnclosed) (hrest : inner.rest = []) :
    (d.closeParens stop t (Token.join (Token.consumed (t :: ts) inner.rest)) inner).1.EndsWith
      u := by
  have hopen : inner.closer = none := by
    cases hc : inner.closer with
    | none => rfl
    | some c =>
      obtain ⟨us, hus⟩ := h.append
      rw [hc, hrest, Option.toList_some, List.append_nil] at hus
      obtain ⟨vs, rfl⟩ := ho
      rw [← hus, ← List.append_assoc, ← List.cons_append, List.getLast?_concat] at hu
      obtain rfl := Option.some.inj hu
      rw [h.kind_closer c hc] at hk
      cases hk
  have hall : Token.consumed (t :: ts) inner.rest = t :: ts := by
    rw [hrest]
    exact Token.consumed_of_append (List.append_nil _)
  simp only [closeParens, hopen, hall]
  exact d.endsWith_push _ hu

/-! ### Lists -/

/-- The tokens left have the same last token. -/
theorem Token.getLast?_of_suffix {rest : List Token} (h : rest <:+ ts) (hne : rest ≠ [])
    (hu : ts.getLast? = some u) : rest.getLast? = some u := by
  obtain ⟨us, rfl⟩ := h
  rwa [List.getLast?_append_of_ne_nil _ hne] at hu

/-- **A list that is read to an open string or comment ends with an invalid node that ends with
it.** -/
theorem Reads.unclosed {stop depth : Nat} {b : Builder} {r : Reading} (h : Reads stop depth b ts r)
    (hc : r.closer = none) (hu : ts.getLast? = some u) (hk : u.kind.isUnclosed) :
    ∃ d, r.builder.draft = some d ∧ d.EndsWith u := by
  induction h with
  | done => cases hu
  | close => cases hc
  | @comma depth b t ts r ht hr ih =>
    refine ih hc (Token.getLast?_of_suffix (List.suffix_cons t ts) ?_ hu)
    rintro rfl
    obtain rfl : t = u := by simpa using hu
    rw [ht] at hk
    cases hk
  | @parens depth b t ts o inner r c ht hd ho hi hc' hr ihi ihr =>
    have hopen : o.rest <:+ ts := ho ▸ (b.current t).openParens_suffix t ts
    by_cases hrest : inner.rest = []
    · have hend := (b.current t).closeParens_unclosed hi hopen hu hk hrest
      rw [hrest] at hr
      cases hr
      exact ⟨_, rfl, hc' ▸ hend⟩
    · have hleft := (hi.suffix.trans hopen).trans (List.suffix_cons t ts)
      exact ihr hc (Token.getLast?_of_suffix hleft hrest hu)
  | @node depth b t ts s r hclose hcomma hparen hs hr ih =>
    have hleft : s.rest <:+ ts := hs ▸ Draft.step_suffix depth (b.current t) t ts
    by_cases hrest : s.rest = []
    · have hend := (b.current t).step_unclosed depth hcomma hu hk (hs ▸ hrest)
      rw [hrest] at hr
      cases hr
      exact ⟨_, rfl, hs ▸ hend⟩
    · exact ih hc (Token.getLast?_of_suffix (hleft.trans (List.suffix_cons t ts)) hrest hu)

/-! ### Texts -/

/-- Nothing is trimmed after an invalid node in the end. -/
theorem Draft.EndsWith.close {d : Draft} (h : d.EndsWith u) (stop : Nat) :
    ∃ span text nodes v, (d.close stop).nodes = nodes ++ [.invalid span text] ∧
      (d.close stop).after = "" ∧ text = v ++ u.text := by
  obtain ⟨span, text, nodes, v, hnodes, htext⟩ := h
  have hrow : (⟨⟨d.start, stop⟩, d.before, "", d.nodes.reverse⟩ : Selector).nodes =
      nodes.reverse ++ [.invalid span text] := by
    rw [hnodes, List.reverse_cons]
  obtain ⟨htrimmed, hafter⟩ := Selector.trim_concat hrow (by simp [Node.isFiller])
  exact ⟨span, text, _, v, htrimmed, hafter, htext⟩

theorem Builder.finish_of_draft {b : Builder} {d : Draft} (h : b.draft = some d) (stop : Nat) :
    b.finish stop = b.closed.reverse ++ [d.close stop] := by
  simp [finish, h]

/-- The last token of a text stands at its end. -/
theorem tokenize_getLast? {source : String} {offset : Nat}
    (hu : (tokenize source offset).getLast? = some u) :
    ∃ v, source = v ++ u.text ∧ u.span = .ofText (offset + v.utf8ByteSize) u.text := by
  have hjoin := join_tokenize source offset
  have hlaid := (Token.covering_tokenize source offset).laid
  obtain ⟨us, hus⟩ := List.getLast?_eq_some_iff.1 hu
  rw [hus, Token.join_append, Token.join, Token.join, String.append_empty] at hjoin
  rw [hus] at hlaid
  refine ⟨Token.join us, hjoin.symm, ?_⟩
  rw [(laid_concat.1 hlaid).2, Token.extent_eq]

/-- The last node of the last selector of a text stands at its end, if no blanks are trimmed after
it. -/
theorem parse_getLast {source : String} {offset : Nat} {list : List Selector} {s : Selector}
    {nodes : List Node} {n : Node} (hlist : parse source offset = list ++ [s])
    (hnodes : s.nodes = nodes ++ [n]) (hafter : s.after = "") :
    ∃ v, source = v ++ n.print ∧ n.span = .ofText (offset + v.utf8ByteSize) n.print := by
  obtain ⟨hprint, hlaid, hall⟩ := parse_covers source offset
  rw [hlist] at hprint hlaid hall
  have harranged : (NodeRef.selector s).Arranged := (hall s (by simp)).self
  have hspan := (laid_concat.1 hlaid).2
  rw [NodeRef.Arranged, hnodes] at harranged
  refine ⟨Selector.printEach list ++ (s.before ++ Node.printAll nodes), ?_, ?_⟩
  · rw [← hprint, Selector.printList_concat, Selector.print_eq, hnodes, hafter,
      Node.printAll_append]
    simp only [Node.printAll, String.append_empty, String.append_assoc]
  · rw [(laid_concat.1 harranged).2, Node.extent_eq, hspan, Selector.extent_eq,
      Span.start_ofText]
    simp only [String.utf8ByteSize_append, Nat.add_assoc]

/-- **A text that ends in an open string or comment reads as a list that ends with an invalid
node.**  The node has the text from its start to the end, the token included, however deep that
stands in brackets, parentheses or an expression. -/
theorem parse_unclosed (source : String) (offset : Nat) {u : Token}
    (hu : (tokenize source offset).getLast? = some u)
    (hk : u.kind = .unclosedString ∨ u.kind = .unclosedComment) :
    ∃ s span text before inside, (parse source offset).getLast? = some s ∧
      s.nodes.getLast? = some (.invalid span text) ∧
      source = before ++ text ∧ text = inside ++ u.text ∧
      span = ⟨offset + before.utf8ByteSize, offset + source.utf8ByteSize⟩ ∧
      u.span = ⟨span.start + inside.utf8ByteSize, span.stop⟩ := by
  generalize hstop : offset + source.utf8ByteSize = stop
  have hr := reads_readList stop 0 {} (tokenize source offset)
  have hopen : u.kind.isUnclosed := by rcases hk with hk | hk <;> rw [hk] <;> rfl
  obtain ⟨d, hd, hend⟩ := hr.unclosed (hr.closer_eq_none rfl) hu hopen
  obtain ⟨span, text, nodes, inside, hnodes, hafter, htext⟩ := hend.close stop
  obtain ⟨list, hlist⟩ : ∃ list, parse source offset = list ++ [d.close stop] := by
    subst hstop
    exact ⟨_, Builder.finish_of_draft hd _⟩
  obtain ⟨before, hsource, hspan⟩ : ∃ before, source = before ++ text ∧
      span = .ofText (offset + before.utf8ByteSize) text := parse_getLast hlist hnodes hafter
  obtain ⟨v, hv, huspan⟩ := tokenize_getLast? hu
  -- the node and the token both end where the source does
  have hsize := congrArg String.utf8ByteSize hsource
  have hsize' := congrArg String.utf8ByteSize hv
  have htextsize := congrArg String.utf8ByteSize htext
  rw [String.utf8ByteSize_append] at hsize hsize' htextsize
  refine ⟨d.close stop, span, text, before, inside, ?_, ?_, hsource, htext, ?_, ?_⟩
  · rw [hlist, List.getLast?_concat]
  · rw [hnodes, List.getLast?_concat]
  · rw [hspan, Span.ofText, Span.mk.injEq]
    exact ⟨rfl, by omega⟩
  · rw [huspan, hspan, Span.ofText, Span.mk.injEq, Span.start_ofText, Span.stop_ofText]
    exact ⟨by omega, by omega⟩

/-- The string takes the bracket with it, and the bracket the parenthesis. -/
theorem parse_unclosed_nested :
    let u : Token := ⟨.unclosedString, "\"d", ⟨13, 15⟩⟩
    (tokenize "a,b:is([c,\"d" 3).getLast? = some u ∧
      (u.kind = .unclosedString ∨ u.kind = .unclosedComment) ∧
      ∃ s span text before inside, (parse "a,b:is([c,\"d" 3).getLast? = some s ∧
        s.nodes.getLast? = some (.invalid span text) ∧
        "a,b:is([c,\"d" = before ++ text ∧ text = inside ++ u.text ∧
        span = ⟨3 + before.utf8ByteSize, 3 + "a,b:is([c,\"d".utf8ByteSize⟩ ∧
        u.span = ⟨span.start + inside.utf8ByteSize, span.stop⟩ := by
  intro u
  have hu : (tokenize "a,b:is([c,\"d" 3).getLast? = some u := by decide +kernel
  exact ⟨hu, .inl rfl, parse_unclosed "a,b:is([c,\"d" 3 hu (.inl rfl)⟩

end Selectors
