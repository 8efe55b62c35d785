import Selectors.Proofs.Shape.WellFormed

/-!
# Parsed trees are well-formed

* `Selectors.parse_wellFormed`: every item of a parsed tree is well-formed, expressions have their
  place, and lists are nested `maxDepth` times at most; a parenthesis at that depth gives one
  invalid node.
-/

namespace Selectors

/-- What holds of a selector being read at a nesting depth, in which an expression is allowed or
not. -/
structure Draft.WellFormed (depth : Nat) (allowed : Prop) (d : Draft) : Prop where
  before : IsBlanks d.before
  nodes : ∀ n ∈ d.nodes,
    (NodeRef.node n).Every NodeRef.WellFormed ∧ n.nesting ≤ maxDepth - depth
  expression : Node.ExpressionFirst allowed d.nodes.reverse

/-- What holds of a selector of a list at a nesting depth. -/
structure Selector.WellFormed (depth : Nat) (allowed : Prop) (s : Selector) : Prop where
  every : (NodeRef.selector s).Every NodeRef.WellFormed
  nesting : s.nesting ≤ maxDepth - depth
  expression : Node.ExpressionFirst allowed s.nodes

namespace Draft.WellFormed

variable {d : Draft} {t : Token} {ts : List Token} {depth stop : Nat} {allowed : Prop}

theorem fresh (p : Nat) : WellFormed depth allowed { start := p } :=
  ⟨isBlanks_empty, by simp, .of_forall (by simp)⟩

/-- Nodes without lists and expressions come in the place of nodes in the end. -/
theorem replace (dropped new : List Node) {old : List Node} {before : String}
    (h : d.WellFormed depth allowed) (hd : d.nodes = dropped ++ old) (hbefore : IsBlanks before)
    (hnew : ∀ n ∈ new, (NodeRef.node n).Every NodeRef.WellFormed ∧
      n.nesting ≤ maxDepth - depth ∧ n.kind ≠ .nth) :
    WellFormed depth allowed { d with before := before, nodes := new ++ old } := by
  have hnodes := h.nodes
  have hexpression := h.expression
  rw [hd] at hnodes hexpression
  rw [List.reverse_append] at hexpression
  refine ⟨hbefore, fun n hn => ?_, ?_⟩
  · rcases List.mem_append.1 hn with hn | hn
    · exact ⟨(hnew n hn).1, (hnew n hn).2.1⟩
    · exact hnodes n (List.mem_append_right dropped hn)
  · rw [List.reverse_append]
    exact hexpression.left.append fun n hn => (hnew n (List.mem_reverse.1 hn)).2.2

theorem push {n : Node} (h : d.WellFormed depth allowed)
    (hn : (NodeRef.node n).Every NodeRef.WellFormed) (hnesting : n.nesting = 0)
    (hk : n.kind ≠ .nth) : (d.push n).WellFormed depth allowed :=
  h.replace [] [n] rfl h.before <| by
    simpa [hnesting] using ⟨hn, hk⟩

theorem stepGap (h : d.WellFormed depth allowed) (hk : t.kind.isCombinator)
    (hts : ∀ u ∈ t :: ts, u.Legible) : (d.stepGap t ts).draft.WellFormed depth allowed := by
  have hgap := Gap.wellFormed_read d.nodes.isEmpty hk hts
  refine h.replace [] _ rfl (h.before.append hgap.before) fun n hn => ?_
  have hfiller : n.isFiller := Gap.isFiller_of_mem_read hn
  refine ⟨(NodeRef.every_of_isFiller hfiller).2 (hgap.nodes n hn), ?_,
    Node.kind_ne_nth_of_isFiller hfiller⟩
  rw [Node.nesting_of_isFiller hfiller]
  exact Nat.zero_le _

theorem close (h : d.WellFormed depth allowed) (stop : Nat) :
    (d.close stop).WellFormed depth allowed := by
  obtain ⟨hbefore, hnodes, hexpression⟩ := h
  obtain ⟨htrimmed, bs, cs, hb, ha, hblanks⟩ := Selector.forall_trim
    (Q := fun n => (NodeRef.node n).Every NodeRef.WellFormed ∧ n.nesting ≤ maxDepth - depth)
    (s := ⟨⟨d.start, stop⟩, d.before, "", d.nodes.reverse⟩)
    (fun n hn => hnodes n (List.mem_reverse.1 hn))
    (fun c b hb hc hs =>
      ⟨(NodeRef.every_of_isFiller rfl).2 (Edge.wellFormed_joinAfter hb hc.1.self hs.1.self), hc.2⟩)
    (fun c b hb hc hs =>
      ⟨(NodeRef.every_of_isFiller rfl).2 (Edge.wellFormed_joinBefore hb hc.1.self hs.1.self), hc.2⟩)
  have htexts : ∀ b ∈ bs ++ cs,
      b.kind = .descendant ∧ (NodeRef.node (.combinator b)).WellFormed :=
    fun b hb => ⟨(hblanks b hb).1, (hblanks b hb).2.1.self⟩
  obtain ⟨hbs, hcs⟩ := List.forall_mem_append.1 htexts
  refine ⟨NodeRef.every_selector.2 ⟨⟨?_, ?_⟩, fun n hn => (htrimmed n hn).1⟩,
    Selector.nesting_le_iff.2 fun n hn => (htrimmed n hn).2, hexpression.trim⟩
  · exact hb ▸ hbefore.append (Edge.isBlanks_text hbs)
  · exact ha ▸ (Edge.isBlanks_text hcs).append isBlanks_empty

/-- A functional node takes a list. -/
theorem owned {span : Span} {sigil : Sigil} {name : String} {nodes : List Node}
    {list : List Selector} (h : d.WellFormed depth allowed)
    (hd : d.nodes = .functional span sigil name none :: nodes) (hdepth : depth < maxDepth)
    (hlist : ∀ i (s : Selector), list[i]? = some s →
      s.WellFormed (depth + 1) (d.takesNth ts ∧ i = 0)) (stop : Nat) :
    WellFormed depth allowed
      { d with nodes := .functional ⟨span.start, stop⟩ sigil name (some list) :: nodes } := by
  have hmem : ∀ s ∈ list, ∃ allowed, s.WellFormed (depth + 1) allowed := by
    intro s hs
    obtain ⟨i, hi⟩ := List.mem_iff_getElem?.1 hs
    exact ⟨_, hlist i s hi⟩
  have htakes : d.takesNth ts → sigil.IsNth name := by
    unfold takesNth
    rw [hd]
    cases sigil with
    | colon cs =>
      intro htakes
      exact (Bool.and_eq_true_iff.1 htakes).1
    | _ => exact fun htakes => by cases htakes
  have hnode := (h.nodes (.functional span sigil name none) (by simp [hd])).1.self
  refine h.replace [.functional span sigil name none]
    [.functional ⟨span.start, stop⟩ sigil name (some list)] hd h.before ?_
  refine List.forall_mem_singleton.2 ⟨NodeRef.every_functional.2 ⟨⟨hnode.1, ?_⟩, ?_⟩, ?_, ?_⟩
  · rintro _ ⟨⟩ i s j n hi hj
    obtain ⟨⟨hallowed, hzero⟩, hfirst⟩ := (hlist i s hi).expression j n hj
    exact ⟨htakes hallowed, hzero, hfirst⟩
  · intro s hs
    obtain ⟨_, hwf⟩ := hmem s hs
    exact hwf.every
  · have hall : Selector.nestingAll list ≤ maxDepth - (depth + 1) :=
      Selector.nestingAll_le_iff.2 fun s hs => (hmem s hs).elim fun _ hwf => hwf.nesting
    rw [Node.nesting, Selector.nestingArguments]
    omega
  · cases sigil <;> simp [Node.kind, Sigil.kind]

end Draft.WellFormed

/-- Every way of reading keeps selectors well-formed.  An expression is allowed in the first
selector of a list that started with one. -/
theorem Reads.invariant_wellFormed :
    Reads.Invariant (fun d ts => (d.takesNth ts : Prop))
      (fun allowed depth _ first => Draft.WellFormed depth (allowed ∧ first))
      (fun allowed depth first => Selector.WellFormed depth (allowed ∧ first)) where
  fresh _ p := .fresh p
  plain h hn _ := h.push hn.wellFormed hn.nesting hn.kind_ne_nth
  comment h _ :=
    h.push ((NodeRef.every_of_isFiller rfl).2 (Comment.wellFormed_ofToken _)) rfl
      (by simp [Node.kind])
  bar h hd _ hns span kind name _ := by
    refine h.replace _ [.element span kind name (some _)] hd h.before ?_
    refine List.forall_mem_singleton.2 ⟨(NodeRef.every_of_childless rfl).2 hns, Nat.zero_le _, ?_⟩
    cases kind <;> simp [Node.kind, ElementKind.kind]
  gap h hk hts := h.stepGap hk hts
  expression p hd hts := by
    refine ⟨isBlanks_empty, List.forall_mem_singleton.2 ⟨?_, Nat.zero_le _⟩, ?_⟩
    · exact ((NthDraft.wellFormed_start p).read hts).finish
    · intro j n hj
      obtain ⟨hlt, -⟩ := List.getElem?_eq_some_iff.1 hj
      exact ⟨⟨hd, trivial⟩, Nat.lt_one_iff.1 hlt⟩
  owned h hd hdepth hlist stop _ := h.owned hd hdepth hlist stop
  close h stop := h.close stop

/-- A block that is never cut ends with its closing token or with the tokens. -/
theorem Block.ends_read (opener closer : TokenKind) (ts : List Token) :
    (read opener closer (fun _ => false) ts).rest = [] ∨
      ∃ inside c, (read opener closer (fun _ => false) ts).taken = inside ++ [c] ∧
        c.kind = closer := by
  unfold read
  split
  · rename_i b hb
    exact .inr ⟨b.inside, b.closer, rfl, closed?_closer hb⟩
  · left
    simp [cutsAt]

/-- At the greatest depth, a parenthesis is skipped with the tokens up to the one that closes it, or
all of them if none does. -/
theorem readList_tooDeep {t : Token} (ht : t.kind = .openParen) (stop : Nat) (b : Builder)
    (ts : List Token) :
    ∃ block rest span, block ++ rest = ts ∧ span.start = t.span.start ∧
      (rest = [] ∨ ∃ inside c, block = inside ++ [c] ∧ c.kind = .closeParen) ∧
      (readList stop maxDepth b (t :: ts)).val =
        (readList stop maxDepth
          (b.set ((b.current t).push (.invalid span (Token.join (t :: block)))))
          rest).val.after [.tooDeep maxDepth span] := by
  have hstep : (b.current t).step maxDepth t ts = (b.current t).stepTooDeep maxDepth t ts := by
    simp only [Draft.step, ht]
  have hreads : Reads stop maxDepth b (t :: ts) _ :=
    .node (by simp [ht]) (by simp [ht]) (by simp) hstep.symm (reads_readList _ _ _ _)
  refine ⟨_, _, _, Block.read_append .openParen .closeParen (fun _ => false) ts, ?_,
    Block.ends_read .openParen .closeParen ts, hreads.eq_readList.symm⟩
  rfl

/-- **Every item of a parsed tree is well-formed.**  Its lists are nested `maxDepth` times at most;
a parenthesis at that depth gives one invalid node, whatever list and tokens it comes with. -/
theorem parse_wellFormed (source : String) (offset : Nat) :
    (∀ s ∈ parse source offset, (NodeRef.selector s).Every NodeRef.WellFormed) ∧
      Selector.ExpressionFirst False (parse source offset) ∧
      Selector.nestingAll (parse source offset) ≤ maxDepth ∧
      ∀ stop b t ts, t.kind = .openParen →
        ∃ block rest span, block ++ rest = ts ∧ span.start = t.span.start ∧
          (rest = [] ∨ ∃ inside c, block = inside ++ [c] ∧ c.kind = .closeParen) ∧
          (readList stop maxDepth b (t :: ts)).val =
            (readList stop maxDepth
              (b.set ((b.current t).push (.invalid span (Token.join (t :: block)))))
              rest).val.after [.tooDeep maxDepth span] := by
  have hparse := Reads.invariant_wellFormed.parse False source offset
  have hmem : ∀ s ∈ parse source offset, ∃ allowed, s.WellFormed 0 allowed := by
    intro s hs
    obtain ⟨i, hi⟩ := List.mem_iff_getElem?.1 hs
    exact ⟨_, hparse i s hi⟩
  refine ⟨fun s hs => ?_, fun i s j n hi hj => ?_, Selector.nestingAll_le_iff.2 fun s hs => ?_,
    fun stop b t ts ht => readList_tooDeep ht stop b ts⟩
  · obtain ⟨_, hwf⟩ := hmem s hs
    exact hwf.every
  · exact ((hparse i s hi).expression j n hj).1.1.elim
  · obtain ⟨_, hwf⟩ := hmem s hs
    exact hwf.nesting

end Selectors
