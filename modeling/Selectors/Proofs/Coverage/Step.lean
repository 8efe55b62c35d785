import Selectors.Proofs.Coverage.Gap
import Selectors.Proofs.Coverage.Nth

/-!
# Every step covers its tokens

Each way of reading a node takes tokens and adds their text to what the draft covers, whether the
node is understood or not (`Draft.Covers.step`).
-/

namespace Selectors

namespace Token

theorem kind_of_take? {k : TokenKind} {ts : List Token} {t : Token} (h : (take? k ts).1 = some t) :
    t.kind = k := by
  cases ts with
  | nil => cases h
  | cons u us =>
    simp only [take?] at h
    split at h
    · rename_i hk
      cases h
      simpa using hk
    · cases h

/-- Where tokens end. -/
theorem Covering.stop_eq {q : Nat} {ts : List Token} (h : Covering q ts) :
    (ts.getLast?.map (·.span.stop)).getD q = q + (join ts).utf8ByteSize := by
  have hlast := (h.laid.tiles (q := q + (join ts).utf8ByteSize)
    (by rw [extent_eq, Nat.add_zero])).last
  cases ht : ts.getLast? with
  | none => simp_all [join]
  | some t => simpa [ht] using hlast t.span (by simp [List.getLast?_map, ht])

end Token

namespace Block

theorem closed?_closer {opener closer : TokenKind} {level : Nat} {ts : List Token}
    {b : ClosedBlock} (h : closed? opener closer level ts = some b) : b.closer.kind = closer := by
  fun_induction closed? opener closer level ts generalizing b with
  | case1 => cases h
  | case2 level t ts hk ih =>
    obtain ⟨c, hc', rfl⟩ := Option.map_eq_some_iff.1 h
    exact ih (b := c) hc'
  | case3 t ts hk hc =>
    cases h
    exact hc
  | case4 t ts hk hc level ih =>
    obtain ⟨c, hc', rfl⟩ := Option.map_eq_some_iff.1 h
    exact ih (b := c) hc'
  | case5 level t ts hk hc ih =>
    obtain ⟨c, hc', rfl⟩ := Option.map_eq_some_iff.1 h
    exact ih (b := c) hc'

theorem read_closer {opener closer : TokenKind} {cut : TokenKind → Bool} {ts : List Token}
    {c : Token} (h : (read opener closer cut ts).closer = some c) : c.kind = closer := by
  unfold read at h
  split at h
  · rename_i b hb
    cases h
    exact closed?_closer hb
  · cases h

end Block

namespace Draft

variable {d : Draft} {p : Nat} {w : String} {t : Token} {ts : List Token}

/-- A node that prints to tokens and spans them is read from them. -/
theorem Covers.takes_push (h : d.Covers p w) (us : List Token) {rest : List Token} {n : Node}
    {es : List Event} (hus : us ++ rest = ts) (hp : n.print = Token.join us)
    (hs : n.span = .ofText (p + w.utf8ByteSize) (Token.join us))
    (hi : (NodeRef.node n).Every NodeRef.Arranged) : Step.Takes ⟨d.push n, rest, es⟩ p w ts :=
  ⟨us, hus, by rw [← hp] at hs ⊢; exact h.push hs hi⟩

theorem every_functional_none {P : NodeRef → Prop} {span : Span} {sigil : Sigil} {name : String} :
    (NodeRef.node (.functional span sigil name none)).Every P ↔
      P (.node (.functional span sigil name none)) :=
  NodeRef.every_of_childless rfl

theorem every_element {P : NodeRef → Prop} {span : Span} {kind : ElementKind} {name : String}
    {ns : Option Namespace} :
    (NodeRef.node (.element span kind name ns)).Every P ↔ P (.node (.element span kind name ns)) :=
  NodeRef.every_of_childless rfl

theorem every_invalid {P : NodeRef → Prop} {span : Span} {text : String} :
    (NodeRef.node (.invalid span text)).Every P ↔ P (.node (.invalid span text)) :=
  NodeRef.every_of_childless rfl

/-- The span from the start of `t` to the end of the tokens after it. -/
theorem span_cons {us : List Token} {q : Nat} (ht : t.span = .ofText q t.text)
    {stop : Nat} (hstop : stop = q + t.text.utf8ByteSize + (Token.join us).utf8ByteSize) :
    (⟨t.span.start, stop⟩ : Span) = .ofText q (Token.join (t :: us)) := by
  rw [Token.join, Span.ofText_append, ht, Span.start_ofText, hstop]

theorem Covers.stepClass (h : d.Covers p w)
    (ht : Token.Covering (p + w.utf8ByteSize) (t :: ts)) (hk : t.kind = .dot) :
    (d.stepClass t ts).Takes p w (t :: ts) := by
  have htext : t.text = "." := ht.head_text (c := '.') (by rw [hk]; rfl)
  obtain ⟨us, hus, hjoin, hlaid, hstop⟩ := name_covers (Token.covering_cons.1 ht).2
    (Token.take?_append .text (takeComments ts).2)
  simp only [Draft.stepClass]
  refine h.takes_push (t :: us) (by rw [List.cons_append, hus]) ?_ ?_ ?_
  · simp [Node.print, Sigil.opening, Sigil.closing, Selector.printArguments, Token.join, hjoin,
      htext, String.append_assoc]
  · refine span_cons ht.head_span ?_
    rw [ht.head_span, Span.stop_ofText, hstop]
  · refine every_functional_none.2 ?_
    rw [htext] at hlaid
    simp only [NodeRef.Arranged, Sigil.Arranged, ht.head_span, Span.start_ofText]
    exact hlaid

theorem Covers.stepId (h : d.Covers p w) (ht : Token.Covering (p + w.utf8ByteSize) (t :: ts))
    (hk : t.kind = .hash) : (d.stepId t ts).Takes p w (t :: ts) := by
  have htext : t.text = "#" := ht.head_text (c := '#') (by rw [hk]; rfl)
  have hts := Token.take?_append .text ts
  have hjoin : Token.join (Token.take? .text ts).1.toList = nameText (Token.take? .text ts).1 := by
    cases (Token.take? .text ts).1 <;> simp [nameText, Token.join]
  have hname : Token.Covering
      (p + w.utf8ByteSize + t.text.utf8ByteSize + (Comment.printAll []).utf8ByteSize)
      ((Token.take? .text ts).1.toList ++ (Token.take? .text ts).2) := by
    rw [hts]
    exact (Token.covering_cons.1 ht).2
  have hnone : Laid 0 Comment.span Comment.print (p + w.utf8ByteSize + t.text.utf8ByteSize) [] :=
    trivial
  have hstop := nameStop_eq hnone hname
  simp only [Draft.stepId]
  refine h.takes_push (t :: (Token.take? .text ts).1.toList) ?_ ?_ ?_ ?_
  · rw [List.cons_append, hts]
  · simp [Node.print, Sigil.opening, Sigil.closing, Selector.printArguments, Token.join, hjoin,
      htext]
  · refine span_cons ht.head_span ?_
    rw [ht.head_span, Span.stop_ofText, hstop, hjoin, Comment.printAll, String.empty_append]
  · exact every_functional_none.2 trivial

theorem Covers.stepPseudo (h : d.Covers p w)
    (ht : Token.Covering (p + w.utf8ByteSize) (t :: ts)) (hk : t.kind = .colon) :
    (d.stepPseudo t ts).Takes p w (t :: ts) := by
  have htext : t.text = ":" := ht.head_text (c := ':') (by rw [hk]; rfl)
  have hcolon := Token.take?_append .colon (takeComments ts).2
  obtain ⟨us, hus, hjoin, hlaid⟩ := takeComments_covers (Token.covering_cons.1 ht).2
  simp only [Draft.stepPseudo]
  split
  · rename_i colon ts' htake
    rw [htake] at hcolon
    -- the tokens are the first colon, comments, and the second colon before the rest
    have hts : (t :: us) ++ colon :: ts' = t :: ts := by
      rw [List.cons_append, ← hus, ← hcolon]
      rfl
    rw [← hts] at ht
    have hrest := (Token.covering_append.1 ht).2
    have hspan := hrest.head_span
    have hctext : colon.text = ":" := by
      have hck := Token.kind_of_take? (congrArg Prod.fst htake)
      exact hrest.head_text (c := ':') (by rw [hck]; rfl)
    have hfirst : Token.join (t :: us) ++ colon.text =
        ":" ++ Comment.printAll (takeComments ts).1 ++ ":" := by
      rw [Token.join, hjoin, htext, hctext]
    obtain ⟨vs, hvs, hjoin', hlaid', hstop'⟩ := name_covers (Token.covering_cons.1 hrest).2
      (Token.take?_append .text (takeComments ts').2)
    have hall : Token.join (t :: (us ++ colon :: vs)) =
        Token.join (t :: us) ++ colon.text ++ Token.join vs := by
      simp only [Token.join, Token.join_append, String.append_assoc]
    refine h.takes_push (t :: (us ++ colon :: vs)) ?_ ?_ ?_ ?_
    · simpa only [List.cons_append, List.append_assoc, hvs] using hts
    · rw [hall, hfirst, hjoin']
      simp [Node.print, Sigil.opening, Sigil.closing, Selector.printArguments,
        String.append_assoc]
    · rw [hall, ht.head_span, hspan, Span.stop_ofText, hstop']
      simp only [Node.span, Span.ofText, String.utf8ByteSize_append, Span.mk.injEq, true_and]
      omega
    · refine every_functional_none.2 ⟨?_, ?_⟩
      · rw [htext] at hlaid
        rw [ht.head_span]
        exact hlaid
      · rw [ht.head_span, ← hfirst, String.utf8ByteSize_append, ← Nat.add_assoc]
        exact hlaid'
  · rename_i ts' htake
    rw [htake] at hcolon
    have hname : (Token.take? .text ts').1.toList ++ (Token.take? .text ts').2 =
        (takeComments ts).2 := by
      rw [Token.take?_append]
      exact hcolon
    obtain ⟨us, hus, hjoin, hlaid, hstop⟩ := name_covers (Token.covering_cons.1 ht).2 hname
    refine h.takes_push (t :: us) (by rw [List.cons_append, hus]) ?_ ?_ ?_
    · simp [Node.print, Sigil.opening, Sigil.closing, Selector.printArguments, Token.join, hjoin,
        htext, String.append_assoc]
    · refine span_cons ht.head_span ?_
      rw [ht.head_span, Span.stop_ofText, hstop]
    · refine every_functional_none.2 ?_
      rw [htext] at hlaid
      simp only [NodeRef.Arranged, Sigil.Arranged, ht.head_span, Span.start_ofText]
      exact hlaid

/-! ### Namespaces -/

theorem splitTightComments_append (ns : List Node) :
    ((splitTightComments ns).1.map Node.comment).reverse ++ (splitTightComments ns).2 = ns := by
  fun_induction splitTightComments ns with
  | case1 c ns hc => rfl
  | case2 c ns hc r ih =>
    rw [List.map_append, List.reverse_append]
    exact congrArg (Node.comment c :: ·) ih
  | case3 ns => rfl

/-- What a bar takes stands at the end of the nodes. -/
theorem nodes_of_qualifier? {nodes : List Node} {q : Qualifier} (h : qualifier? nodes = some q) :
    ∃ span kind, q.start = span.start ∧
      nodes = ((q.comments.map Node.comment).reverse ++ [.element span kind q.value none]) ++
        q.nodes := by
  unfold qualifier? at h
  split at h
  · rename_i comments span kind name ns hsplit
    cases h
    refine ⟨span, kind, rfl, ?_⟩
    have := splitTightComments_append nodes
    rw [hsplit] at this
    rw [← this, List.append_assoc]
    rfl
  · cases h

/-- What a bar takes, or an empty qualifier in its place, was the end of what the draft covers. -/
theorem Covers.qualifier {q : Qualifier} (h : d.Covers p w)
    (hq : q = (qualifier? d.nodes).getD ⟨"", p + w.utf8ByteSize, [], d.nodes⟩) :
    ∃ v, ({ d with nodes := q.nodes } : Draft).Covers p v ∧
      w = v ++ (q.value ++ Comment.printAll q.comments) ∧ q.start = p + v.utf8ByteSize ∧
      Laid 0 Comment.span Comment.print (p + v.utf8ByteSize + q.value.utf8ByteSize) q.comments := by
  cases hq' : qualifier? d.nodes with
  | none =>
    rw [hq', Option.getD_none] at hq
    subst hq
    exact ⟨w, h, by simp [Comment.printAll], rfl, trivial⟩
  | some q' =>
    rw [hq', Option.getD_some] at hq
    subst hq
    obtain ⟨span, kind, hstart, hnodes⟩ := nodes_of_qualifier? hq'
    obtain ⟨v, hw, hc, hl⟩ := h.pop hnodes
    rw [List.reverse_append, List.reverse_reverse] at hw hl
    obtain ⟨hspan, hl⟩ := hl
    have hprint : Node.printAll (q.comments.map Node.comment) = Comment.printAll q.comments := by
      induction q.comments with
      | nil => rfl
      | cons c cs ih => simp [Node.printAll, Comment.printAll, Node.print, ih]
    refine ⟨v, hc, ?_, ?_, (laid_map Node.comment q.comments).1 hl⟩
    · rw [hw, List.reverse_singleton, List.singleton_append, Node.printAll, hprint]
      rfl
    · rw [hstart]
      exact congrArg Span.start hspan

theorem Covers.stepBar (h : d.Covers p w)
    (ht : Token.Covering (p + w.utf8ByteSize) (t :: ts)) (hk : t.kind = .pipe) :
    (d.stepBar t ts).Takes p w (t :: ts) := by
  have htext : t.text = "|" := ht.head_text (c := '|') (by rw [hk]; rfl)
  have hspan := ht.head_span
  obtain ⟨us, hus, hjoin, hlaid, hstop⟩ :=
    name_covers (Token.covering_cons.1 ht).2 (takeTarget_append (takeComments ts).2)
  obtain ⟨v, hv, hw, hstart, hbefore⟩ := h.qualifier rfl
  simp only [Draft.stepBar, hspan, Span.start_ofText, Span.stop_ofText, hstop]
  generalize (qualifier? d.nodes).getD ⟨"", p + w.utf8ByteSize, [], d.nodes⟩ = q at *
  refine ⟨t :: us, by rw [List.cons_append, hus], ?_⟩
  have hall : w ++ Token.join (t :: us) = v ++ (q.value ++ Comment.printAll q.comments ++ "|" ++
      Comment.printAll (takeComments ts).1 ++ nameText (takeTarget (takeComments ts).2).1) := by
    rw [hw, Token.join, hjoin, htext]
    simp only [String.append_assoc]
  rw [hall]
  refine Covers.push hv (n := .element _ _ _ _) ?_ (every_element.2 ⟨?_, ?_⟩)
  · have hsize := congrArg String.utf8ByteSize hall
    simp only [Token.join, String.utf8ByteSize_append] at hsize
    simp only [Node.span, Node.print, Namespace.print, Span.ofText, hstart, Span.mk.injEq,
      String.utf8ByteSize_append, true_and]
    omega
  · rw [hstart]
    exact hbefore
  · have hpos : p + w.utf8ByteSize + t.text.utf8ByteSize =
        q.start + (q.value ++ Comment.printAll q.comments ++ "|").utf8ByteSize := by
      have hsize := congrArg String.utf8ByteSize hw
      simp only [String.utf8ByteSize_append] at hsize
      rw [hstart, htext, String.utf8ByteSize_append, String.utf8ByteSize_append]
      omega
    rw [hpos] at hlaid
    exact hlaid

/-! ### Other nodes -/

theorem Covers.stepAttribute (h : d.Covers p w)
    (ht : Token.Covering (p + w.utf8ByteSize) (t :: ts)) (hk : t.kind = .openBracket) :
    (d.stepAttribute t ts).Takes p w (t :: ts) := by
  have htext : t.text = "[" := ht.head_text (c := '[') (by rw [hk]; rfl)
  have hspan := ht.head_span
  have happ := Block.read_append .openBracket .closeBracket
    (fun k => k == .closeParen || k == .comma) ts
  have hts := (Token.covering_cons.1 ht).2
  rw [← happ, Block.taken] at hts
  simp only [Draft.stepAttribute]
  split
  -- the bracket closes, or the block is cut and its text kept
  · rename_i c hc
    rw [hc, Option.toList_some] at hts
    obtain ⟨-, hc'⟩ := Token.covering_append.1 (Token.covering_append.1 hts).1
    have hctext : c.text = "]" := by
      have hck := Block.read_closer hc
      exact hc'.head_text (c := ']') (by rw [hck]; rfl)
    refine h.takes_push (t :: (Block.read .openBracket .closeBracket
      (fun k => k == .closeParen || k == .comma) ts).taken) ?_ ?_ ?_ ?_
    · rw [List.cons_append, happ]
    · simp [Node.print, Sigil.opening, Sigil.closing, Selector.printArguments, Token.join, htext,
        Block.taken, hc, hctext, String.append_assoc]
    · refine span_cons hspan ?_
      rw [hc'.head_span, Span.stop_ofText, Block.taken, hc, Option.toList_some, Token.join_append,
        String.utf8ByteSize_append, Nat.add_assoc, Token.join, Token.join, String.append_empty]
    · exact every_functional_none.2 trivial
  · rename_i hc
    rw [hc, Option.toList_none, List.append_nil] at hts
    have hstop := (Token.covering_append.1 hts).1.stop_eq
    refine h.takes_push (t :: (Block.read .openBracket .closeBracket
      (fun k => k == .closeParen || k == .comma) ts).taken) ?_ ?_ ?_ ?_
    · rw [List.cons_append, happ]
    · simp [Node.print, Token.join, Block.taken, hc]
    · refine span_cons hspan ?_
      rw [hspan, Span.stop_ofText, hstop, Block.taken, hc, Option.toList_none, List.append_nil]
    · exact every_invalid.2 trivial

theorem Covers.stepTooDeep (depth : Nat) (h : d.Covers p w)
    (ht : Token.Covering (p + w.utf8ByteSize) (t :: ts)) :
    (d.stepTooDeep depth t ts).Takes p w (t :: ts) := by
  have happ := Block.read_append .openParen .closeParen (fun _ => false) ts
  have hts := (Token.covering_cons.1 ht).2
  rw [← happ] at hts
  have hstop := (Token.covering_append.1 hts).1.stop_eq
  simp only [Draft.stepTooDeep]
  refine h.takes_push (t :: (Block.read .openParen .closeParen (fun _ => false) ts).taken)
    ?_ ?_ ?_ ?_
  · rw [List.cons_append, happ]
  · rfl
  · refine span_cons ht.head_span ?_
    rw [ht.head_span, Span.stop_ofText, hstop]
  · exact every_invalid.2 trivial

theorem Covers.stepGap (h : d.Covers p w)
    (ht : Token.Covering (p + w.utf8ByteSize) (t :: ts)) :
    (d.stepGap t ts).Takes p w (t :: ts) := by
  obtain ⟨us, hus, hg⟩ := Gap.covers_read d.nodes.isEmpty ht
  refine ⟨us, hus, h.start, ?_, ?_⟩
  · simp only [Draft.stepGap]
    cases hd : d.nodes with
    | nil =>
      obtain rfl : d.before = w := by simpa [hd, Node.printAll] using h.cover.print
      rw [hd] at hg
      simpa using hg.after
    | cons n ns =>
      -- something stands before the gap, so that its blanks stay in its nodes
      rw [hd] at hg
      have hbefore : (Gap.read (n :: ns).isEmpty t ts).before = "" := Gap.before_foldl rfl
      rw [hbefore, String.append_empty, ← hg.print, hbefore, String.empty_append]
      have hlaid := hg.laid
      rw [hbefore] at hlaid
      exact Cover.append_iff.2 ⟨w, rfl, hd ▸ h.cover, hlaid⟩
  · simp only [Draft.stepGap, List.mem_append]
    rintro n (hn | hn)
    · have hf := Gap.isFiller_of_mem_read hn
      refine (NodeRef.every_of_isFiller hf).2 ?_
      cases n <;> trivial
    · exact h.inner n hn

/-- A token that is a node by itself. -/
theorem Covers.takes_token (h : d.Covers p w) {n : Node} {es : List Event}
    (ht : Token.Covering (p + w.utf8ByteSize) (t :: ts)) (hp : n.print = t.text)
    (hs : n.span = t.span) (hi : (NodeRef.node n).Every NodeRef.Arranged) :
    Step.Takes ⟨d.push n, ts, es⟩ p w (t :: ts) := by
  refine h.takes_push [t] rfl ?_ ?_ hi
  · simp [hp, Token.join]
  · rw [hs, ht.head_span, Token.join, Token.join, String.append_empty]

/-- **Reading a node covers the tokens that it takes.** -/
theorem Covers.step (depth : Nat) (h : d.Covers p w)
    (ht : Token.Covering (p + w.utf8ByteSize) (t :: ts)) :
    (d.step depth t ts).Takes p w (t :: ts) := by
  unfold Draft.step
  split
  · rename_i hk
    exact h.stepClass ht hk
  · rename_i hk
    exact h.stepId ht hk
  · rename_i hk
    exact h.stepPseudo ht hk
  · rename_i hk
    exact h.stepBar ht hk
  · rename_i hk
    exact h.stepAttribute ht hk
  · exact h.stepTooDeep depth ht
  · exact h.stepGap ht
  · exact h.stepGap ht
  · exact h.stepGap ht
  · exact h.stepGap ht
  · exact h.takes_token ht rfl rfl (every_element.2 trivial)
  · exact h.takes_token ht rfl rfl (every_element.2 trivial)
  · refine h.takes_token ht ?_ rfl (every_functional_none.2 trivial)
    simp [Node.print, Sigil.opening, Sigil.closing, Selector.printArguments]
  · exact h.takes_token ht (Gap.print_comment_ofToken t) rfl
      ((NodeRef.every_of_isFiller rfl).2 trivial)
  · exact h.takes_token ht rfl rfl (every_invalid.2 trivial)

end Draft

end Selectors
