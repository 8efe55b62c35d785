import Selectors.Proofs.Coverage.Step
import Selectors.Proofs.Shift.Tree

/-!
# Reading a node from tokens moved to the right

Reading compares no positions, it only hands them on.  So each way of reading a node gives the same
node, moved, when the tokens and the draft are moved (`Draft.step_shift`).
-/

namespace Selectors

variable {k : Nat}

/-! ### Gaps -/

namespace Gap

/-- The gap moved `k` bytes to the right. -/
def shift (k : Nat) (g : Gap) : Gap :=
  { g with
    settled := g.settled.map (Node.shift k)
    current := g.current.shift k
    comments := g.comments.map (Comment.shift k)
    events := g.events.map (Event.shift k) }

theorem giveToFirst_shift (s : Combinator) (cs : List Comment) :
    giveToFirst (s.shift k) (cs.map (Comment.shift k)) =
      (giveToFirst s cs).map (Comment.shift k) := by
  fun_induction giveToFirst s cs with
  | case1 => rfl
  | case2 c => rfl
  | case3 c cs hcs ih =>
    obtain ⟨d, ds, rfl⟩ := List.exists_cons_of_ne_nil hcs
    simpa [giveToFirst] using ih

theorem map_comment_shift (cs : List Comment) :
    (cs.map (Comment.shift k)).map Node.comment = (cs.map Node.comment).map (Node.shift k) := by
  simp [Node.shift]

theorem nodes_shift (g : Gap) : (g.shift k).nodes = g.nodes.map (Node.shift k) := by
  rw [nodes, nodes, List.map_append, ← map_comment_shift]
  rfl

theorem pushBlanks_shift (g : Gap) (t : Token) :
    (g.shift k).pushBlanks (t.shift k) = (g.pushBlanks t).shift k := by
  obtain ⟨before, settled, current, comments, events⟩ := g
  cases comments <;> rfl

theorem pushCombinator_shift (atFront : Bool) (g : Gap) (t : Token) :
    (g.shift k).pushCombinator atFront (t.shift k) = (g.pushCombinator atFront t).shift k := by
  have hnodes := g.nodes_shift (k := k)
  obtain ⟨before, settled, current, comments, events⟩ := g
  by_cases hkind : current.kind = .descendant
  · have hshifted : (current.shift k).kind = .descendant := hkind
    by_cases hcomments : comments = []
    · simp only [pushCombinator, shift, hkind, hshifted, hcomments, List.map_nil, if_true]
      rfl
    · by_cases hfront : (atFront && settled.isEmpty) = true
      · simp [pushCombinator, shift, hkind, hshifted, hcomments, hfront]
        exact ⟨fun c _ => rfl, rfl⟩
      · simp [pushCombinator, shift, hkind, hshifted, hcomments, hfront]
        exact ⟨by rw [giveToFirst_shift, List.map_map]; rfl, rfl⟩
  · have hshifted : (current.shift k).kind ≠ .descendant := hkind
    simp [pushCombinator, shift, hkind, hshifted]
    exact ⟨hnodes, rfl, rfl⟩

theorem push_shift (atFront : Bool) (g : Gap) (t : Token) :
    (g.shift k).push atFront (t.shift k) = (g.push atFront t).shift k := by
  rw [push, push, Token.kind_shift]
  split
  · exact pushBlanks_shift g t
  · rfl
  · exact pushCombinator_shift atFront g t

theorem read_shift (atFront : Bool) (t : Token) (ts : List Token) :
    read atFront (t.shift k) (ts.map (Token.shift k)) = (read atFront t ts).shift k := by
  have hfoldl : ∀ (us : List Token) (g : Gap),
      (us.map (Token.shift k)).foldl (push atFront) (g.shift k) =
        (us.foldl (push atFront) g).shift k := by
    intro us
    induction us with
    | nil => exact fun g => rfl
    | cons u us ih =>
      intro g
      rw [List.map_cons, List.foldl_cons, push_shift, ih, List.foldl_cons]
  rw [read, Token.takeWhile_map_shift k TokenKind.isGap]
  exact hfoldl _ (start t)

theorem rest_shift (ts : List Token) :
    rest (ts.map (Token.shift k)) = (rest ts).map (Token.shift k) :=
  Token.dropWhile_map_shift k TokenKind.isGap ts

end Gap

/-! ### Edges -/

namespace Edge

variable {join : Comment → Combinator → Comment}

theorem absorb_shift (hjoin : ∀ c s, join (c.shift k) (s.shift k) = (join c s).shift k)
    (c : Comment) (ns : List Node) :
    absorb join (c.shift k) (ns.map (Node.shift k)) = (absorb join c ns).map (Node.shift k) := by
  fun_induction absorb join c ns with
  | case1 c s ns hs ih => 
    have hshifted : (s.shift k).kind = .descendant := hs
    simp [Node.shift, absorb, hshifted, hjoin, ih]
  | case2 c s ns hs =>
    have hshifted : (s.shift k).kind ≠ .descendant := hs
    simp [Node.shift, absorb, hshifted]
  | case3 c d ns ih => simp [Node.shift, absorb, ih]
  | case4 c ns hcombinator hcomment =>
    cases ns with
    | nil => rfl
    | cons n ns => cases n with
      | combinator s => exact absurd rfl (hcombinator s ns)
      | comment d => exact absurd rfl (hcomment d ns)
      | _ => simp [Node.shift, absorb]

theorem trim_shift (hjoin : ∀ c s, join (c.shift k) (s.shift k) = (join c s).shift k)
    (ns : List Node) :
    trim join (ns.map (Node.shift k)) =
      ((trim join ns).1.map (Combinator.shift k), (trim join ns).2.map (Node.shift k)) := by
  fun_induction trim join ns with
  | case1 s ns hs r ih =>
    have hshifted : (s.shift k).kind = .descendant := hs
    simp [Node.shift, trim, hshifted, ih, r]
  | case2 s ns hs =>
    have hshifted : (s.shift k).kind ≠ .descendant := hs
    simp [Node.shift, trim, hshifted]
  | case3 c ns => simp [Node.shift, trim, absorb_shift hjoin]
  | case4 ns hcombinator hcomment =>
    cases ns with
    | nil => rfl
    | cons n ns => cases n with
      | combinator s => exact absurd rfl (hcombinator s ns)
      | comment d => exact absurd rfl (hcomment d ns)
      | _ => simp [Node.shift, trim]

theorem text_map_shift (cs : List Combinator) : text (cs.map (Combinator.shift k)) = text cs := by
  induction cs with
  | nil => rfl
  | cons c cs ih => rw [List.map_cons, text, text, ih, Combinator.print_shift]

end Edge

theorem Selector.trim_shift (s : Selector) : (s.shift k).trim = s.trim.shift k := by
  have hafter : ∀ c s, Edge.joinAfter (c.shift k) (s.shift k) = (Edge.joinAfter c s).shift k :=
    fun _ _ => rfl
  have hbefore : ∀ c s, Edge.joinBefore (c.shift k) (s.shift k) = (Edge.joinBefore c s).shift k :=
    fun _ _ => rfl
  rw [shift_eq, shift_eq, trim, trim]
  simp only [Edge.trim_shift hafter, ← List.map_reverse, Edge.trim_shift hbefore,
    Edge.text_map_shift]

/-! ### Expressions -/

namespace NthDraft

/-- The expression being read, moved `k` bytes to the right. -/
def shift (k : Nat) (d : NthDraft) : NthDraft :=
  { d with span := d.span.shift k, items := d.items.map (NthNode.shift k) }

theorem finish_shift (d : NthDraft) : (d.shift k).finish = d.finish.shift k := by
  simp [finish, shift, Nth.shift]

theorem push_shift (d : NthDraft) (n : NthNode) :
    (d.shift k).push (n.shift k) = (d.push n).shift k := by
  cases n <;> rfl

theorem pushBlanks_shift (d : NthDraft) (t : Token) :
    (d.shift k).pushBlanks (t.shift k) = (d.pushBlanks t).shift k := by
  obtain ⟨span, before, items, phase, afterDash⟩ := d
  cases items with
  | nil => rfl
  | cons n ns => cases n <;> rfl

theorem acceptOffset_shift (d : NthDraft) (text : String) (span : Span) :
    (d.shift k).acceptOffset text (span.shift k) = (d.acceptOffset text span).shift k := by
  rw [acceptOffset, acceptOffset]
  split <;> rfl

theorem acceptStep?_shift (d : NthDraft) (text : String) (span : Span) :
    (d.shift k).acceptStep? text (span.shift k) = (d.acceptStep? text span).map (shift k) := by
  rw [acceptStep?, acceptStep?]
  split
  · rfl
  · rename_i step rest _
    have hmid : (span.shift k).start + (String.ofList step).utf8ByteSize =
        span.start + (String.ofList step).utf8ByteSize + k := Nat.add_right_comm ..
    simp only [hmid, apply_ite (Option.map (shift k)), Option.map_some, Option.map_none]
    rfl

theorem acceptFirst_shift (d : NthDraft) (text : String) (span : Span) :
    (d.shift k).acceptFirst text (span.shift k) =
      ((d.acceptFirst text span).1.shift k, (d.acceptFirst text span).2.map (Event.shift k)) := by
  simp only [acceptFirst, acceptStep?_shift]
  split
  · rfl
  · split
    · rfl
    · cases d.acceptStep? text span <;> rfl

theorem accept_shift (d : NthDraft) (text : String) (span : Span) :
    (d.shift k).accept text (span.shift k) =
      ((d.accept text span).1.shift k, (d.accept text span).2.map (Event.shift k)) := by
  have hphase : (d.shift k).phase = d.phase := rfl
  rw [accept, accept, hphase]
  split
  · exact acceptFirst_shift d text span
  · split
    · rfl
    · rw [acceptOffset_shift]
      rfl
  · rw [acceptOffset_shift]
    rfl
  · rfl
  · rfl

end NthDraft

/-- The reading of an expression, moved `k` bytes to the right. -/
def NthReading.shift (k : Nat) (r : NthReading) : NthReading :=
  ⟨r.draft.shift k, r.rest.map (Token.shift k), r.events.map (Event.shift k)⟩

theorem NthReading.after_shift (es : List Event) (r : NthReading) :
    (r.shift k).after (es.map (Event.shift k)) = (r.after es).shift k := by
  simp [after, shift]

theorem NthDraft.read_shift (d : NthDraft) (ts : List Token) :
    (d.shift k).read (ts.map (Token.shift k)) = (d.read ts).shift k := by
  have hphase : ∀ d : NthDraft, (d.shift k).phase = d.phase := fun _ => rfl
  fun_induction read d ts with
  | case1 => rfl
  | case2 d t ts ht ih =>
    rw [List.map_cons, read.eq_def]
    simp only [Token.kind_shift, ht, pushBlanks_shift, ih]
  | case3 d t ts ht ih =>
    have hpush : (d.shift k).push (.comment (.ofToken (t.shift k))) =
        (d.push (.comment (.ofToken t))).shift k := rfl
    rw [List.map_cons, read.eq_def]
    simp only [Token.kind_shift, ht, hpush, ih]
  | case4 d t ts ht hp | case6 d t ts ht hp =>
    rw [List.map_cons, read.eq_def]
    simp only [Token.kind_shift, ht, hphase, if_pos hp]
    rfl
  | case5 d t ts ht hp a ih =>
    rw [List.map_cons, read.eq_def]
    simp only [Token.kind_shift, ht, hphase, if_neg hp, Token.text_shift, Token.span_shift,
      accept_shift]
    rw [ih, NthReading.after_shift]
  | case7 d t ht hp u us hu a ih =>
    have hspan : (⟨(t.span.shift k).start, (u.span.shift k).stop⟩ : Span) =
        Span.shift k ⟨t.span.start, u.span.stop⟩ := rfl
    rw [List.map_cons, read.eq_def]
    simp only [Token.kind_shift, ht, hphase, if_neg hp, List.map_cons, Token.text_shift,
      Token.span_shift, hspan, accept_shift]
    rw [if_pos hu, ← NthReading.after_shift, ← ih]
  | case8 d t ht hp u us hu a ih =>
    rw [List.map_cons, read.eq_def]
    simp only [Token.kind_shift, ht, hphase, if_neg hp, List.map_cons, if_neg hu, Token.text_shift,
      Token.span_shift, accept_shift]
    rw [← NthReading.after_shift, ← ih, List.map_cons]
  | case9 d t ht hp a =>
    rw [List.map_cons, read.eq_def]
    simp only [Token.kind_shift, ht, hphase, if_neg hp, List.map_nil, Token.text_shift,
      Token.span_shift, accept_shift]
    rfl
  | case10 d t ts hspace hcomment htext hplus =>
    rw [List.map_cons, read.eq_def]
    dsimp only
    rw [Token.kind_shift]
    cases ht : t.kind with
    | space => exact absurd ht hspace
    | comment => exact absurd ht hcomment
    | text => exact absurd ht htext
    | plus => exact absurd ht hplus
    | _ => rfl

/-! ### Nodes -/

namespace Draft

/-- The draft moved `k` bytes to the right. -/
def shift (k : Nat) (d : Draft) : Draft :=
  { d with start := d.start + k, nodes := d.nodes.map (Node.shift k) }

end Draft

/-- The step moved `k` bytes to the right. -/
def Step.shift (k : Nat) (s : Step) : Step :=
  ⟨s.draft.shift k, s.rest.map (Token.shift k), s.events.map (Event.shift k)⟩

namespace Draft

theorem push_shift (d : Draft) (n : Node) : (d.shift k).push (n.shift k) = (d.push n).shift k := rfl

theorem takeComments_shift (ts : List Token) :
    takeComments (ts.map (Token.shift k)) =
      ((takeComments ts).1.map (Comment.shift k), (takeComments ts).2.map (Token.shift k)) := by
  simp only [takeComments, Token.takeRun]
  rw [Token.takeWhile_map_shift k (· == .comment), Token.dropWhile_map_shift k (· == .comment),
    List.map_map, List.map_map]
  rfl

theorem nameStop_shift (stop : Nat) (cs : List Comment) (name : Option Token) :
    nameStop (stop + k) (cs.map (Comment.shift k)) (name.map (Token.shift k)) =
      nameStop stop cs name + k := by
  cases name with
  | some t => rfl
  | none =>
    rw [nameStop.eq_def, nameStop.eq_def, List.getLast?_map]
    cases cs.getLast? <;> rfl

theorem nameText_shift (name : Option Token) :
    nameText (name.map (Token.shift k)) = nameText name := by
  cases name <;> rfl

theorem stepClass_shift (d : Draft) (t : Token) (ts : List Token) :
    (d.shift k).stepClass (t.shift k) (ts.map (Token.shift k)) = (d.stepClass t ts).shift k := by
  simp only [stepClass, takeComments_shift, Token.take?_map_shift, nameText_shift, Token.span_shift,
    Span.shift, nameStop_shift]
  rfl

theorem stepId_shift (d : Draft) (t : Token) (ts : List Token) :
    (d.shift k).stepId (t.shift k) (ts.map (Token.shift k)) = (d.stepId t ts).shift k := by
  have hstop := nameStop_shift (k := k) t.span.stop []
  simp only [List.map_nil] at hstop
  simp only [stepId, Token.take?_map_shift, nameText_shift, Token.span_shift, Span.shift, hstop]
  rfl

theorem stepPseudo_shift (d : Draft) (t : Token) (ts : List Token) :
    (d.shift k).stepPseudo (t.shift k) (ts.map (Token.shift k)) = (d.stepPseudo t ts).shift k := by
  simp only [stepPseudo, takeComments_shift, Token.take?_map_shift]
  rcases Token.take? .colon (takeComments ts).2 with ⟨_ | colon, rest⟩
  · simp only [Option.map_none, Token.take?_map_shift, nameText_shift, Token.span_shift, Span.shift,
      nameStop_shift]
    rfl
  · simp only [Option.map_some, takeComments_shift, Token.take?_map_shift, nameText_shift,
      Token.span_shift, Span.shift, nameStop_shift]
    rfl

theorem splitTightComments_shift (ns : List Node) :
    splitTightComments (ns.map (Node.shift k)) =
      ((splitTightComments ns).1.map (Comment.shift k),
        (splitTightComments ns).2.map (Node.shift k)) := by
  fun_induction splitTightComments ns with
  | case1 c ns hc => simp [Node.shift, splitTightComments, hc]
  | case2 c ns hc r ih => simp [Node.shift, splitTightComments, hc, ih, r]
  | case3 ns hcomment =>
    cases ns with
    | nil => rfl
    | cons n ns => cases n with
      | comment c => exact absurd rfl (hcomment c ns)
      | _ => simp [Node.shift, splitTightComments]

/-- The qualifier moved `k` bytes to the right. -/
def Qualifier.shift (k : Nat) (q : Qualifier) : Qualifier :=
  ⟨q.value, q.start + k, q.comments.map (Comment.shift k), q.nodes.map (Node.shift k)⟩

theorem qualifier?_shift (ns : List Node) :
    qualifier? (ns.map (Node.shift k)) = (qualifier? ns).map (Qualifier.shift k) := by
  rw [qualifier?, splitTightComments_shift, qualifier?]
  rcases splitTightComments ns with ⟨comments, _ | ⟨n, ns⟩⟩
  · rfl
  · cases n with
    | element span kind name ns => cases ns <;> rfl
    | _ => rfl

theorem takeTarget_shift (ts : List Token) :
    takeTarget (ts.map (Token.shift k)) =
      ((takeTarget ts).1.map (Token.shift k), (takeTarget ts).2.map (Token.shift k)) := by
  rw [takeTarget, Token.take?_map_shift, takeTarget]
  rcases Token.take? .text ts with ⟨_ | name, rest⟩
  · simp only [Option.map_none, Token.take?_map_shift]
  · rfl

theorem stepBar_shift (d : Draft) (t : Token) (ts : List Token) :
    (d.shift k).stepBar (t.shift k) (ts.map (Token.shift k)) = (d.stepBar t ts).shift k := by
  have hq : qualifier? (d.shift k).nodes = (qualifier? d.nodes).map (Qualifier.shift k) :=
    qualifier?_shift d.nodes
  simp only [stepBar, takeComments_shift, takeTarget_shift, hq, nameText_shift, Token.span_shift,
    Span.shift, nameStop_shift, Option.isSome_map]
  cases qualifier? d.nodes <;> cases (takeTarget (takeComments ts).2).1 <;> rfl

theorem stepAttribute_shift (d : Draft) (t : Token) (ts : List Token) :
    (d.shift k).stepAttribute (t.shift k) (ts.map (Token.shift k)) =
      (d.stepAttribute t ts).shift k := by
  simp only [stepAttribute, Block.read_map_shift]
  rcases Block.read .openBracket .closeBracket _ ts with ⟨inside, _ | closer, rest⟩
  · simp only [Block.shift, Option.map_none, List.getLast?_map, Token.join_map_shift]
    cases inside.getLast? <;> rfl
  · simp only [Block.shift, Option.map_some, Token.join_map_shift]
    rfl

theorem stepTooDeep_shift (depth : Nat) (d : Draft) (t : Token) (ts : List Token) :
    (d.shift k).stepTooDeep depth (t.shift k) (ts.map (Token.shift k)) =
      (d.stepTooDeep depth t ts).shift k := by
  simp only [stepTooDeep, Block.read_map_shift, Block.taken_shift, List.getLast?_map,
    Token.join_map_shift]
  cases (Block.read .openParen .closeParen (fun _ => false) ts).taken.getLast? <;> rfl

theorem stepGap_shift (d : Draft) (t : Token) (ts : List Token) :
    (d.shift k).stepGap (t.shift k) (ts.map (Token.shift k)) = (d.stepGap t ts).shift k := by
  have hempty : (d.shift k).nodes.isEmpty = d.nodes.isEmpty := List.isEmpty_map
  simp only [stepGap, hempty, Gap.read_shift, Gap.rest_shift, Gap.nodes_shift]
  simp [Step.shift, shift, Gap.shift]

/-- **Reading a node commutes with moving it.** -/
theorem step_shift (depth : Nat) (d : Draft) (t : Token) (ts : List Token) :
    (d.shift k).step depth (t.shift k) (ts.map (Token.shift k)) = (d.step depth t ts).shift k := by
  rw [step, step, Token.kind_shift]
  cases t.kind with
  | dot => exact stepClass_shift d t ts
  | hash => exact stepId_shift d t ts
  | colon => exact stepPseudo_shift d t ts
  | pipe => exact stepBar_shift d t ts
  | openBracket => exact stepAttribute_shift d t ts
  | openParen => exact stepTooDeep_shift depth d t ts
  | space | plus | greaterThan | tilde => exact stepGap_shift d t ts
  | _ => rfl

end Draft

end Selectors
