import Selectors.Proofs.Canonical.Gaps
import Selectors.Proofs.Shape.Edges
import Selectors.Proofs.Shape.Invariant

/-!
# Trees that reading can make

The types allow more trees than reading makes.  `NodeRef.WellFormed` says what is true of every
item that was read: its blanks are blank, its comments stand where they can, and so on.  Three
things are about lists: an expression is the first node of the first selector of its list
(`Selector.ExpressionFirst`), the list belongs to a pseudo-class with such an argument, and lists
are nested `Selector.nestingAll` times at most.

This file has the definitions and what gaps, expressions and trimming keep of them;
`Selectors.Proofs.Shape.Parsed` has the reading of lists.
-/

namespace Selectors

/-! ### Nested lists -/

mutual

/-- How many lists are nested in one another in a selector. -/
def Selector.nesting : Selector → Nat
  | ⟨_, _, _, ns⟩ => Node.nestingAll ns

/-- How many lists are nested in one another in a node, its own list included. -/
def Node.nesting : Node → Nat
  | .functional _ _ _ args => Selector.nestingArguments args
  | .compound _ ns _ => Node.nestingAll ns
  | .element _ _ _ _ | .combinator _ | .comment _ | .invalid _ _ | .nth _ => 0

/-- How many lists are nested in one another in some nodes. -/
def Node.nestingAll : List Node → Nat
  | [] => 0
  | n :: ns => max n.nesting (Node.nestingAll ns)

/-- How many lists are nested in one another in an argument list, that list included. -/
def Selector.nestingArguments : Option (List Selector) → Nat
  | none => 0
  | some l => Selector.nestingAll l + 1

/-- How many lists are nested in one another in some selectors. -/
def Selector.nestingAll : List Selector → Nat
  | [] => 0
  | s :: ss => max s.nesting (Selector.nestingAll ss)

end

theorem Node.nestingAll_le_iff {k : Nat} {ns : List Node} :
    Node.nestingAll ns ≤ k ↔ ∀ n ∈ ns, n.nesting ≤ k := by
  induction ns with
  | nil => simp [Node.nestingAll]
  | cons n ns ih => rw [Node.nestingAll, Nat.max_le, ih, List.forall_mem_cons]

theorem Selector.nestingAll_le_iff {k : Nat} {ss : List Selector} :
    Selector.nestingAll ss ≤ k ↔ ∀ s ∈ ss, s.nesting ≤ k := by
  induction ss with
  | nil => simp [Selector.nestingAll]
  | cons s ss ih => rw [Selector.nestingAll, Nat.max_le, ih, List.forall_mem_cons]

theorem Selector.nesting_le_iff {k : Nat} {s : Selector} :
    s.nesting ≤ k ↔ ∀ n ∈ s.nodes, n.nesting ≤ k := by
  cases s
  rw [Selector.nesting, Node.nestingAll_le_iff]

/-! ### Expressions -/

/-- An expression is the first node, and only of nodes that may have one. -/
def Node.ExpressionFirst (allowed : Prop) (ns : List Node) : Prop :=
  ∀ j n, ns[j]? = some (.nth n) → allowed ∧ j = 0

/-- An expression is the first node of the first selector, and only of lists that may have one. -/
def Selector.ExpressionFirst (allowed : Prop) (list : List Selector) : Prop :=
  ∀ i s j n, list[i]? = some s → s.nodes[j]? = some (.nth n) → allowed ∧ i = 0 ∧ j = 0

namespace Node.ExpressionFirst

variable {allowed : Prop} {ns ms : List Node}

theorem of_forall (h : ∀ n ∈ ns, n.kind ≠ .nth) : ExpressionFirst allowed ns :=
  fun _ n hj => absurd rfl (h (.nth n) (List.mem_of_getElem? hj))

theorem left (h : ExpressionFirst allowed (ns ++ ms)) : ExpressionFirst allowed ns := by
  intro j n hj
  obtain ⟨hlt, -⟩ := List.getElem?_eq_some_iff.1 hj
  exact h j n (by rw [List.getElem?_append_left hlt, hj])

theorem append (h : ExpressionFirst allowed ns) (hms : ∀ n ∈ ms, n.kind ≠ .nth) :
    ExpressionFirst allowed (ns ++ ms) := by
  intro j n hj
  rw [List.getElem?_append] at hj
  split at hj
  · exact h j n hj
  · exact absurd rfl (hms (.nth n) (List.mem_of_getElem? hj))

/-- There is no expression, or the first node is the only one. -/
theorem cases (h : ExpressionFirst allowed ns) :
    (∀ n ∈ ns, n.kind ≠ .nth) ∨
      ∃ n ms, ns = .nth n :: ms ∧ allowed ∧ ∀ m ∈ ms, m.kind ≠ .nth := by
  have htail : ∀ n ms, ns = n :: ms → ∀ m ∈ ms, m.kind ≠ .nth := by
    rintro n ms rfl m hm hk
    obtain ⟨j, hj⟩ := List.mem_iff_getElem?.1 hm
    cases m with
    | nth x => exact absurd (h (j + 1) x hj).2 (Nat.succ_ne_zero j)
    | element _ kind _ _ => cases kind <;> cases hk
    | functional _ sigil _ _ => cases sigil <;> cases hk
    | _ => cases hk
  cases ns with
  | nil => exact .inl (by simp)
  | cons n ms =>
    by_cases hn : n.kind = .nth
    · cases n with
      | nth x => exact .inr ⟨x, ms, rfl, (h 0 x rfl).1, htail _ _ rfl⟩
      | element _ kind _ _ => cases kind <;> cases hn
      | functional _ sigil _ _ => cases sigil <;> cases hn
      | _ => cases hn
    · exact .inl (List.forall_mem_cons.2 ⟨hn, htail _ _ rfl⟩)

end Node.ExpressionFirst

/-! ### Items -/

/-- Blanks spell descent, and every other combinator its own character. -/
def CombinatorKind.Spells (k : CombinatorKind) (text : String) : Prop :=
  (k = .descendant ↔ text ≠ "" ∧ IsBlanks text) ∧ (k ≠ .descendant → text = k.name)

/-- **What is true of every item that was read.**  Whatever an item keeps before and after itself
is blank, and comments inside a name keep nothing; a combinator has its spelling; no text that was
not understood is empty; an expression has its place; and no simple selectors are grouped. -/
def NodeRef.WellFormed : NodeRef → Prop
  | selector s => IsBlanks s.before ∧ IsBlanks s.after
  | node (.element span kind name ns) =>
    ∀ c ∈ Node.comments (.element span kind name ns), c.before = "" ∧ c.after = ""
  | node (.functional _ sigil name args) =>
    (∀ c ∈ sigil.comments, c.before = "" ∧ c.after = "") ∧
      ∀ list ∈ args, Selector.ExpressionFirst (sigil.IsNth name) list
  | node (.combinator c) => IsBlanks c.before ∧ IsBlanks c.after ∧ c.kind.Spells c.text
  | node (.comment c) => IsBlanks c.before ∧ IsBlanks c.after
  | node (.invalid _ text) => text ≠ ""
  | node (.nth n) => IsBlanks n.before ∧ IsBlanks n.after
  | node (.compound _ _ _) => False
  | part (.part _ p) => IsBlanks p.before ∧ IsBlanks p.after
  | part (.comment c) => IsBlanks c.before ∧ IsBlanks c.after

theorem isBlanks_empty : IsBlanks "" := by simp [IsBlanks]

theorem IsBlanks.append {s t : String} (hs : IsBlanks s) (ht : IsBlanks t) : IsBlanks (s ++ t) := by
  unfold IsBlanks at *
  rw [String.toList_append]
  exact fun c hc => (List.mem_append.1 hc).elim (hs c) (ht c)

/-- A descendant combinator is blank all through. -/
theorem Combinator.isBlanks_print {c : Combinator} (hc : c.kind = .descendant)
    (h : (NodeRef.node (.combinator c)).WellFormed) : IsBlanks c.print := by
  obtain ⟨hbefore, hafter, hspells⟩ := h
  exact (hbefore.append (hspells.1.1 hc).2).append hafter

theorem Edge.isBlanks_text {cs : List Combinator}
    (h : ∀ c ∈ cs, c.kind = .descendant ∧ (NodeRef.node (.combinator c)).WellFormed) :
    IsBlanks (text cs) := by
  induction cs with
  | nil => exact isBlanks_empty
  | cons c cs ih =>
    obtain ⟨hc, hcs⟩ := List.forall_mem_cons.1 h
    exact (Combinator.isBlanks_print hc.1 hc.2).append (ih hcs)

/-! ### Tokens -/

namespace Token.Legible

variable {t : Token}

/-- Blanks apart, the text of a combinator token is one of three characters. -/
theorem text_of_isCombinator (ht : t.Legible) (hk : t.kind.isCombinator) :
    t.kind = .space ∧ IsBlanks t.text ∨
      t.kind ≠ .space ∧ (t.text = "+" ∨ t.text = ">" ∨ t.text = "~") := by
  cases hkind : t.kind with
  | space => exact .inl ⟨rfl, ht.blanks hkind⟩
  | plus => exact .inr ⟨by decide, .inl (ht.spelled '+' (by rw [hkind]; rfl))⟩
  | greaterThan => exact .inr ⟨by decide, .inr (.inl (ht.spelled '>' (by rw [hkind]; rfl)))⟩
  | tilde => exact .inr ⟨by decide, .inr (.inr (ht.spelled '~' (by rw [hkind]; rfl)))⟩
  | _ => rw [hkind] at hk; cases hk

theorem spells (ht : t.Legible) (hk : t.kind.isCombinator) :
    (CombinatorKind.ofText t.text).Spells t.text := by
  rcases ht.text_of_isCombinator hk with ⟨-, hblanks⟩ | ⟨-, htext | htext | htext⟩
  · rw [ofText_of_isBlanks hblanks]
    exact ⟨by simp [ht.nonempty, hblanks], by simp⟩
  all_goals
    rw [htext]
    exact ⟨by decide, fun _ => rfl⟩

theorem ofText_ne_descendant (ht : t.Legible) (hk : t.kind.isCombinator)
    (hspace : t.kind ≠ .space) : CombinatorKind.ofText t.text ≠ .descendant := by
  rcases ht.text_of_isCombinator hk with ⟨hkind, -⟩ | ⟨-, htext | htext | htext⟩
  · exact absurd hkind hspace
  all_goals
    rw [htext]
    decide

theorem wellFormed_combinator (ht : t.Legible) (hk : t.kind.isCombinator) (invalid : Bool) :
    (NodeRef.node (.combinator { Combinator.ofToken t with invalid := invalid })).WellFormed :=
  ⟨isBlanks_empty, isBlanks_empty, ht.spells hk⟩

end Token.Legible

theorem Comment.wellFormed_ofToken (t : Token) :
    (NodeRef.node (.comment (.ofToken t))).WellFormed := ⟨isBlanks_empty, isBlanks_empty⟩

theorem Node.Plain.wellFormed {n : Node} (h : n.Plain) :
    (NodeRef.node n).Every NodeRef.WellFormed := by
  cases h with
  | element => exact (NodeRef.every_of_childless rfl).2 (by simp [NodeRef.WellFormed, comments])
  | functional span sigil name h => exact (NodeRef.every_of_childless rfl).2 ⟨h, by simp⟩
  | invalid span text h => exact (NodeRef.every_of_childless rfl).2 h

theorem Node.Plain.nesting {n : Node} (h : n.Plain) : n.nesting = 0 := by
  cases h <;> rfl

theorem Node.Plain.kind_ne_nth {n : Node} (h : n.Plain) : n.kind ≠ .nth := by
  cases h with
  | element span kind => cases kind <;> simp [Node.kind, ElementKind.kind]
  | functional span sigil => cases sigil <;> simp [Node.kind, Sigil.kind]
  | invalid => simp [Node.kind]

theorem Node.nesting_of_isFiller {n : Node} (h : n.isFiller) : n.nesting = 0 := by
  cases n with
  | combinator | comment => rfl
  | _ => cases h

theorem Node.kind_ne_nth_of_isFiller {n : Node} (h : n.isFiller) : n.kind ≠ .nth := by
  cases n with
  | combinator | comment => simp [Node.kind]
  | _ => cases h

/-! ### Gaps -/

namespace Gap

/-- The blanks that a gap gives up are blank, and its items are well-formed. -/
structure WellFormed (g : Gap) : Prop where
  before : IsBlanks g.before
  settled : ∀ n ∈ g.settled, (NodeRef.node n).WellFormed
  current : (NodeRef.node (.combinator g.current)).WellFormed
  comments : ∀ c ∈ g.comments, (NodeRef.node (.comment c)).WellFormed

variable {g : Gap} {t : Token}

theorem WellFormed.nodes (h : g.WellFormed) : ∀ n ∈ g.nodes, (NodeRef.node n).WellFormed := by
  intro n hn
  rcases List.mem_append.1 hn with hn | hn
  · obtain ⟨c, hc, rfl⟩ := List.mem_map.1 hn
    exact h.comments c hc
  · rcases List.mem_cons.1 hn with rfl | hn
    · exact h.current
    · exact h.settled n hn

theorem wellFormed_start (ht : t.Legible) (hk : t.kind.isCombinator) : (start t).WellFormed :=
  ⟨isBlanks_empty, by simp [start], ht.wellFormed_combinator hk false, by simp [start]⟩

theorem WellFormed.pushBlanks (h : g.WellFormed) (ht : IsBlanks t.text) :
    (g.pushBlanks t).WellFormed := by
  obtain ⟨hbefore, hsettled, hcurrent, hcomments⟩ := h
  unfold Gap.pushBlanks
  split
  · rename_i c cs hc
    rw [hc] at hcomments
    obtain ⟨⟨hcbefore, hcafter⟩, hcs⟩ := List.forall_mem_cons.1 hcomments
    exact ⟨hbefore, hsettled, hcurrent,
      List.forall_mem_cons.2 ⟨⟨hcbefore, hcafter.append ht⟩, hcs⟩⟩
  · exact ⟨hbefore, hsettled, ⟨hcurrent.1, hcurrent.2.1.append ht, hcurrent.2.2⟩, hcomments⟩

theorem WellFormed.pushComment (h : g.WellFormed) (t : Token) :
    WellFormed { g with comments := .ofToken t :: g.comments } :=
  ⟨h.before, h.settled, h.current,
    List.forall_mem_cons.2 ⟨Comment.wellFormed_ofToken t, h.comments⟩⟩

theorem wellFormed_giveToFirst {s : Combinator} {cs : List Comment} (hs : IsBlanks s.print)
    (h : ∀ c ∈ cs, (NodeRef.node (.comment c)).WellFormed) :
    ∀ c ∈ giveToFirst s cs, (NodeRef.node (.comment c)).WellFormed := by
  fun_induction giveToFirst s cs with
  | case1 => exact h
  | case2 c =>
    obtain ⟨⟨hbefore, hafter⟩, -⟩ := List.forall_mem_cons.1 h
    exact List.forall_mem_singleton.2 ⟨hs.append hbefore, hafter⟩
  | case3 c cs hne ih =>
    obtain ⟨hc, hcs⟩ := List.forall_mem_cons.1 h
    exact List.forall_mem_cons.2 ⟨hc, ih hcs⟩

theorem WellFormed.pushCombinator (h : g.WellFormed) (atFront : Bool) (ht : t.Legible)
    (hk : t.kind.isCombinator) : (g.pushCombinator atFront t).WellFormed := by
  have hcomments : ∀ cs : List Comment, (∀ c ∈ cs, (NodeRef.node (.comment c)).WellFormed) →
      ∀ n ∈ cs.map Node.comment, (NodeRef.node n).WellFormed := by
    intro cs hcs n hn
    obtain ⟨c, hc, rfl⟩ := List.mem_map.1 hn
    exact hcs c hc
  have htoken := ht.wellFormed_combinator hk
  simp only [Gap.pushCombinator]
  split
  · rename_i hs
    have hblanks := Combinator.isBlanks_print hs h.current
    split
    · exact ⟨h.before, h.settled, ⟨hblanks, isBlanks_empty, ht.spells hk⟩, h.comments⟩
    · split
      · exact ⟨h.before.append hblanks, hcomments _ h.comments, htoken false, by simp⟩
      · refine ⟨h.before, fun n hn => ?_, htoken false, by simp⟩
        rcases List.mem_append.1 hn with hn | hn
        · exact hcomments _ (wellFormed_giveToFirst hblanks h.comments) n hn
        · exact h.settled n hn
  · exact ⟨h.before, h.nodes, htoken true, by simp⟩

theorem WellFormed.push (h : g.WellFormed) (atFront : Bool) (ht : t.Legible) (hk : t.kind.isGap) :
    (g.push atFront t).WellFormed := by
  unfold Gap.push
  split
  · rename_i hspace
    exact h.pushBlanks (ht.blanks hspace)
  · exact h.pushComment t
  · rename_i hspace hcomment
    exact h.pushCombinator atFront ht (TokenKind.isCombinator_of_isGap hk hcomment)

/-- What a gap reads is well-formed. -/
theorem wellFormed_read (atFront : Bool) {ts : List Token} (hk : t.kind.isCombinator)
    (hts : ∀ u ∈ t :: ts, u.Legible) : (read atFront t ts).WellFormed := by
  obtain ⟨ht, hts⟩ := List.forall_mem_cons.1 hts
  exact read_induction atFront (wellFormed_start ht hk) fun u hu hgap g hg =>
    hg.push atFront (hts u hu) hgap

end Gap

/-! ### Expressions -/

namespace NthDraft

/-- The blanks before an expression are blank, and its items are well-formed. -/
structure WellFormed (d : NthDraft) : Prop where
  before : IsBlanks d.before
  items : ∀ n ∈ d.items, (NodeRef.part n).WellFormed

variable {d : NthDraft} {t : Token}

theorem wellFormed_start (p : Nat) : (start p).WellFormed := ⟨isBlanks_empty, by simp [start]⟩

theorem WellFormed.phase (h : d.WellFormed) (phase : NthPhase) (afterDash : Bool) :
    WellFormed { d with phase, afterDash } := ⟨h.before, h.items⟩

theorem WellFormed.push (h : d.WellFormed) {n : NthNode} (hn : (NodeRef.part n).WellFormed) :
    (d.push n).WellFormed := ⟨h.before, List.forall_mem_cons.2 ⟨hn, h.items⟩⟩

theorem WellFormed.pushPart (h : d.WellFormed) (role : NthRole) (text : String) (span : Span)
    (invalid : Bool) : (d.pushPart role text span invalid).WellFormed :=
  h.push ⟨isBlanks_empty, isBlanks_empty⟩

theorem WellFormed.pushBlanks (h : d.WellFormed) (ht : IsBlanks t.text) :
    (d.pushBlanks t).WellFormed := by
  obtain ⟨hbefore, hitems⟩ := h
  unfold NthDraft.pushBlanks
  split
  · rename_i n ns hn
    rw [hn] at hitems
    obtain ⟨hfirst, hns⟩ := List.forall_mem_cons.1 hitems
    refine ⟨hbefore, List.forall_mem_cons.2 ⟨?_, hns⟩⟩
    cases n with
    | part => exact ⟨hfirst.1, hfirst.2.append ht⟩
    | comment => exact ⟨hfirst.1, hfirst.2.append ht⟩
  · exact ⟨hbefore.append ht, hitems⟩

theorem WellFormed.acceptOf (h : d.WellFormed) (text : String) (span : Span) :
    (d.acceptOf text span).WellFormed := (h.pushPart _ _ _ _).phase _ _

theorem WellFormed.acceptOffset (h : d.WellFormed) (text : String) (span : Span) :
    (d.acceptOffset text span).WellFormed := by
  unfold NthDraft.acceptOffset
  split
  · exact h.acceptOf text span
  · exact (h.pushPart _ _ _ _).phase _ _

theorem WellFormed.acceptDash (h : d.WellFormed) (text : String) (span : Span) :
    (d.acceptDash text span).WellFormed := (h.pushPart _ _ _ _).phase _ _

theorem WellFormed.acceptStep? {d' : NthDraft} (h : d.WellFormed) {text : String} {span : Span}
    (hd : d.acceptStep? text span = some d') : d'.WellFormed := by
  unfold NthDraft.acceptStep? at hd
  split at hd
  · cases hd
  · rename_i step rest hsplit
    dsimp only at hd
    split at hd
    · have hstep := (h.pushPart .step (String.ofList step)
        ⟨span.start, span.start + (String.ofList step).utf8ByteSize⟩ false).phase .dash d.afterDash
      split at hd
      · obtain rfl := Option.some.inj hd
        exact hstep
      · split at hd
        · obtain rfl := Option.some.inj hd
          exact hstep.acceptDash _ _
        · split at hd
          · obtain rfl := Option.some.inj hd
            exact (hstep.pushPart _ _ _ _).phase _ _
          · cases hd
    · cases hd

theorem WellFormed.accept (h : d.WellFormed) (text : String) (span : Span) :
    (d.accept text span).1.WellFormed := by
  unfold NthDraft.accept
  split
  · simp only [NthDraft.acceptFirst]
    split
    · exact (h.pushPart _ _ _ _).phase _ _
    · split
      · exact (h.pushPart _ _ _ _).phase _ _
      · split
        · rename_i d' hd
          exact h.acceptStep? hd
        · exact (h.pushPart _ _ _ _).phase _ _
  · split
    · exact h.acceptDash text span
    · exact h.acceptOffset text span
  · exact h.acceptOffset text span
  · exact h.acceptOf text span
  · exact h.acceptOf text span

theorem WellFormed.read {ts : List Token} (h : d.WellFormed) (hts : ∀ t ∈ ts, t.Legible) :
    (d.read ts).draft.WellFormed := by
  fun_induction NthDraft.read d ts with
  | case1 => exact h
  | case2 d t ts hk ih =>
    obtain ⟨ht, hts⟩ := List.forall_mem_cons.1 hts
    exact ih (h.pushBlanks (ht.blanks hk)) hts
  | case3 d t ts hk ih =>
    exact ih (h.push ⟨isBlanks_empty, isBlanks_empty⟩) (List.forall_mem_cons.1 hts).2
  | case4 => exact h
  | case5 d t ts hk hp a ih => exact ih (h.accept _ _) (List.forall_mem_cons.1 hts).2
  | case6 => exact h
  | case7 d t hk hp u us hu a ih =>
    exact ih (h.accept _ _) (List.forall_mem_cons.1 (List.forall_mem_cons.1 hts).2).2
  | case8 d t hk hp u us hu a ih => exact ih (h.accept _ _) (List.forall_mem_cons.1 hts).2
  | case9 => exact h.accept _ _
  | case10 => exact h

theorem WellFormed.finish (h : d.WellFormed) :
    (NodeRef.node (.nth d.finish)).Every NodeRef.WellFormed :=
  NodeRef.every_nth.2
    ⟨⟨h.before, isBlanks_empty⟩, fun n hn => h.items n (List.mem_reverse.1 hn)⟩

end NthDraft

/-! ### Edges -/

namespace Edge

variable {c : Comment} {s : Combinator}

theorem wellFormed_joinAfter (hs : s.kind = .descendant)
    (hc : (NodeRef.node (.comment c)).WellFormed)
    (hw : (NodeRef.node (.combinator s)).WellFormed) :
    (NodeRef.node (.comment (joinAfter c s))).WellFormed :=
  ⟨hc.1, hc.2.append (Combinator.isBlanks_print hs hw)⟩

theorem wellFormed_joinBefore (hs : s.kind = .descendant)
    (hc : (NodeRef.node (.comment c)).WellFormed)
    (hw : (NodeRef.node (.combinator s)).WellFormed) :
    (NodeRef.node (.comment (joinBefore c s))).WellFormed :=
  ⟨(Combinator.isBlanks_print hs hw).append hc.1, hc.2⟩

end Edge

/-- Trimming keeps an expression where it is. -/
theorem Node.ExpressionFirst.trim {allowed : Prop} {s : Selector}
    (h : ExpressionFirst allowed s.nodes) : ExpressionFirst allowed s.trim.nodes := by
  rcases h.cases with hnone | ⟨n, ms, hs, hallowed, hms⟩
  · refine .of_forall (Selector.forall_trim hnone ?_ ?_).1 <;> simp [Node.kind]
  · -- the nodes after the expression are trimmed from the end only
    have hrest : ∀ m ∈ (Edge.trim Edge.joinBefore ms.reverse).2, m.kind ≠ .nth :=
      (Edge.forall_trim (by simp [Node.kind]) fun m hm => hms m (List.mem_reverse.1 hm)).1
    have hsingle : ExpressionFirst allowed [.nth n] := by
      intro j x hj
      obtain ⟨hlt, -⟩ := List.getElem?_eq_some_iff.1 hj
      exact ⟨hallowed, Nat.lt_one_iff.1 hlt⟩
    rw [Selector.nodes_trim_cons hs (by simp [Node.isFiller])]
    exact hsingle.append fun n hn => hrest n (List.mem_reverse.1 hn)

end Selectors
