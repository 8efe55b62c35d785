import Mathlib.Data.List.Chain
import Selectors.Proofs.Shape.Invariant
import Selectors.Tree.Equality

/-!
# Namespaces of a parsed tree

A bar looks back for its namespace, over comments without blanks, and ahead for its name.  It finds
whatever is there.  A bare element is a name that no bar has taken; looking back from a bar, if the
first node that is no comment is bare, then all comments after it are without blanks, since blanks
leave a combinator (`Draft.Resolved.ready`).  Trimming takes nodes away at the edges only, so that
it brings no two nodes together (`Selector.uncommented_trim`).

* `parse_namespaces`: every namespace of a parsed tree has a text that was there, and the error that
  its two sides give; and no name before a bar was missed.
-/

namespace Selectors

/-! ### Names and bars -/

/-- The name is a star, or a token at the place spells it. -/
def SpellsName (tokens : List Token) (p : Nat) (name : String) : Prop :=
  name = "*" ∨ ∃ t ∈ tokens, t.kind = .text ∧ t.span.start = p ∧ t.text = name

/-- What holds of the namespace of an element with the given name and place: its error tells which
sides are missing, and what it has of a name was written there. -/
structure Namespace.Resolved (tokens : List Token) (p : Nat) (name : String) (ns : Namespace) :
    Prop where
  error : ns.error.map NamespaceError.name =
    if ns.value = "" then if name = "" then some "namespace,target" else some "namespace"
    else if name = "" then some "target" else none
  value : ns.value ≠ "" → SpellsName tokens p ns.value
  beforeComments : ns.value = "" → ns.beforeComments = []

namespace Node

/-- The first node could have been the namespace that the second one lacks. -/
inductive Missed : Node → Node → Prop where
  | mk (span span' : Span) (kind kind' : ElementKind) (name name' : String) {ns : Namespace}
    (h : ns.value = "") :
    Missed (.element span kind name none) (.element span' kind' name' (some ns))

/-- A name that no bar has taken. -/
def isBare : Node → Bool
  | element _ _ _ none => true
  | _ => false

def isComment : Node → Bool
  | comment _ => true
  | _ => false

/-- The nodes without the comments among them. -/
def uncommented (ns : List Node) : List Node := ns.filter (!·.isComment)

variable {n m : Node} {ns ms : List Node}

theorem Missed.isBare (h : Missed m n) : m.isBare := by
  cases h
  rfl

theorem Missed.isElement (h : Missed m n) : n.isElement := by
  cases h
  rfl

theorem not_isElement_of_isFiller (h : n.isFiller) : ¬n.isElement := by
  cases n with
  | combinator | comment => simp [Node.isElement]
  | _ => cases h

theorem uncommented_append (ns ms : List Node) :
    uncommented (ns ++ ms) = uncommented ns ++ uncommented ms :=
  List.filter_append ..

theorem uncommented_cons (h : ¬n.isComment) (ns : List Node) :
    uncommented (n :: ns) = n :: uncommented ns :=
  List.filter_cons_of_pos (by simpa using h)

@[simp] theorem uncommented_map_comment (cs : List Comment) :
    uncommented (cs.map .comment) = [] := by
  simp [uncommented, isComment]

theorem uncommented_reverse (ns : List Node) :
    uncommented ns.reverse = (uncommented ns).reverse :=
  List.filter_reverse ..

/-- No node was missed as the namespace of the next one that is no comment.  The nodes are given
last one first. -/
def Unmissed (ns : List Node) : Prop := (uncommented ns).IsChain fun n m => ¬Missed m n

end Node

/-- Every name before a bar is taken, in this item. -/
def NodeRef.Resolved (tokens : List Token) : NodeRef → Prop
  | node (.element span _ name (some ns)) => ns.Resolved tokens span.start name
  | selector s => ∀ pre m (cs : List Comment) n post,
      s.nodes = pre ++ m :: (cs.map .comment ++ n :: post) → ¬Node.Missed m n
  | _ => True

theorem NodeRef.resolved_of_isFiller {tokens : List Token} {n : Node} (hn : n.isFiller) :
    (node n).Resolved tokens := by
  cases n with
  | combinator | comment => trivial
  | _ => cases hn

open Node

/-! ### Trimming -/

namespace Edge

variable {join : Comment → Combinator → Comment}

theorem uncommented_absorb (c : Comment) (ns : List Node) :
    uncommented (absorb join c ns) <:+ uncommented ns := by
  fun_induction absorb join c ns with
  | case1 c s ns hs ih => exact ih.trans (List.suffix_cons ..)
  | case2 c s ns hs => exact List.suffix_rfl
  | case3 c d ns ih => exact ih
  | case4 c ns hs hc => exact List.suffix_rfl

theorem uncommented_trim (join : Comment → Combinator → Comment) (ns : List Node) :
    uncommented (trim join ns).2 <:+ uncommented ns := by
  fun_induction trim join ns with
  | case1 s ns hs r ih => exact ih.trans (List.suffix_cons ..)
  | case2 s ns hs => exact List.suffix_rfl
  | case3 c ns => exact uncommented_absorb c ns
  | case4 ns hs hc => exact List.suffix_rfl

end Edge

/-- Apart from comments, trimming takes nodes away at the edges and leaves the rest. -/
theorem Selector.uncommented_trim (s : Selector) :
    uncommented s.trim.nodes <:+: uncommented s.nodes := by
  have hleft := Edge.uncommented_trim Edge.joinAfter s.nodes
  have hright := Edge.uncommented_trim Edge.joinBefore (Edge.trim Edge.joinAfter s.nodes).2.reverse
  rw [uncommented_reverse] at hright
  rw [trim, uncommented_reverse]
  exact (List.reverse_suffix.1 (by simpa using hright)).isInfix.trans hleft.isInfix

/-! ### Bars -/

namespace Draft

variable {d : Draft} {t : Token} {ts tokens : List Token} {n : Node}

/-- Comments without blanks do not hide a name from a bar. -/
theorem isSome_qualifier?_comment {c : Comment} {ns : List Node} (hc : ¬c.isSpacing)
    (h : (qualifier? ns).isSome) : (qualifier? (.comment c :: ns)).isSome := by
  simp only [qualifier?, splitTightComments, if_neg hc] at h ⊢
  split at h
  · rename_i comments span kind name old hsplit
    simp [hsplit]
  · cases h

/-- The error of a namespace tells whether there is a name before the bar, and after it. -/
theorem namespaceError_takeTarget (hasNamespace : Bool) (hts : ∀ u ∈ ts, u.Legible) :
    (namespaceError hasNamespace (takeTarget ts).1.isSome).map NamespaceError.name =
      if hasNamespace then if nameText (takeTarget ts).1 = "" then some "target" else none
      else if nameText (takeTarget ts).1 = "" then some "namespace,target"
      else some "namespace" := by
  cases h : (takeTarget ts).1 with
  | none => cases hasNamespace <;> simp [nameText, namespaceError, NamespaceError.name]
  | some u =>
    have hu : u ∈ ts := by
      rw [← takeTarget_append ts, h]
      exact List.mem_cons_self ..
    have hne : nameText (some u) ≠ "" := (hts u hu).nonempty
    cases hasNamespace <;> simp [hne, namespaceError, NamespaceError.name]

end Draft

/-! ### Selectors being read -/

/-- What holds of a selector being read. -/
structure Draft.Resolved (tokens : List Token) (d : Draft) : Prop where
  every : ∀ n ∈ d.nodes, (NodeRef.node n).Every (NodeRef.Resolved tokens)
  bare : ∀ span kind name, .element span kind name none ∈ d.nodes →
    name ≠ "" ∧ SpellsName tokens span.start name
  unmissed : Unmissed d.nodes
  ready : ∀ m ∈ (uncommented d.nodes).head?, m.isBare → (qualifier? d.nodes).isSome

namespace Draft.Resolved

variable {d : Draft} {t : Token} {ts tokens : List Token} {n : Node}

theorem fresh (p : Nat) : Draft.Resolved tokens { start := p } :=
  ⟨by simp, by simp, .nil, by simp [uncommented]⟩

/-- A node comes in the place of nodes in the end. -/
theorem replace (dropped : List Node) {old : List Node} (h : d.Resolved tokens)
    (hd : d.nodes = dropped ++ old) (hn : ¬n.isComment)
    (hevery : (NodeRef.node n).Every (NodeRef.Resolved tokens))
    (hbare : ∀ span kind name, n = .element span kind name none →
      name ≠ "" ∧ SpellsName tokens span.start name)
    (hmissed : ∀ m ∈ (uncommented old).head?, ¬Missed m n) :
    Draft.Resolved tokens { d with nodes := n :: old } := by
  obtain ⟨hall, hnames, hunmissed, -⟩ := h
  rw [hd] at hall hnames
  rw [Unmissed, hd, uncommented_append] at hunmissed
  refine ⟨List.forall_mem_cons.2 ⟨hevery, (List.forall_mem_append.1 hall).2⟩, ?_, ?_, ?_⟩
  · intro span kind name hmem
    rcases List.mem_cons.1 hmem with heq | hmem
    · exact hbare span kind name heq.symm
    · exact hnames span kind name (List.mem_append_right dropped hmem)
  · rw [Unmissed, uncommented_cons hn]
    exact List.isChain_cons.2 ⟨hmissed, hunmissed.right_of_append⟩
  · rw [uncommented_cons hn]
    intro m hm hmbare
    obtain rfl : n = m := by simpa using hm
    -- a bare element is what a bar right after it takes
    cases n with
    | element span kind name ns =>
      cases ns with
      | none => rfl
      | some ns => cases hmbare
    | _ => cases hmbare

/-- A node that is no element is added. -/
theorem push (h : d.Resolved tokens) (hn : ¬n.isComment) (helement : ¬n.isElement)
    (hevery : (NodeRef.node n).Every (NodeRef.Resolved tokens)) : (d.push n).Resolved tokens := by
  refine h.replace [] rfl hn hevery ?_ fun m _ hmissed => helement hmissed.isElement
  rintro span kind name rfl
  exact absurd rfl helement

theorem pushElement (h : d.Resolved tokens) (ht : t.Legible) (hmem : t ∈ tokens)
    (hk : t.kind = .text ∨ t.kind = .star) (kind : ElementKind) :
    (d.push (.element t.span kind t.text none)).Resolved tokens := by
  refine h.replace [] rfl (by simp [Node.isComment])
    ((NodeRef.every_of_childless rfl).2 trivial) ?_ fun m _ hmissed => by cases hmissed
  rintro span kind name ⟨⟩
  refine ⟨ht.nonempty, hk.elim (fun hk => ?_) fun hk => ?_⟩
  · exact .inr ⟨t, hmem, hk, rfl, rfl⟩
  · exact .inl (ht.spelled '*' (by rw [hk]; rfl))

theorem pushComment (h : d.Resolved tokens) (t : Token) :
    (d.push (.comment (.ofToken t))).Resolved tokens := by
  obtain ⟨hevery, hbare, hunmissed, hready⟩ := h
  refine ⟨List.forall_mem_cons.2 ⟨(NodeRef.every_of_isFiller rfl).2 trivial, hevery⟩, ?_,
    hunmissed, fun m hm hmbare => ?_⟩
  · intro span kind name hmem
    exact hbare span kind name (by simpa [Draft.push] using hmem)
  · exact isSome_qualifier?_comment (by simp [Comment.isSpacing, Comment.ofToken])
      (hready m hm hmbare)

/-- Blanks and combinators stay between a name and a bar. -/
theorem stepGap (h : d.Resolved tokens) (t : Token) (ts : List Token) :
    (d.stepGap t ts).draft.Resolved tokens := by
  obtain ⟨hevery, hbare, hunmissed, -⟩ := h
  generalize hg : Gap.read d.nodes.isEmpty t ts = g
  have hfiller : ∀ n ∈ g.nodes, n.isFiller := fun n hn => Gap.isFiller_of_mem_read (hg ▸ hn)
  have helement : ∀ n ∈ g.nodes, ¬n.isElement := fun n hn =>
    not_isElement_of_isFiller (hfiller n hn)
  have hhead : (uncommented g.nodes).head? = some (.combinator g.current) := by
    rw [Gap.nodes, uncommented_append, uncommented_map_comment, List.nil_append]
    rfl
  rw [Draft.stepGap, hg]
  refine ⟨List.forall_mem_append.2 ⟨fun n hn => ?_, hevery⟩, ?_, ?_, ?_⟩
  · exact (NodeRef.every_of_isFiller (hfiller n hn)).2
      (NodeRef.resolved_of_isFiller (hfiller n hn))
  · intro span kind name hmem
    rcases List.mem_append.1 hmem with hmem | hmem
    · exact absurd rfl (helement _ hmem)
    · exact hbare span kind name hmem
  · rw [Unmissed, uncommented_append]
    have hgap : ∀ n ∈ uncommented g.nodes, ¬n.isElement := fun n hn =>
      helement n (List.mem_filter.1 hn).1
    refine List.isChain_append.2 ⟨List.Pairwise.isChain ?_, hunmissed, ?_⟩
    · exact List.pairwise_of_forall_mem_list fun n hn m _ hmissed => hgap n hn hmissed.isElement
    · intro n hn m _ hmissed
      exact hgap n (List.mem_of_mem_getLast? hn) hmissed.isElement
  · rw [uncommented_append, List.head?_append, hhead]
    intro m hm hmbare
    obtain rfl : Node.combinator g.current = m := by simpa using hm
    cases hmbare

/-- A bar takes the name before it if there is one. -/
theorem stepBar (h : d.Resolved tokens) (t : Token) (hts : ∀ u ∈ ts, u.Legible) :
    (d.stepBar t ts).draft.Resolved tokens := by
  have herror := namespaceError_takeTarget (qualifier? d.nodes).isSome
    fun u hu => hts u ((takeComments_suffix ts).subset hu)
  unfold Draft.stepBar
  cases hq : qualifier? d.nodes with
  | none =>
    rw [hq] at herror
    refine h.replace [] rfl (by simp [Node.isComment])
      ((NodeRef.every_of_childless rfl).2 ⟨?_, by simp, by simp⟩) (by simp) ?_
    · simpa using herror
    · intro m hm hmissed
      have hsome := h.ready m hm hmissed.isBare
      rw [hq] at hsome
      cases hsome
  | some q =>
    rw [hq] at herror
    obtain ⟨span, kind, hstart, hnodes⟩ := nodes_of_qualifier? hq
    obtain ⟨hvalue, hspells⟩ := h.bare span kind q.value (by simp [hnodes])
    refine h.replace _ hnodes (by simp [Node.isComment])
      ((NodeRef.every_of_childless rfl).2 ⟨?_, fun _ => ?_, fun hempty => ?_⟩) (by simp) ?_
    · simpa [hvalue] using herror
    · rw [← hstart] at hspells
      exact hspells
    · exact absurd hempty hvalue
    · intro m hm hmissed
      cases hmissed with
      | mk _ _ _ _ _ _ hempty => exact absurd hempty hvalue

theorem step (h : d.Resolved tokens) (depth : Nat)
    (hts : ∀ u ∈ t :: ts, u.Legible ∧ u ∈ tokens) :
    (d.step depth t ts).draft.Resolved tokens := by
  obtain ⟨⟨ht, hmem⟩, hts⟩ := List.forall_mem_cons.1 hts
  rcases d.step_cases depth ts ht with
    ⟨kind, hk, hstep⟩ | ⟨n, rest, es, hstep, hn, helement⟩ | ⟨-, hstep⟩ | ⟨-, hstep⟩ | ⟨-, hstep⟩
  · rw [hstep]
    exact h.pushElement ht hmem hk kind
  · rw [hstep]
    have hcomment : ¬n.isComment := by cases hn <;> simp [Node.isComment]
    refine h.push hcomment helement ((NodeRef.every_of_childless hn.childless).2 ?_)
    cases hn <;> trivial
  · rw [hstep]
    exact h.pushComment t
  · rw [hstep]
    exact h.stepBar t fun u hu => (hts u hu).1
  · rw [hstep]
    exact h.stepGap t ts

theorem close (h : d.Resolved tokens) (stop : Nat) :
    (NodeRef.selector (d.close stop)).Every (NodeRef.Resolved tokens) := by
  refine NodeRef.every_selector.2 ⟨fun pre m cs n post hnodes hmissed => ?_, ?_⟩
  · obtain ⟨us, vs, hkept⟩ :=
      Selector.uncommented_trim ⟨⟨d.start, stop⟩, d.before, "", d.nodes.reverse⟩
    rw [uncommented_reverse] at hkept
    have hall := List.isChain_reverse.2 h.unmissed
    rw [← hkept] at hall
    have hchain := hall.left_of_append.right_of_append
    have hm : ¬m.isComment := by cases hmissed; simp [Node.isComment]
    have hn : ¬n.isComment := by cases hmissed; simp [Node.isComment]
    have huncommented : uncommented (d.close stop).nodes =
        uncommented pre ++ m :: n :: uncommented post := by
      rw [hnodes, uncommented_append, uncommented_cons hm, uncommented_append,
        uncommented_map_comment, List.nil_append, uncommented_cons hn]
    rw [show (Selector.trim _).nodes = (d.close stop).nodes from rfl, huncommented] at hchain
    exact (List.isChain_append_cons_cons.1 hchain).2.1 hmissed
  · exact (Selector.every_trim (fun n hn => NodeRef.resolved_of_isFiller hn) _).2
      fun n hn => h.every n (List.mem_reverse.1 hn)

end Draft.Resolved

/-- Every move of the reader keeps namespaces resolved. -/
theorem Reads.kept_resolved (tokens : List Token) :
    Reads.Kept (fun t => t.Legible ∧ t ∈ tokens) (fun _ _ => ())
      (fun _ _ _ _ d => d.Resolved tokens)
      (fun _ _ _ s => (NodeRef.selector s).Every (NodeRef.Resolved tokens)) where
  fresh _ p := .fresh p
  step h hts := h.step _ hts
  stray h _ _ _ _ :=
    h.push (by simp [Node.isComment]) (by simp [Node.isElement])
      ((NodeRef.every_of_childless rfl).2 trivial)
  expression p _ _ :=
    (Draft.Resolved.fresh p).push (by simp [Node.isComment]) (by simp [Node.isElement])
      (NodeRef.every_nth.2 ⟨trivial, fun _ _ => trivial⟩)
  owned h hd _ hlist _ _ := by
    refine h.replace [_] hd (by simp [Node.isComment]) ?_ (by simp) fun m _ hmissed => by
      cases hmissed
    refine NodeRef.every_functional.2 ⟨trivial, fun s hs => ?_⟩
    obtain ⟨i, hi⟩ := List.mem_iff_getElem?.1 hs
    exact hlist i s hi
  close h stop := h.close stop

/-- **Namespaces are resolved exactly.**  The error of a namespace says which of its sides is
missing, a namespace that is there is a star or one token of text, and one that is missing has no
comments.  No element without a namespace stands before a bar without one, not even with comments
between them. -/
theorem parse_namespaces (source : String) (offset : Nat) :
    ∀ s ∈ parse source offset,
      (NodeRef.selector s).Every (NodeRef.Resolved (tokenize source offset)) := by
  intro s hs
  obtain ⟨i, hi⟩ := List.mem_iff_getElem?.1 hs
  refine (Reads.kept_resolved (tokenize source offset)).parse () (fun t ht => ⟨?_, ht⟩) i s hi
  exact (Token.lexed_tokenize source offset).legible t ht

/-- The first bar takes the name before it, so that the second one finds none. -/
theorem parse_namespaces_chain :
    let first : Namespace := ⟨"a", [⟨⟨1, 5⟩, "/**/", "", ""⟩], [], none⟩
    let second : Namespace := ⟨"", [], [], some .noNamespace⟩
    let s : Selector := ⟨⟨0, 9⟩, "", "",
      [.element ⟨0, 7⟩ .type "b" (some first), .element ⟨7, 9⟩ .universal "*" (some second)]⟩
    s ∈ parse "a/**/|b|*" 0 ∧
      (NodeRef.selector s).Every (NodeRef.Resolved (tokenize "a/**/|b|*" 0)) := by
  intro first second s
  have hs : s ∈ parse "a/**/|b|*" 0 := by
    have hparse : parse "a/**/|b|*" 0 = [s] := by decide +kernel
    rw [hparse]
    exact List.mem_singleton_self s
  exact ⟨hs, parse_namespaces "a/**/|b|*" 0 s hs⟩

end Selectors
