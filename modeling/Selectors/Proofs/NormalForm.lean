import Mathlib.Data.List.Chain
import Selectors.Proofs.Grouping

/-!
# The normal form of grouped selectors

`Compound.Normal` says what the nodes of a grouped selector look like: no simple selector is left
on its own, every compound is formed as it should be (`Compound.Formed`), and no two compounds
could be one (`Compound.Follows`).  `Selector.GroupsTo` relates a selector to one with the same
nodes in this form, and with the same relation between the lists inside the nodes.

The form leaves no choice.  Wrapping nodes gives nodes in normal form, and wrapping the members of
nodes in normal form gives those nodes back, so that normal nodes are determined by their members
(`Compound.wrap_eq_iff`).  By induction over the tree, a selector without compounds groups to one
selector only (`group_makes_normal_form`).
-/

namespace Selectors

namespace Compound

variable {o : CompoundOptions} {n : Node} {ns ms : List Node}

/-- A compound starts with a simple selector, and simple selectors and comments without blanks come
after it; with the option, pseudo-elements come first only.  It lies where its members do, and it
is invalid if a type or universal selector comes after the first member. -/
inductive Formed (o : CompoundOptions) : Node → Prop where
  | intro {span : Span} {first : Node} {rest : List Node} {invalid : Bool}
      (hfirst : first.isSimple)
      (hrest : ∀ n ∈ rest, n.isSimple ∨ ∃ c, n = .comment c ∧ c.before = "" ∧ c.after = "")
      (hpseudo : o.splitPseudoElements → ∀ n ∈ rest, ¬n.isPseudoElement)
      (hstart : span.start = first.span.start)
      (hstop : ∀ last ∈ (first :: rest).getLast?, span.stop = last.span.stop)
      (hinvalid : invalid ↔ ∃ n ∈ rest, n.isElement) :
      Formed o (.compound span (first :: rest) invalid)

/-- What can follow a compound directly: no comment without blanks, and another compound only with
the option and if a pseudo-element starts it. -/
structure Follows (o : CompoundOptions) (n : Node) : Prop where
  comment : ¬n.isTightComment
  compound : ∀ span members invalid, n = .compound span members invalid →
    o.splitPseudoElements ∧ ∃ first ∈ members.head?, first.isPseudoElement

/-- The nodes of a grouped selector. -/
structure Normal (o : CompoundOptions) (ns : List Node) : Prop where
  simple : ∀ n ∈ ns, ¬n.isSimple
  formed : ∀ n ∈ ns, n.kind = .compound → Formed o n
  follows : ns.IsChain fun m n => m.kind = .compound → Follows o n

/-! ### What joins a compound -/

theorem joins_iff :
    n.joins o ↔
      n.isSimple ∧ ¬(o.splitPseudoElements ∧ n.isPseudoElement) ∨ n.isTightComment := by
  rw [Node.joins]
  cases n.isSimple <;> cases o.splitPseudoElements <;> cases n.isPseudoElement <;> simp

theorem isTightComment_iff :
    n.isTightComment ↔ ∃ c, n = .comment c ∧ c.before = "" ∧ c.after = "" := by
  cases n with
  | comment c => simp [Node.isTightComment, Comment.isSpacing]
  | _ => simp [Node.isTightComment]

theorem not_isPseudoElement_of_isTightComment (h : n.isTightComment) : ¬n.isPseudoElement := by
  cases n with
  | comment c => simp [Node.isPseudoElement]
  | _ => cases h

theorem not_isTightComment_of_isSimple (h : n.isSimple) : ¬n.isTightComment := by
  cases n with
  | element | functional => simp [Node.isTightComment]
  | _ => cases h

theorem joins_iff_of_isSimple (h : n.isSimple) :
    n.joins o ↔ ¬(o.splitPseudoElements ∧ n.isPseudoElement) := by
  rw [joins_iff]
  simp [h, not_isTightComment_of_isSimple h]

theorem joins_iff_of_not_isSimple (h : ¬n.isSimple) : n.joins o ↔ n.isTightComment := by
  rw [joins_iff]
  simp [h]

/-- The nodes after the first of a compound are those that join it. -/
theorem joins_iff_of_rest :
    n.joins o ↔
      (n.isSimple ∨ ∃ c, n = .comment c ∧ c.before = "" ∧ c.after = "") ∧
        (o.splitPseudoElements → ¬n.isPseudoElement) := by
  rw [joins_iff, ← isTightComment_iff]
  constructor
  · rintro (⟨hsimple, hpseudo⟩ | htight)
    · exact ⟨.inl hsimple, fun ho hp => hpseudo ⟨ho, hp⟩⟩
    · exact ⟨.inr htight, fun _ => not_isPseudoElement_of_isTightComment htight⟩
  · rintro ⟨hsimple | htight, hpseudo⟩
    · exact .inl ⟨hsimple, fun h => hpseudo h.1 h.2⟩
    · exact .inr htight

theorem isInvalid_iff (rest : List Node) : isInvalid rest ↔ ∃ n ∈ rest, n.isElement :=
  List.any_eq_true

/-- The compounds that are formed as they should be are those that grouping makes. -/
theorem formed_iff :
    Formed o n ↔
      ∃ first rest, n = ofMembers first rest ∧ first.isSimple ∧ ∀ m ∈ rest, m.joins o := by
  constructor
  · intro h
    cases h with
    | @intro span first rest invalid hfirst hrest hpseudo hstart hstop hinvalid =>
      refine ⟨first, rest, ?_, hfirst, fun m hm => ?_⟩
      · have hlast := hstop _ (List.getLast?_cons (a := first) (l := rest))
        have hflag : invalid = isInvalid rest :=
          Bool.eq_iff_iff.2 (hinvalid.trans (isInvalid_iff rest).symm)
        rw [ofMembers, hflag, ← hstart, ← hlast]
      · exact joins_iff_of_rest.2 ⟨hrest m hm, fun ho => hpseudo ho m hm⟩
  · rintro ⟨first, rest, rfl, hfirst, hrest⟩
    refine .intro hfirst (fun m hm => (joins_iff_of_rest.1 (hrest m hm)).1)
      (fun ho m hm => (joins_iff_of_rest.1 (hrest m hm)).2 ho) rfl ?_ (isInvalid_iff rest)
    intro last hlast
    rw [List.getLast?_cons, Option.mem_some_iff] at hlast
    rw [← hlast]

/-- What can follow a compound directly is what its first member can not join. -/
theorem follows_iff (hsimple : ¬n.isSimple) (hformed : n.kind = .compound → Formed o n) :
    Follows o n ↔ ∀ m ∈ (members n).head?, ¬m.joins o := by
  by_cases hn : n.kind = .compound
  · obtain ⟨first, rest, rfl, hfirst, -⟩ := formed_iff.1 (hformed hn)
    have hjoins := joins_iff_of_isSimple (o := o) hfirst
    constructor
    · rintro ⟨-, hcompound⟩ m hm
      obtain rfl := Option.some.inj hm
      obtain ⟨ho, p, hp, hpseudo⟩ := hcompound _ _ _ rfl
      obtain rfl := Option.some.inj hp
      exact fun hj => hjoins.1 hj ⟨ho, hpseudo⟩
    · intro h
      have hpseudo := not_not.1 (mt hjoins.2 (h first rfl))
      refine ⟨by simp [ofMembers, Node.isTightComment], ?_⟩
      rintro _ _ _ ⟨⟩
      exact ⟨hpseudo.1, first, rfl, hpseudo.2⟩
  · rw [Node.members_eq hn]
    have hjoins := joins_iff_of_not_isSimple (o := o) hsimple
    constructor
    · rintro ⟨hcomment, -⟩ m hm
      obtain rfl := Option.some.inj hm
      exact fun hj => hcomment (hjoins.1 hj)
    · intro h
      refine ⟨fun hc => h n rfl (hjoins.2 hc), ?_⟩
      rintro _ _ _ rfl
      exact absurd rfl hn

end Compound

/-! ### Wrapping gives the normal form -/

namespace Compound

variable {o : CompoundOptions} {n : Node} {ns ms : List Node}

theorem normal_nil : Normal o [] := ⟨by simp, by simp, .nil⟩

/-- A node is added behind the others; if the last one is a compound, nothing of it joins that. -/
theorem Normal.concat (h : Normal o ns) (hsimple : ¬n.isSimple)
    (hformed : n.kind = .compound → Formed o n)
    (hapart : ∀ m ∈ ns.getLast?, m.kind = .compound → ∀ k ∈ (members n).head?, ¬k.joins o) :
    Normal o (ns ++ [n]) := by
  refine ⟨?_, ?_, ?_⟩
  · exact List.forall_mem_append.2 ⟨h.simple, by simpa using hsimple⟩
  · exact List.forall_mem_append.2 ⟨h.formed, by simpa using hformed⟩
  · refine List.isChain_append.2 ⟨h.follows, .singleton n, fun m hm k hk => ?_⟩
    obtain rfl := Option.some.inj hk
    exact fun hcompound => (follows_iff hsimple hformed).2 (hapart m hm hcompound)

end Compound

namespace Grouping

variable {o : CompoundOptions} {g : Grouping} {n : Node} {ns : List Node}

/-- The nodes taken so far are in normal form, and so is the compound being formed behind them. -/
structure Normal (o : CompoundOptions) (g : Grouping) : Prop where
  settled : Compound.Normal o g.settled.reverse
  /-- The last compound is settled only with a node behind it. -/
  last : g.run = [] → ∀ m ∈ g.settled.head?, m.kind ≠ .compound
  run : ∀ first rest, g.run.reverse = first :: rest →
    first.isSimple ∧ (∀ m ∈ rest, m.joins o) ∧
      ∀ m ∈ g.settled.head?, m.kind = .compound → ¬first.joins o

theorem normal_empty : Normal o {} := ⟨Compound.normal_nil, by simp, by simp⟩

theorem Normal.close (h : g.Normal o) : Compound.Normal o g.close.settled.reverse := by
  unfold Grouping.close
  split
  · exact h.settled
  · rename_i first rest hrun
    obtain ⟨hfirst, hrest, hlast⟩ := h.run first rest hrun
    have hformed : Compound.Formed o (Compound.ofMembers first rest) :=
      Compound.formed_iff.2 ⟨first, rest, rfl, hfirst, hrest⟩
    rw [List.reverse_cons]
    refine h.settled.concat (by simp [Compound.ofMembers, Node.isSimple]) (fun _ => hformed) ?_
    rw [List.getLast?_reverse]
    intro m hm hcompound k hk
    obtain rfl := Option.some.inj hk
    exact hlast m hm hcompound

/-- A node that does not go on with the compound being formed does not join the compound before
it. -/
theorem Normal.not_joins (h : g.Normal o) (hn : ¬(!g.run.isEmpty && n.joins o)) :
    ∀ m ∈ g.close.settled.head?, m.kind = .compound → ¬n.joins o := by
  intro m hm hk hjoins
  by_cases hrun : g.run = []
  · have hclose : g.close = g := by simp [Grouping.close, hrun]
    rw [hclose] at hm
    exact h.last hrun m hm hk
  · exact hn (by simp [hrun, hjoins])

theorem Normal.push (h : g.Normal o) (hn : n.kind ≠ .compound) : (g.push o n).Normal o := by
  unfold Grouping.push
  split
  · rename_i hjoins
    obtain ⟨hrun, hj⟩ := Bool.and_eq_true_iff.1 hjoins
    refine ⟨h.settled, by simp, fun first rest hfirst => ?_⟩
    rw [List.reverse_cons] at hfirst
    cases hr : g.run.reverse with
    | nil => simp [List.reverse_eq_nil_iff.1 hr] at hrun
    | cons a as =>
      rw [hr, List.cons_append, List.cons.injEq] at hfirst
      obtain ⟨rfl, rfl⟩ := hfirst
      obtain ⟨hsimple, has, hlast⟩ := h.run a as hr
      exact ⟨hsimple, List.forall_mem_append.2 ⟨has, by simpa using hj⟩, hlast⟩
  · rename_i hjoins
    have hlast := h.not_joins hjoins
    split
    · rename_i hsimple
      refine ⟨h.close, by simp, fun first rest hfirst => ?_⟩
      rw [List.reverse_singleton, List.cons.injEq] at hfirst
      obtain ⟨rfl, rfl⟩ := hfirst
      exact ⟨hsimple, by simp, hlast⟩
    · rename_i hsimple
      refine ⟨?_, ?_, ?_⟩
      · rw [List.reverse_cons]
        refine h.close.concat hsimple (fun hcompound => absurd hcompound hn) ?_
        rw [List.getLast?_reverse, Node.members_eq hn]
        intro m hm hcompound k hk
        obtain rfl := Option.some.inj hk
        exact hlast m hm hcompound
      · intro _ m hm
        obtain rfl := Option.some.inj hm
        exact hn
      · simp [g.run_close]

theorem Normal.foldl (h : g.Normal o) (hns : ∀ n ∈ ns, n.kind ≠ .compound) :
    (ns.foldl (Grouping.push o) g).Normal o := by
  induction ns generalizing g with
  | nil => exact h
  | cons n ns ih =>
    obtain ⟨hn, hns⟩ := List.forall_mem_cons.1 hns
    exact ih (h.push hn) hns

/-! ### The normal form is determined by the members -/

/-- Nodes that join the compound being formed all go into it. -/
theorem foldl_joins (hrun : g.run ≠ []) (h : ∀ n ∈ ns, n.joins o) :
    ns.foldl (push o) g = { g with run := ns.reverse ++ g.run } := by
  induction ns generalizing g with
  | nil => rfl
  | cons n ns ih =>
    obtain ⟨hn, hns⟩ := List.forall_mem_cons.1 h
    have hpush : g.push o n = { g with run := n :: g.run } := by
      simp [push, hrun, hn]
    rw [List.foldl_cons, hpush, ih (by simp) hns]
    simp

/-- The members of a node in normal form become that node again. -/
theorem foldl_members (hsimple : ¬n.isSimple) (hformed : n.kind = .compound → Compound.Formed o n)
    (hfollows : g.run ≠ [] → Compound.Follows o n) :
    ((Compound.members n).foldl (push o) g).close.settled = n :: g.close.settled ∧
      (((Compound.members n).foldl (push o) g).run ≠ [] → n.kind = .compound) := by
  have hapart : ∀ m ∈ (Compound.members n).head?, ¬(!g.run.isEmpty && m.joins o) := by
    intro m hm hjoins
    obtain ⟨hrun, hj⟩ := Bool.and_eq_true_iff.1 hjoins
    exact (Compound.follows_iff hsimple hformed).1 (hfollows (by simpa using hrun)) m hm hj
  by_cases hn : n.kind = .compound
  · obtain ⟨first, rest, rfl, hfirst, hrest⟩ := Compound.formed_iff.1 (hformed hn)
    refine ⟨?_, fun _ => hn⟩
    have hpush : g.push o first = { g.close with run := [first] } := by
      rw [push, if_neg (hapart first rfl), if_pos hfirst]
    rw [Compound.ofMembers, Compound.members, List.foldl_cons, hpush, foldl_joins (by simp) hrest]
    simp [close, Compound.ofMembers]
  · have hpush : g.push o n = { run := [], settled := n :: g.close.settled } := by
      rw [push, if_neg (hapart n (by rw [Node.members_eq hn]; rfl)), if_neg hsimple]
      simp only [g.run_close]
    rw [Node.members_eq hn, List.foldl_cons, List.foldl_nil, hpush]
    exact ⟨rfl, fun hrun => absurd rfl hrun⟩

theorem foldl_flatMap_members (h : Compound.Normal o ns)
    (hfollows : g.run ≠ [] → ∀ n ∈ ns.head?, Compound.Follows o n) :
    ((ns.flatMap Compound.members).foldl (push o) g).close.settled =
      ns.reverse ++ g.close.settled := by
  induction ns generalizing g with
  | nil => rfl
  | cons n ns ih =>
    obtain ⟨hsimple, hsimples⟩ := List.forall_mem_cons.1 h.simple
    obtain ⟨hformed, hformeds⟩ := List.forall_mem_cons.1 h.formed
    obtain ⟨hnext, hchain⟩ := List.isChain_cons.1 h.follows
    obtain ⟨hsettled, hrun⟩ :=
      foldl_members (g := g) hsimple hformed fun hr => hfollows hr n rfl
    rw [List.flatMap_cons, List.foldl_append,
      ih ⟨hsimples, hformeds, hchain⟩ fun hr m hm => hnext m hm (hrun hr), hsettled]
    simp

end Grouping

namespace Compound

variable {o : CompoundOptions} {ns ms : List Node}

theorem flatMap_members_wrap (h : ∀ n ∈ ns, n.kind ≠ .compound) :
    (wrap o ns).flatMap members = ns := by
  have hopen : Unwrapping (·.flatMap members) id :=
    ⟨fun _ _ => List.flatMap_append, fun _ _ => rfl, fun _ _ => by simp [ofMembers, members]⟩
  exact hopen.outer_wrap o fun n hn => by simp [Node.members_eq (h n hn)]

/-- **Normal nodes are determined by their members**: they are those that wrapping the members
gives. -/
theorem wrap_eq_iff (h : ∀ n ∈ ns, n.kind ≠ .compound) :
    ms = wrap o ns ↔ ms.flatMap members = ns ∧ Normal o ms := by
  constructor
  · rintro rfl
    exact ⟨flatMap_members_wrap h, (Grouping.normal_empty.foldl h).close⟩
  · rintro ⟨rfl, hnormal⟩
    rw [wrap, Grouping.foldl_flatMap_members hnormal (by simp)]
    simp [Grouping.close]

end Compound

/-! ### Whole trees -/

mutual

/-- The second selector has the nodes of the first, in the normal form.  Both lie in the same place
and keep the same blanks. -/
def Selector.GroupsTo (o : CompoundOptions) : Selector → Selector → Prop
  | ⟨span, before, after, nodes⟩, s =>
    s.span = span ∧ s.before = before ∧ s.after = after ∧
      Node.GroupsToAll o nodes (s.nodes.flatMap Compound.members) ∧ Compound.Normal o s.nodes

/-- The second node is the first one but for its list, which is grouped. -/
def Node.GroupsTo (o : CompoundOptions) : Node → Node → Prop
  | .functional span sigil name args, n =>
    ∃ args', n = .functional span sigil name args' ∧ Selector.GroupsToArguments o args args'
  | .element span kind name ns, n => n = .element span kind name ns
  | .combinator c, n => n = .combinator c
  | .comment c, n => n = .comment c
  | .invalid span text, n => n = .invalid span text
  | .nth e, n => n = .nth e
  | .compound _ _ _, _ => False

/-- The nodes of one list group to those of the other, one by one. -/
def Node.GroupsToAll (o : CompoundOptions) : List Node → List Node → Prop
  | [], [] => True
  | n :: ns, m :: ms => n.GroupsTo o m ∧ Node.GroupsToAll o ns ms
  | _, _ => False

/-- There are no lists, or one groups to the other. -/
def Selector.GroupsToArguments (o : CompoundOptions) :
    Option (List Selector) → Option (List Selector) → Prop
  | none, none => True
  | some ss, some ts => Selector.GroupsToEach o ss ts
  | _, _ => False

/-- The selectors of one list group to those of the other, one by one. -/
def Selector.GroupsToEach (o : CompoundOptions) : List Selector → List Selector → Prop
  | [], [] => True
  | s :: ss, t :: ts => s.GroupsTo o t ∧ Selector.GroupsToEach o ss ts
  | _, _ => False

end

mutual

theorem Selector.groupsTo_iff (o : CompoundOptions) :
    ∀ s : Selector, (NodeRef.selector s).Flat → ∀ t, s.GroupsTo o t ↔ t = s.group o
  | ⟨span, before, after, nodes⟩, h, ⟨span', before', after', nodes'⟩ => by
    have hflat := (NodeRef.every_selector.1 h).2
    have hgrouped : ∀ n ∈ Node.groupAll o nodes, n.kind ≠ .compound := by
      rw [Node.groupAll_eq_map]
      refine List.forall_mem_map.2 fun n hn => ?_
      rw [Node.kind_group]
      exact (hflat n hn).self
    rw [Selector.GroupsTo, Node.groupsToAll_iff o nodes hflat, ← Compound.wrap_eq_iff hgrouped,
      Selector.group, Selector.mk.injEq]

theorem Node.groupsTo_iff (o : CompoundOptions) :
    ∀ n : Node, (NodeRef.node n).Flat → ∀ m, n.GroupsTo o m ↔ m = n.group o
  | .functional span sigil name args, h, m => by
    have hargs := Selector.groupsToArguments_iff o args ?_
    · simp only [Node.GroupsTo, hargs, Node.group, exists_eq_right]
    · rintro list rfl
      exact (NodeRef.every_functional.1 h).2
  | .compound _ _ _, h, _ => absurd rfl h.self
  | .element _ _ _ _, _, _ => by rw [Node.GroupsTo, Node.group]
  | .combinator _, _, _ => by rw [Node.GroupsTo, Node.group]
  | .comment _, _, _ => by rw [Node.GroupsTo, Node.group]
  | .invalid _ _, _, _ => by rw [Node.GroupsTo, Node.group]
  | .nth _, _, _ => by rw [Node.GroupsTo, Node.group]

theorem Node.groupsToAll_iff (o : CompoundOptions) :
    ∀ ns : List Node, (∀ n ∈ ns, (NodeRef.node n).Flat) →
      ∀ ms, Node.GroupsToAll o ns ms ↔ ms = Node.groupAll o ns
  | [], _, [] | [], _, _ :: _ | _ :: _, _, [] => by simp [Node.GroupsToAll, Node.groupAll]
  | n :: ns, h, m :: ms => by
    rw [Node.GroupsToAll, Node.groupAll, Node.groupsTo_iff o n (h n (List.mem_cons_self ..)),
      Node.groupsToAll_iff o ns fun k hk => h k (List.mem_cons_of_mem n hk), List.cons.injEq]

theorem Selector.groupsToArguments_iff (o : CompoundOptions) :
    ∀ args : Option (List Selector),
      (∀ list, args = some list → ∀ s ∈ list, (NodeRef.selector s).Flat) →
      ∀ args', Selector.GroupsToArguments o args args' ↔ args' = Selector.groupArguments o args
  | none, _, none | none, _, some _ | some _, _, none => by
    simp [Selector.GroupsToArguments, Selector.groupArguments]
  | some ss, h, some ts => by
    rw [Selector.GroupsToArguments, Selector.groupArguments,
      Selector.groupsToEach_iff o ss (h ss rfl), Option.some.injEq]

theorem Selector.groupsToEach_iff (o : CompoundOptions) :
    ∀ ss : List Selector, (∀ s ∈ ss, (NodeRef.selector s).Flat) →
      ∀ ts, Selector.GroupsToEach o ss ts ↔ ts = Selector.groupAll o ss
  | [], _, [] | [], _, _ :: _ | _ :: _, _, [] => by
    simp [Selector.GroupsToEach, Selector.groupAll]
  | s :: ss, h, t :: ts => by
    rw [Selector.GroupsToEach, Selector.groupAll,
      Selector.groupsTo_iff o s (h s (List.mem_cons_self ..)),
      Selector.groupsToEach_iff o ss fun u hu => h u (List.mem_cons_of_mem s hu), List.cons.injEq]

end

/-- **Grouping makes the normal form**, and nothing else has it: a selector without compounds groups
to the selector that grouping makes, and to that one only. -/
theorem group_makes_normal_form (o : CompoundOptions) (s : Selector)
    (h : (NodeRef.selector s).Flat) :
    s.GroupsTo o (s.group o) ∧ ∀ t, s.GroupsTo o t → t = s.group o :=
  ⟨(s.groupsTo_iff o h _).2 rfl, fun t => (s.groupsTo_iff o h t).1⟩

theorem group_makes_normal_form_nested :
    let inner : Selector := ⟨⟨4, 9⟩, "", "", [.functional ⟨4, 7⟩ (.colons [] []) "b" none,
      .functional ⟨7, 9⟩ .hash "c" none]⟩
    let s : Selector := ⟨⟨0, 15⟩, "", "", [.functional ⟨0, 10⟩ (.colon []) "is" (some [inner]),
      .comment ⟨⟨10, 14⟩, "/**/", "", ""⟩, .element ⟨14, 15⟩ .type "d" none]⟩
    (NodeRef.selector s).Flat ∧ s.GroupsTo {} (s.group {}) ∧
      ∀ t, s.GroupsTo {} t → t = s.group {} := by
  intro inner s
  have hinner : (NodeRef.selector inner).Flat := by
    refine NodeRef.every_selector.2 ⟨by decide, ?_⟩
    refine List.forall_mem_cons.2 ⟨(NodeRef.every_of_childless rfl).2 (by decide), ?_⟩
    exact List.forall_mem_singleton.2 ((NodeRef.every_of_childless rfl).2 (by decide))
  have hs : (NodeRef.selector s).Flat := by
    refine NodeRef.every_selector.2 ⟨by decide, ?_⟩
    refine List.forall_mem_cons.2
      ⟨NodeRef.every_functional.2 ⟨by decide, List.forall_mem_singleton.2 hinner⟩, ?_⟩
    refine List.forall_mem_cons.2 ⟨(NodeRef.every_of_childless rfl).2 (by decide), ?_⟩
    exact List.forall_mem_singleton.2 ((NodeRef.every_of_childless rfl).2 (by decide))
  exact ⟨hs, group_makes_normal_form {} s hs⟩

end Selectors
