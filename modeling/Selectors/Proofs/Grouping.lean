import Mathlib.Data.List.Forall2
import Selectors.Compound
import Selectors.Proofs.Items

/-!
# Grouping and splitting

Grouping wraps runs of simple selectors at every depth, after grouping inside them, and splitting
takes the wrappers off again.  While the nodes of one selector are grouped, no node is lost or
moved, whether it went into a compound or not: `Grouping.held_push` says so for one node, and
`Unwrapping.outer_wrap` for all of them.  By induction over the tree, splitting undoes grouping on
trees that hold no compound (`split_undoes_group`).

`Grouping.Keeps` lists what is to be shown of a relation between grouped items and the items they
come from; the induction over the tree is made once for all such relations.
-/

namespace Selectors

/-- No compound stands at or below the item. -/
def NodeRef.Flat (r : NodeRef) : Prop := r.Every fun x => x.kind ≠ .compound

namespace Node

theorem groupAll_eq_map (o : CompoundOptions) (ns : List Node) :
    groupAll o ns = ns.map (group o) := by
  induction ns with
  | nil => rfl
  | cons n ns ih => rw [groupAll, ih, List.map_cons]

theorem splitAll_eq_map (ns : List Node) : splitAll ns = ns.map split := by
  induction ns with
  | nil => rfl
  | cons n ns ih => rw [splitAll, ih, List.map_cons]

theorem kind_split (n : Node) : n.split.kind = n.kind := by
  cases n <;> rfl

theorem kind_group (o : CompoundOptions) (n : Node) : (n.group o).kind = n.kind := by
  cases n <;> rfl

theorem members_eq {n : Node} (h : n.kind ≠ .compound) : Compound.members n = [n] := by
  cases n with
  | compound => exact absurd rfl h
  | _ => rfl

theorem splitOpen_append (ns ms : List Node) :
    splitOpen (ns ++ ms) = splitOpen ns ++ splitOpen ms := by
  induction ns with
  | nil => rfl
  | cons n ns ih => rw [List.cons_append, splitOpen, splitOpen, ih, List.append_assoc]

end Node

/-! ### The nodes of one selector -/

/-- Two ways to flatten nodes: the outer one opens a compound and flattens its members by the inner
one. -/
structure Unwrapping (outer inner : List Node → List Node) : Prop where
  outer_append (ns ms : List Node) : outer (ns ++ ms) = outer ns ++ outer ms
  inner_append (ns ms : List Node) : inner (ns ++ ms) = inner ns ++ inner ms
  outer_ofMembers (first : Node) (rest : List Node) :
    outer [Compound.ofMembers first rest] = inner (first :: rest)

namespace Unwrapping

variable {outer inner : List Node → List Node}

theorem outer_nil (hopen : Unwrapping outer inner) : outer [] = [] :=
  List.append_right_eq_self.1 (hopen.outer_append [] []).symm

theorem inner_nil (hopen : Unwrapping outer inner) : inner [] = [] :=
  List.append_right_eq_self.1 (hopen.inner_append [] []).symm

end Unwrapping

namespace Grouping

variable {outer inner : List Node → List Node} {o : CompoundOptions} {g : Grouping}

/-- The nodes taken so far, flattened. -/
def held (outer inner : List Node → List Node) (g : Grouping) : List Node :=
  outer g.settled.reverse ++ inner g.run.reverse

/-- A compound that ends holds the members that it was formed of. -/
theorem held_close (hopen : Unwrapping outer inner) (g : Grouping) :
    outer g.close.settled.reverse = g.held outer inner := by
  unfold close held
  split
  · rename_i hrun
    rw [hrun, hopen.inner_nil, List.append_nil]
  · rename_i first rest hrun
    rw [hrun, List.reverse_cons, hopen.outer_append, hopen.outer_ofMembers]

theorem run_close (g : Grouping) : g.close.run = [] := by
  unfold close
  split
  · rename_i hrun
    exact List.reverse_eq_nil_iff.1 hrun
  · rfl

/-- One more node is held behind the others, wherever it goes. -/
theorem held_push (hopen : Unwrapping outer inner) {n : Node} (h : outer [n] = inner [n]) :
    (g.push o n).held outer inner = g.held outer inner ++ inner [n] := by
  unfold push
  split
  · simp only [held, List.reverse_cons, hopen.inner_append, List.append_assoc]
  · split
    · rw [held, held_close hopen]
      rfl
    · simp only [held, List.reverse_cons, hopen.outer_append, held_close hopen, h, g.run_close,
        List.reverse_nil, hopen.inner_nil, List.append_nil]

theorem held_foldl (hopen : Unwrapping outer inner) {ns : List Node}
    (h : ∀ n ∈ ns, outer [n] = inner [n]) :
    (ns.foldl (push o) g).held outer inner = g.held outer inner ++ inner ns := by
  induction ns generalizing g with
  | nil =>
    rw [hopen.inner_nil, List.append_nil]
    rfl
  | cons n ns ih =>
    rw [List.foldl_cons, ih fun m hm => h m (List.mem_cons_of_mem n hm),
      held_push hopen (h n (List.mem_cons_self ..)), List.append_assoc, ← hopen.inner_append]
    rfl

end Grouping

/-- Wrapping runs of nodes only puts wrappers around them. -/
theorem Unwrapping.outer_wrap {outer inner : List Node → List Node} (hopen : Unwrapping outer inner)
    (o : CompoundOptions) {ns : List Node} (h : ∀ n ∈ ns, outer [n] = inner [n]) :
    outer (Compound.wrap o ns) = inner ns := by
  rw [Compound.wrap, Grouping.held_close hopen, Grouping.held_foldl hopen h, Grouping.held,
    List.reverse_nil, hopen.outer_nil, hopen.inner_nil]
  rfl

theorem Node.unwrapping_split : Unwrapping splitOpen splitAll where
  outer_append := splitOpen_append
  inner_append ns ms := by rw [splitAll_eq_map, splitAll_eq_map, splitAll_eq_map, List.map_append]
  outer_ofMembers first rest := List.append_nil _

/-- **Splitting takes off the wrappers** around nodes that are no compounds themselves. -/
theorem Node.splitOpen_wrap (o : CompoundOptions) {ns : List Node}
    (h : ∀ n ∈ ns, n.kind ≠ .compound) : splitOpen (Compound.wrap o ns) = splitAll ns := by
  refine unwrapping_split.outer_wrap o fun n hn => ?_
  have hsplit : n.split.kind ≠ .compound := by
    rw [kind_split]
    exact h n hn
  rw [splitOpen, members_eq hsplit]
  rfl

/-! ### Whole trees -/

/-- Relations between what was grouped and what it comes from, `S` for selectors and `N` for nodes,
that hold of an item when they hold of the items directly under it. -/
structure Grouping.Keeps (o : CompoundOptions) (S : Selector → Selector → Prop)
    (N : Node → Node → Prop) : Prop where
  /-- Nodes that hold nothing to be grouped stay as they are. -/
  leaf (n : Node) (h : ∀ o, n.group o = n) : N n n
  functional {list' list : List Selector} (h : List.Forall₂ S list' list) (span : Span)
    (sigil : Sigil) (name : String) :
    N (.functional span sigil name (some list')) (.functional span sigil name (some list))
  compound {ns' ns : List Node} (h : List.Forall₂ N ns' ns) (span : Span) (invalid : Bool) :
    N (.compound span ns' invalid) (.compound span ns invalid)
  /-- The nodes of a selector are wrapped. -/
  wrap {ns' ns : List Node} (h : List.Forall₂ N ns' ns) (span : Span) (before after : String) :
    S ⟨span, before, after, Compound.wrap o ns'⟩ ⟨span, before, after, ns⟩

namespace Grouping.Keeps

variable {o : CompoundOptions} {S : Selector → Selector → Prop} {N : Node → Node → Prop}

mutual

/-- **A relation that each item has from the items under it, grouping keeps.** -/
theorem selector (hK : Keeps o S N) : ∀ s : Selector, S (s.group o) s
  | ⟨span, before, after, nodes⟩ => hK.wrap (nodesAll hK nodes) span before after

theorem node (hK : Keeps o S N) : ∀ n : Node, N (n.group o) n
  | .functional span sigil name (some list) =>
    hK.functional (selectorsAll hK list) span sigil name
  | .compound span nodes invalid => hK.compound (nodesAll hK nodes) span invalid
  | .functional _ _ _ none | .element .. | .combinator _ | .comment _ | .invalid _ _ | .nth _ =>
    hK.leaf _ fun _ => rfl

theorem nodesAll (hK : Keeps o S N) :
    ∀ ns : List Node, List.Forall₂ N (Node.groupAll o ns) ns
  | [] => .nil
  | n :: ns => .cons (node hK n) (nodesAll hK ns)

theorem selectorsAll (hK : Keeps o S N) :
    ∀ list : List Selector, List.Forall₂ S (Selector.groupAll o list) list
  | [] => .nil
  | s :: ss => .cons (selector hK s) (selectorsAll hK ss)

end

end Grouping.Keeps

mutual

theorem Selector.split_group (o : CompoundOptions) :
    ∀ s : Selector, (NodeRef.selector s).Flat → (s.group o).split = s
  | ⟨span, before, after, nodes⟩, h => by
    have hflat := (NodeRef.every_selector.1 h).2
    have hgrouped : ∀ n ∈ Node.groupAll o nodes, n.kind ≠ .compound := by
      rw [Node.groupAll_eq_map]
      refine List.forall_mem_map.2 fun n hn => ?_
      rw [Node.kind_group]
      exact (hflat n hn).self
    rw [Selector.group, Selector.split, Node.splitOpen_wrap o hgrouped,
      Node.splitAll_groupAll o nodes hflat]

theorem Node.split_group (o : CompoundOptions) :
    ∀ n : Node, (NodeRef.node n).Flat → (n.group o).split = n
  | .functional span sigil name args, h => by
    rw [Node.group, Node.split, Selector.splitArguments_groupArguments o args ?_]
    rintro list rfl
    exact (NodeRef.every_functional.1 h).2
  | .compound _ _ _, h => absurd rfl h.self
  | .element _ _ _ _, _ => rfl
  | .combinator _, _ => rfl
  | .comment _, _ => rfl
  | .invalid _ _, _ => rfl
  | .nth _, _ => rfl

theorem Node.splitAll_groupAll (o : CompoundOptions) :
    ∀ ns : List Node, (∀ n ∈ ns, (NodeRef.node n).Flat) →
      Node.splitAll (Node.groupAll o ns) = ns
  | [], _ => rfl
  | n :: ns, h => by
    rw [Node.groupAll, Node.splitAll, Node.split_group o n (h n (List.mem_cons_self ..)),
      Node.splitAll_groupAll o ns fun m hm => h m (List.mem_cons_of_mem n hm)]

theorem Selector.splitArguments_groupArguments (o : CompoundOptions) :
    ∀ args : Option (List Selector),
      (∀ list, args = some list → ∀ s ∈ list, (NodeRef.selector s).Flat) →
      Selector.splitArguments (Selector.groupArguments o args) = args
  | none, _ => rfl
  | some list, h => by
    rw [Selector.groupArguments, Selector.splitArguments,
      Selector.splitEach_groupAll o list (h list rfl)]

theorem Selector.splitEach_groupAll (o : CompoundOptions) :
    ∀ list : List Selector, (∀ s ∈ list, (NodeRef.selector s).Flat) →
      Selector.splitEach (Selector.groupAll o list) = list
  | [], _ => rfl
  | s :: ss, h => by
    rw [Selector.groupAll, Selector.splitEach, Selector.split_group o s (h s (List.mem_cons_self ..)),
      Selector.splitEach_groupAll o ss fun t ht => h t (List.mem_cons_of_mem s ht)]

end

/-- **Splitting undoes grouping** on every tree without compounds, whatever its shape and whatever
the options. -/
theorem split_undoes_group (o : CompoundOptions) :
    (∀ list : List Selector, (∀ s ∈ list, (NodeRef.selector s).Flat) →
        Selector.splitEach (Selector.groupAll o list) = list) ∧
      (∀ s : Selector, (NodeRef.selector s).Flat → (s.group o).split = s) ∧
      ∀ n : Node, (NodeRef.node n).Flat → (n.group o).split = n :=
  ⟨Selector.splitEach_groupAll o, Selector.split_group o, Node.split_group o⟩

theorem split_undoes_group_nested :
    let inner : Selector := ⟨⟨5, 12⟩, "", "", [.element ⟨5, 6⟩ .type "b" none,
      .comment ⟨⟨6, 10⟩, "/**/", "", ""⟩, .functional ⟨10, 12⟩ .hash "c" none]⟩
    let n : Node := .functional ⟨1, 13⟩ (.colon []) "is" (some [inner])
    let s : Selector := ⟨⟨0, 16⟩, "", "", [.element ⟨0, 1⟩ .type "a" none, n,
      .functional ⟨13, 16⟩ (.colons [] []) "d" none]⟩
    (NodeRef.selector s).Flat ∧ (NodeRef.node n).Flat ∧
      Selector.splitEach (Selector.groupAll {} [s]) = [s] ∧ (s.group {}).split = s ∧
      (n.group {}).split = n := by
  intro inner n s
  have hinner : (NodeRef.selector inner).Flat := by
    refine NodeRef.every_selector.2 ⟨by decide, ?_⟩
    simp only [inner, List.forall_mem_cons, List.not_mem_nil, false_implies, implies_true, and_true]
    exact ⟨(NodeRef.every_of_childless rfl).2 (by decide),
      (NodeRef.every_of_childless rfl).2 (by decide), (NodeRef.every_of_childless rfl).2 (by decide)⟩
  have hn : (NodeRef.node n).Flat :=
    NodeRef.every_functional.2 ⟨by decide, List.forall_mem_singleton.2 hinner⟩
  have hs : (NodeRef.selector s).Flat := by
    refine NodeRef.every_selector.2 ⟨by decide, ?_⟩
    simp only [s, List.forall_mem_cons, List.not_mem_nil, false_implies, implies_true, and_true]
    exact ⟨(NodeRef.every_of_childless rfl).2 (by decide), hn,
      (NodeRef.every_of_childless rfl).2 (by decide)⟩
  obtain ⟨hlist, hselector, hnode⟩ := split_undoes_group {}
  exact ⟨hs, hn, hlist [s] (List.forall_mem_singleton.2 hs), hselector s hs, hnode n hn⟩

end Selectors
