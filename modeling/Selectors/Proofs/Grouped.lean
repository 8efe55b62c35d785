import Selectors.Proofs.Grouping

/-!
# Grouped trees

A tree is grouped when no selector in it, at any depth, has a simple selector for a node of its own:
each one is a member of a compound (`NodeRef.Grouped`).  The options play no part in this.  They say
which nodes go on with a compound being formed, and only a simple selector starts one, so that
nothing is formed of the nodes of a grouped selector (`Compound.wrap_eq_self`).

* `Selector.group_eq_self_iff`: the grouped trees are those that grouping leaves as they are.
* `Grouping.makes_grouped`: what grouping makes of any tree is grouped.

Hence grouping a second time changes nothing, with other options neither (`group_idempotent`).
-/

namespace Selectors

/-- No simple selector stands directly in a selector, at or below the item. -/
def NodeRef.Grouped (r : NodeRef) : Prop :=
  r.Every fun x => ∀ s, x = .selector s → ∀ n ∈ s.nodes, ¬n.isSimple

theorem NodeRef.grouped_selector {s : Selector} :
    (selector s).Grouped ↔ ∀ n ∈ s.nodes, ¬n.isSimple ∧ (node n).Grouped := by
  simp only [Grouped, every_selector, selector.injEq, forall_eq', ← forall₂_and]

theorem NodeRef.grouped_functional {span : Span} {sigil : Sigil} {name : String}
    {list : List Selector} :
    (node (.functional span sigil name (some list))).Grouped ↔
      ∀ s ∈ list, (selector s).Grouped := by
  simp [Grouped, every_functional]

theorem NodeRef.grouped_compound {span : Span} {ns : List Node} {invalid : Bool} :
    (node (.compound span ns invalid)).Grouped ↔ ∀ n ∈ ns, (node n).Grouped := by
  simp [Grouped, every_compound]

/-! ### The nodes of one selector -/

/-- Nodes that are no simple selectors are settled one by one. -/
theorem Grouping.foldl_push_settled (o : CompoundOptions) {ns : List Node}
    (h : ∀ n ∈ ns, ¬n.isSimple) (settled : List Node) :
    ns.foldl (push o) { settled } = { settled := ns.reverse ++ settled } := by
  induction ns generalizing settled with
  | nil => rfl
  | cons n ns ih =>
    obtain ⟨hn, hns⟩ := List.forall_mem_cons.1 h
    have hpush : push o { settled } n = { settled := n :: settled } := by
      simp [push, close, hn]
    rw [List.foldl_cons, hpush, ih hns, List.reverse_cons, List.append_assoc]
    rfl

/-- Nothing is formed where there is no simple selector. -/
theorem Compound.wrap_eq_self (o : CompoundOptions) {ns : List Node}
    (h : ∀ n ∈ ns, ¬n.isSimple) : wrap o ns = ns := by
  rw [wrap, Grouping.foldl_push_settled o h]
  simp [Grouping.close]

namespace Grouping

variable {o : CompoundOptions} {P : Node → Prop} {g : Grouping} {n : Node} {ns : List Node}

/-- The nodes taken so far have the property, and simple selectors are none of the settled ones. -/
structure Settles (P : Node → Prop) (g : Grouping) : Prop where
  settled : ∀ n ∈ g.settled, ¬n.isSimple ∧ P n
  run : ∀ n ∈ g.run, P n

theorem Settles.close (h : g.Settles P)
    (hcompound : ∀ first rest, (∀ n ∈ first :: rest, P n) → P (Compound.ofMembers first rest)) :
    ∀ n ∈ g.close.settled, ¬n.isSimple ∧ P n := by
  unfold Grouping.close
  split
  · exact h.settled
  · rename_i first rest hrun
    refine List.forall_mem_cons.2 ⟨⟨by simp [Compound.ofMembers, Node.isSimple], ?_⟩, h.settled⟩
    refine hcompound first rest fun n hn => h.run n ?_
    rw [← List.mem_reverse, hrun]
    exact hn

theorem Settles.push (h : g.Settles P)
    (hcompound : ∀ first rest, (∀ n ∈ first :: rest, P n) → P (Compound.ofMembers first rest))
    (hn : P n) : (g.push o n).Settles P := by
  have hclose := h.close hcompound
  unfold Grouping.push
  split
  · exact ⟨h.settled, List.forall_mem_cons.2 ⟨hn, h.run⟩⟩
  · split
    · exact ⟨hclose, List.forall_mem_singleton.2 hn⟩
    · rename_i hsimple
      exact ⟨List.forall_mem_cons.2 ⟨⟨hsimple, hn⟩, hclose⟩, by simp [g.run_close]⟩

theorem Settles.foldl (h : g.Settles P)
    (hcompound : ∀ first rest, (∀ n ∈ first :: rest, P n) → P (Compound.ofMembers first rest))
    (hns : ∀ n ∈ ns, P n) : (ns.foldl (Grouping.push o) g).Settles P := by
  induction ns generalizing g with
  | nil => exact h
  | cons n ns ih =>
    obtain ⟨hn, hns⟩ := List.forall_mem_cons.1 hns
    exact ih (h.push hcompound hn) hns

end Grouping

/-- No wrapped node is a simple selector, and all have what a compound has from its members. -/
theorem Compound.forall_mem_wrap (o : CompoundOptions) {P : Node → Prop} {ns : List Node}
    (hcompound : ∀ first rest, (∀ n ∈ first :: rest, P n) → P (ofMembers first rest))
    (hns : ∀ n ∈ ns, P n) : ∀ n ∈ wrap o ns, ¬n.isSimple ∧ P n := by
  have hempty : Grouping.Settles P {} := ⟨by simp, by simp⟩
  intro n hn
  exact (hempty.foldl (o := o) hcompound hns).close hcompound n (List.mem_reverse.1 hn)

/-! ### Whole trees -/

theorem Node.isSimple_group (o : CompoundOptions) (n : Node) :
    (n.group o).isSimple = n.isSimple := by
  cases n <;> rfl

/-- Wrapping changes nothing only where nothing is to be wrapped. -/
theorem Compound.wrap_groupAll_eq_self_iff (o : CompoundOptions) (ns : List Node) :
    wrap o (Node.groupAll o ns) = ns ↔
      (∀ n ∈ ns, ¬n.isSimple) ∧ Node.groupAll o ns = ns := by
  have hgrouped : (∀ n ∈ ns, ¬n.isSimple) → wrap o (Node.groupAll o ns) = Node.groupAll o ns := by
    intro h
    apply wrap_eq_self
    rw [Node.groupAll_eq_map]
    refine List.forall_mem_map.2 fun n hn => ?_
    rw [Node.isSimple_group]
    exact h n hn
  constructor
  · intro h
    have hsimple : ∀ n ∈ ns, ¬n.isSimple := by
      rw [← h]
      exact fun n hn => (forall_mem_wrap o (P := fun _ => True) (by simp) (by simp) n hn).1
    exact ⟨hsimple, (hgrouped hsimple).symm.trans h⟩
  · rintro ⟨hsimple, h⟩
    exact (hgrouped hsimple).trans h

mutual

/-- **Grouping leaves grouped selectors as they are**, and no others, whatever the options. -/
theorem Selector.group_eq_self_iff (o : CompoundOptions) :
    ∀ s : Selector, s.group o = s ↔ (NodeRef.selector s).Grouped
  | ⟨span, before, after, nodes⟩ => by
    rw [Selector.group, Selector.mk.injEq, NodeRef.grouped_selector, forall₂_and,
      ← Node.groupAll_eq_self_iff o nodes, ← Compound.wrap_groupAll_eq_self_iff]
    simp only [true_and]

theorem Node.group_eq_self_iff (o : CompoundOptions) :
    ∀ n : Node, n.group o = n ↔ (NodeRef.node n).Grouped
  | .functional span sigil name (some list) => by
    rw [NodeRef.grouped_functional, ← Selector.groupAll_eq_self_iff o list]
    simp [Node.group, Selector.groupArguments]
  | .compound span nodes invalid => by
    rw [NodeRef.grouped_compound, ← Node.groupAll_eq_self_iff o nodes]
    simp [Node.group]
  | .functional _ _ _ none | .element .. | .combinator _ | .comment _ | .invalid _ _ => by
    refine iff_of_true rfl ((NodeRef.every_of_childless rfl).2 ?_)
    simp
  | .nth e => by
    refine iff_of_true rfl (NodeRef.every_nth.2 ?_)
    simp

theorem Node.groupAll_eq_self_iff (o : CompoundOptions) :
    ∀ ns : List Node, Node.groupAll o ns = ns ↔ ∀ n ∈ ns, (NodeRef.node n).Grouped
  | [] => by simp [Node.groupAll]
  | n :: ns => by
    rw [Node.groupAll, List.cons.injEq, Node.group_eq_self_iff o n,
      Node.groupAll_eq_self_iff o ns, List.forall_mem_cons]

theorem Selector.groupAll_eq_self_iff (o : CompoundOptions) :
    ∀ list : List Selector,
      Selector.groupAll o list = list ↔ ∀ s ∈ list, (NodeRef.selector s).Grouped
  | [] => by simp [Selector.groupAll]
  | s :: ss => by
    rw [Selector.groupAll, List.cons.injEq, Selector.group_eq_self_iff o s,
      Selector.groupAll_eq_self_iff o ss, List.forall_mem_cons]

end

theorem forall_mem_of_forall₂ {α : Type} {P : α → Prop} {as' as : List α}
    (h : List.Forall₂ (fun a' _ => P a') as' as) : ∀ a ∈ as', P a := by
  induction h with
  | nil => simp
  | cons h _ ih => exact List.forall_mem_cons.2 ⟨h, ih⟩

/-- **Grouping makes grouped trees** of all trees, also of those that hold compounds already. -/
theorem Grouping.makes_grouped (o : CompoundOptions) :
    Keeps o (fun s' _ => (NodeRef.selector s').Grouped) (fun n' _ => (NodeRef.node n').Grouped)
    where
  leaf n h := (Node.group_eq_self_iff o n).1 (h o)
  functional h _ _ _ := NodeRef.grouped_functional.2 (forall_mem_of_forall₂ h)
  compound h _ _ := NodeRef.grouped_compound.2 (forall_mem_of_forall₂ h)
  wrap h _ _ _ := by
    refine NodeRef.grouped_selector.2 (Compound.forall_mem_wrap o ?_ (forall_mem_of_forall₂ h))
    exact fun _ _ => NodeRef.grouped_compound.2

/-- **Grouping a second time changes nothing**, in no field at no depth: whatever the tree, with
compounds in it or without, and whatever the options of either time. -/
theorem group_idempotent (o₁ o₂ : CompoundOptions) :
    (∀ list : List Selector,
        Selector.groupAll o₂ (Selector.groupAll o₁ list) = Selector.groupAll o₁ list) ∧
      (∀ s : Selector, (s.group o₁).group o₂ = s.group o₁) ∧
      ∀ n : Node, (n.group o₁).group o₂ = n.group o₁ := by
  have hgrouped := Grouping.makes_grouped o₁
  refine ⟨fun list => ?_, fun s => ?_, fun n => ?_⟩
  · exact (Selector.groupAll_eq_self_iff o₂ _).2 (forall_mem_of_forall₂ (hgrouped.selectorsAll list))
  · exact (Selector.group_eq_self_iff o₂ _).2 (hgrouped.selector s)
  · exact (Node.group_eq_self_iff o₂ _).2 (hgrouped.node n)

end Selectors
