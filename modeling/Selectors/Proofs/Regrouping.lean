import Mathlib.Data.List.Forall2
import Selectors.Proofs.Grouping
import Selectors.Proofs.Specificity.Bounded
import Selectors.Tree.Print

/-!
# Grouping and splitting keep the meaning

A compound is a mere bracket: it prints as its members do one after the other, and it counts for
what they count for together.  `Node.leaves` takes all brackets off a node, however they nest.  So
nodes with the same leaves print alike and count for the same (`Node.alikeAll_of_leavesAll`), and
neither wrapping nor unwrapping the nodes of one selector changes their leaves.

The text and the count of an item are made of those of its parts, so that parts may be replaced by
others that are alike.  By induction over the tree, grouping and splitting keep the text and the
specificity of every tree (`regrouping_keeps_meaning`).  They also keep which sums are taken on the
way, so a specificity of 32-bit slots is found for the same trees (`specificity?_regrouped`).
-/

namespace Selectors

/-! ### Leaves -/

mutual

/-- The nodes that are left of a node when compounds are opened, at every depth of compounds. -/
def Node.leaves : Node → List Node
  | .compound _ nodes _ => Node.leavesAll nodes
  | n => [n]

/-- The nodes that are left of nodes when compounds are opened. -/
def Node.leavesAll : List Node → List Node
  | [] => []
  | n :: ns => n.leaves ++ Node.leavesAll ns

end

namespace Node

theorem leavesAll_append (ns ms : List Node) :
    leavesAll (ns ++ ms) = leavesAll ns ++ leavesAll ms := by
  induction ns with
  | nil => rfl
  | cons n ns ih => rw [List.cons_append, leavesAll, leavesAll, ih, List.append_assoc]

theorem unwrapping_leaves : Unwrapping leavesAll leavesAll where
  outer_append := leavesAll_append
  inner_append := leavesAll_append
  outer_ofMembers first rest := by
    rw [leavesAll, Compound.ofMembers, leaves]
    exact List.append_nil _

theorem leavesAll_wrap (o : CompoundOptions) (ns : List Node) :
    leavesAll (Compound.wrap o ns) = leavesAll ns :=
  unwrapping_leaves.outer_wrap o fun _ _ => rfl

/-- The members of a compound are left of it, too. -/
theorem leavesAll_members (n : Node) : leavesAll (Compound.members n) = n.leaves := by
  cases n with
  | compound span nodes invalid => rw [leaves]; rfl
  | _ => exact List.append_nil _

theorem leavesAll_splitOpen (ns : List Node) :
    leavesAll (splitOpen ns) = leavesAll (splitAll ns) := by
  induction ns with
  | nil => rfl
  | cons n ns ih => rw [splitOpen, splitAll, leavesAll_append, leavesAll_members, ih, leavesAll]

theorem countAll_append (ns ms : List Node) : countAll (ns ++ ms) = countAll ns + countAll ms := by
  simp only [countAll_eq_sum, List.map_append, List.sum_append]

theorem argumentsFitAll_append (ns ms : List Node) :
    argumentsFitAll (ns ++ ms) = (argumentsFitAll ns && argumentsFitAll ms) := by
  induction ns with
  | nil => rfl
  | cons n ns ih => rw [List.cons_append, argumentsFitAll, argumentsFitAll, ih, Bool.and_assoc]

end Node

mutual

theorem Node.printAll_leaves : ∀ n : Node, Node.printAll n.leaves = n.print
  | .compound _ nodes _ => by rw [Node.leaves, Node.print, Node.printAll_leavesAll nodes]
  | .element .. | .functional .. | .combinator _ | .comment _ | .invalid _ _ | .nth _ =>
    String.append_empty

theorem Node.printAll_leavesAll :
    ∀ ns : List Node, Node.printAll (Node.leavesAll ns) = Node.printAll ns
  | [] => rfl
  | n :: ns => by
    rw [Node.leavesAll, Node.printAll_append, Node.printAll_leaves n, Node.printAll_leavesAll ns]
    rfl

end

mutual

theorem Node.countAll_leaves : ∀ n : Node, Node.countAll n.leaves = n.count
  | .compound _ nodes _ => by rw [Node.leaves, Node.count, Node.countAll_leavesAll nodes]
  | .element .. | .functional .. | .combinator _ | .comment _ | .invalid _ _ | .nth _ => add_zero _

theorem Node.countAll_leavesAll :
    ∀ ns : List Node, Node.countAll (Node.leavesAll ns) = Node.countAll ns
  | [] => rfl
  | n :: ns => by
    rw [Node.leavesAll, Node.countAll_append, Node.countAll_leaves n, Node.countAll_leavesAll ns]
    rfl

end

mutual

theorem Node.argumentsFitAll_leaves :
    ∀ n : Node, Node.argumentsFitAll n.leaves = n.argumentsFit
  | .compound _ nodes _ => by
    rw [Node.leaves, Node.argumentsFit, Node.argumentsFitAll_leavesAll nodes]
  | .element .. | .functional .. | .combinator _ | .comment _ | .invalid _ _ | .nth _ =>
    Bool.and_true _

theorem Node.argumentsFitAll_leavesAll :
    ∀ ns : List Node, Node.argumentsFitAll (Node.leavesAll ns) = Node.argumentsFitAll ns
  | [] => rfl
  | n :: ns => by
    rw [Node.leavesAll, Node.argumentsFitAll_append, Node.argumentsFitAll_leaves n,
      Node.argumentsFitAll_leavesAll ns]
    rfl

end

/-! ### Items that mean the same -/

/-- The nodes print alike and count for the same, one after the other, by sums that fit alike. -/
structure Node.AlikeAll (ns ms : List Node) : Prop where
  print : printAll ns = printAll ms
  count : countAll ns = countAll ms
  fit : argumentsFitAll ns = argumentsFitAll ms

/-- The nodes print alike and count for the same, by sums that fit alike. -/
structure Node.Alike (n m : Node) : Prop where
  print : n.print = m.print
  count : n.count = m.count
  fit : n.argumentsFit = m.argumentsFit

/-- The selectors print alike and count for the same, by sums that fit alike. -/
structure Selector.Alike (s t : Selector) : Prop where
  print : s.print = t.print
  count : s.count = t.count
  fit : s.argumentsFit = t.argumentsFit

namespace Node

theorem AlikeAll.trans {ns ms ks : List Node} (h : AlikeAll ns ms) (h' : AlikeAll ms ks) :
    AlikeAll ns ks :=
  ⟨h.print.trans h'.print, h.count.trans h'.count, h.fit.trans h'.fit⟩

/-- Brackets matter neither for the text nor for the count. -/
theorem alikeAll_of_leavesAll {ns ms : List Node} (h : leavesAll ns = leavesAll ms) :
    AlikeAll ns ms := by
  constructor
  · rw [← printAll_leavesAll ns, h, printAll_leavesAll]
  · rw [← countAll_leavesAll ns, h, countAll_leavesAll]
  · rw [← argumentsFitAll_leavesAll ns, h, argumentsFitAll_leavesAll]

theorem alikeAll_of_forall₂ {ns ms : List Node} (h : List.Forall₂ Alike ns ms) :
    AlikeAll ns ms := by
  induction h with
  | nil => exact ⟨rfl, rfl, rfl⟩
  | cons h _ ih =>
    constructor
    · rw [printAll, printAll, h.print, ih.print]
    · rw [countAll, countAll, h.count, ih.count]
    · rw [argumentsFitAll, argumentsFitAll, h.fit, ih.fit]

theorem AlikeAll.compound {ns ms : List Node} (h : AlikeAll ns ms) (span : Span) (invalid : Bool) :
    Alike (.compound span ns invalid) (.compound span ms invalid) := by
  constructor
  · rw [Node.print, Node.print, h.print]
  · rw [Node.count, Node.count, h.count]
  · rw [argumentsFit, argumentsFit, h.fit]

theorem AlikeAll.selector {ns ms : List Node} (h : AlikeAll ns ms) (span : Span)
    (before after : String) :
    Selector.Alike ⟨span, before, after, ns⟩ ⟨span, before, after, ms⟩ := by
  constructor
  · rw [Selector.print, Selector.print, h.print]
  · rw [Selector.count, Selector.count, h.count]
  · rw [Selector.argumentsFit, Selector.argumentsFit, h.fit]

end Node

namespace Selector

variable {list list' : List Selector}

theorem printTail_congr (h : List.Forall₂ Alike list list') : printTail list = printTail list' := by
  induction h with
  | nil => rfl
  | cons h _ ih => rw [printTail, printTail, h.print, ih]

theorem printList_congr (h : List.Forall₂ Alike list list') : printList list = printList list' := by
  cases h with
  | nil => rfl
  | cons h hs => rw [printList, printList, h.print, printTail_congr hs]

theorem countMost_congr (h : List.Forall₂ Alike list list') : countMost list = countMost list' := by
  induction h with
  | nil => rfl
  | cons h _ ih => rw [countMost, countMost, h.count, ih]

theorem countSum_congr (h : List.Forall₂ Alike list list') :
    NodeRef.countAll (list.map .selector) = NodeRef.countAll (list'.map .selector) := by
  induction h with
  | nil => rfl
  | cons h _ ih =>
    rw [List.map_cons, List.map_cons, NodeRef.countAll_cons, NodeRef.countAll_cons, ih,
      NodeRef.count, NodeRef.count, h.count]

theorem sumsFit_congr (h : List.Forall₂ Alike list list') : sumsFit list = sumsFit list' := by
  induction h with
  | nil => rfl
  | cons h _ ih => rw [sumsFit, sumsFit, h.count, h.fit, ih]

theorem all_argumentsFit_congr (h : List.Forall₂ Alike list list') :
    (list.map NodeRef.selector).all NodeRef.argumentsFit =
      (list'.map NodeRef.selector).all NodeRef.argumentsFit := by
  induction h with
  | nil => rfl
  | cons h _ ih =>
    rw [List.map_cons, List.map_cons, List.all_cons, List.all_cons, ih, NodeRef.argumentsFit,
      NodeRef.argumentsFit, h.fit]

/-- Arguments may be replaced by others that are alike. -/
theorem alike_functional (h : List.Forall₂ Alike list list') (span : Span) (sigil : Sigil)
    (name : String) :
    Node.Alike (.functional span sigil name (some list))
      (.functional span sigil name (some list')) := by
  constructor
  · rw [Node.print, Node.print, printArguments, printArguments, printList_congr h]
  · rw [Node.count, Node.count, countArguments, countArguments, countMost_congr h]
  · cases sigil with
    | colon comments => simp only [Node.argumentsFit, sumsFit_congr h]
    | _ => rfl

end Selector

/-! ### Grouping -/

/-- Grouped items are alike those they come from. -/
theorem Grouping.keeps_alike (o : CompoundOptions) : Keeps o Selector.Alike Node.Alike where
  leaf _ _ := ⟨rfl, rfl, rfl⟩
  functional := Selector.alike_functional
  compound h span invalid := (Node.alikeAll_of_forall₂ h).compound span invalid
  wrap h span before after :=
    ((Node.alikeAll_of_leavesAll (Node.leavesAll_wrap o _)).trans
      (Node.alikeAll_of_forall₂ h)).selector span before after

theorem Selector.alike_group (o : CompoundOptions) (s : Selector) : (s.group o).Alike s :=
  (Grouping.keeps_alike o).selector s

theorem Node.alike_group (o : CompoundOptions) (n : Node) : (n.group o).Alike n :=
  (Grouping.keeps_alike o).node n

theorem Selector.alike_groupAll (o : CompoundOptions) (list : List Selector) :
    List.Forall₂ Alike (groupAll o list) list :=
  (Grouping.keeps_alike o).selectorsAll list

/-! ### Splitting -/

mutual

theorem Selector.alike_split : ∀ s : Selector, s.split.Alike s
  | ⟨span, before, after, nodes⟩ =>
    have hopen := Node.alikeAll_of_leavesAll (Node.leavesAll_splitOpen nodes)
    have hinside := Node.alikeAll_of_forall₂ (Node.alike_splitAll nodes)
    (hopen.trans hinside).selector span before after

theorem Node.alike_split : ∀ n : Node, n.split.Alike n
  | .functional span sigil name (some list) =>
    Selector.alike_functional (Selector.alike_splitEach list) span sigil name
  | .compound span nodes invalid =>
    (Node.alikeAll_of_forall₂ (Node.alike_splitAll nodes)).compound span invalid
  | .functional _ _ _ none | .element .. | .combinator _ | .comment _ | .invalid _ _ | .nth _ =>
    ⟨rfl, rfl, rfl⟩

theorem Node.alike_splitAll : ∀ ns : List Node, List.Forall₂ Node.Alike (Node.splitAll ns) ns
  | [] => .nil
  | n :: ns => .cons (Node.alike_split n) (Node.alike_splitAll ns)

theorem Selector.alike_splitEach :
    ∀ list : List Selector, List.Forall₂ Selector.Alike (Selector.splitEach list) list
  | [] => .nil
  | s :: ss => .cons (Selector.alike_split s) (Selector.alike_splitEach ss)

end

/-! ### Whole trees -/

/-- The items print alike and are as specific. -/
structure Siblings.SameMeaning (a b : Siblings) : Prop where
  print : a.print = b.print
  specificity : specificity a.toList = specificity b.toList

theorem Selector.sameMeaning_list {list list' : List Selector} (h : List.Forall₂ Alike list list') :
    (Siblings.selectors list).SameMeaning (.selectors list') := by
  refine ⟨printList_congr h, ?_⟩
  rw [Selectors.specificity_eq, Selectors.specificity_eq]
  exact countSum_congr h

theorem NodeRef.sameMeaning_single {r r' : NodeRef} (hprint : r.print = r'.print)
    (hcount : r.count = r'.count) : (Siblings.single r).SameMeaning (.single r') := by
  refine ⟨hprint, ?_⟩
  rw [Selectors.specificity_eq, Selectors.specificity_eq, Siblings.toList, Siblings.toList,
    countAll_cons, countAll_cons, hcount]

/-- **Grouping and splitting keep the text and the specificity** of every tree, whatever its shape,
the compounds already in it and the options. -/
theorem regrouping_keeps_meaning (o : CompoundOptions) :
    (∀ list : List Selector,
        (Siblings.selectors (Selector.groupAll o list)).SameMeaning (.selectors list) ∧
          (Siblings.selectors (Selector.splitEach list)).SameMeaning (.selectors list)) ∧
      (∀ s : Selector,
        (Siblings.single (.selector (s.group o))).SameMeaning (.single (.selector s)) ∧
          (Siblings.single (.selector s.split)).SameMeaning (.single (.selector s))) ∧
      ∀ n : Node,
        (Siblings.single (.node (n.group o))).SameMeaning (.single (.node n)) ∧
          (Siblings.single (.node n.split)).SameMeaning (.single (.node n)) := by
  refine ⟨fun list => ⟨?_, ?_⟩, fun s => ⟨?_, ?_⟩, fun n => ⟨?_, ?_⟩⟩
  · exact Selector.sameMeaning_list (Selector.alike_groupAll o list)
  · exact Selector.sameMeaning_list (Selector.alike_splitEach list)
  · obtain ⟨hprint, hcount, -⟩ := Selector.alike_group o s
    exact NodeRef.sameMeaning_single hprint hcount
  · exact NodeRef.sameMeaning_single s.alike_split.print s.alike_split.count
  · obtain ⟨hprint, hcount, -⟩ := Node.alike_group o n
    exact NodeRef.sameMeaning_single hprint hcount
  · exact NodeRef.sameMeaning_single n.alike_split.print n.alike_split.count

/-- The checked specificity is made of the count and of the sums that fit. -/
theorem specificity?_congr {rs rs' : List NodeRef}
    (hcount : NodeRef.countAll rs = NodeRef.countAll rs')
    (hfit : rs.all NodeRef.argumentsFit = rs'.all NodeRef.argumentsFit) :
    specificity? rs = specificity? rs' := by
  rw [specificity?, specificity?, specificityWithin?_eq (Nat.lt_succ_self _),
    specificityWithin?_eq (Nat.lt_succ_self _), hcount, hfit]

/-- Items that are alike, taken alone. -/
theorem NodeRef.specificity?_single {r r' : NodeRef} (hcount : r.count = r'.count)
    (hfit : r.argumentsFit = r'.argumentsFit) : specificity? [r] = specificity? [r'] := by
  refine specificity?_congr ?_ ?_
  · rw [countAll_cons, countAll_cons, hcount]
  · rw [List.all_cons, List.all_cons, hfit]

/-- **Grouping and splitting keep the specificity of 32-bit slots**: it is the same, and a sum
overflows in the one tree just when one does in the other. -/
theorem specificity?_regrouped (o : CompoundOptions) :
    (∀ list : List Selector,
        specificity? ((Selector.groupAll o list).map .selector) =
            specificity? (list.map .selector) ∧
          specificity? ((Selector.splitEach list).map .selector) =
            specificity? (list.map .selector)) ∧
      (∀ s : Selector,
        specificity? [.selector (s.group o)] = specificity? [.selector s] ∧
          specificity? [.selector s.split] = specificity? [.selector s]) ∧
      ∀ n : Node,
        specificity? [.node (n.group o)] = specificity? [.node n] ∧
          specificity? [.node n.split] = specificity? [.node n] := by
  refine ⟨fun list => ⟨?_, ?_⟩, fun s => ⟨?_, ?_⟩, fun n => ⟨?_, ?_⟩⟩
  · have h := Selector.alike_groupAll o list
    exact specificity?_congr (Selector.countSum_congr h) (Selector.all_argumentsFit_congr h)
  · have h := Selector.alike_splitEach list
    exact specificity?_congr (Selector.countSum_congr h) (Selector.all_argumentsFit_congr h)
  · have h := Selector.alike_group o s
    exact NodeRef.specificity?_single h.count h.fit
  · exact NodeRef.specificity?_single s.alike_split.count s.alike_split.fit
  · have h := Node.alike_group o n
    exact NodeRef.specificity?_single h.count h.fit
  · exact NodeRef.specificity?_single n.alike_split.count n.alike_split.fit

end Selectors
