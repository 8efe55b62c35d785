import Selectors.Proofs.Diagnostics.Problems
import Selectors.Proofs.Regrouping

/-!
# Grouping adds problems of compounds only

A compound is met in pre-order just before its members, and marks no problem but its own.  So the
other problems under an item do not change when compounds around nodes are opened
(`Node.others_leavesAll`), and grouping keeps them and their order (`Grouping.keeps_others`).
Sorting then keeps them too, since it is stable (`diagnostics_group`): that holds for any spans, in
order or not.
-/

namespace Selectors

/-- All diagnostics but those of compounds. -/
def Diagnostic.others (ds : List Diagnostic) : List Diagnostic :=
  ds.filter fun d => d.problem ≠ .invalidCompound

/-- The problems that the items and all below them mark, in pre-order, but those of compounds. -/
def NodeRef.others (rs : List NodeRef) : List Diagnostic :=
  Diagnostic.others ((preorder rs).filterMap diagnostic?)

open NodeRef

namespace NodeRef

theorem others_append (rs ts : List NodeRef) : others (rs ++ ts) = others rs ++ others ts := by
  simp only [others, Diagnostic.others, preorder_append, List.filterMap_append, List.filter_append]

/-- An item comes before what is below it. -/
theorem others_singleton (r : NodeRef) :
    others [r] = Diagnostic.others r.diagnostic?.toList ++ others r.children.toList := by
  rw [others, preorder, preorder, List.append_nil]
  cases h : r.diagnostic? with
  | none => rw [List.filterMap_cons_none h]; rfl
  | some d => rw [List.filterMap_cons_some h]; exact List.filter_append [d] _

theorem others_cons (r : NodeRef) (rs : List NodeRef) : others (r :: rs) = others [r] ++ others rs :=
  others_append [r] rs

/-- Selectors mark no problem. -/
theorem others_selector (s : Selector) : others [.selector s] = others (s.nodes.map .node) :=
  others_singleton (.selector s)

/-- Nor do functional nodes. -/
theorem others_functional (span : Span) (sigil : Sigil) (name : String) (list : List Selector) :
    others [.node (.functional span sigil name (some list))] = others (list.map .selector) :=
  others_singleton _

/-- Compounds mark no other problem. -/
theorem others_compound (span : Span) (ns : List Node) (invalid : Bool) :
    others [.node (.compound span ns invalid)] = others (ns.map .node) := by
  rw [others_singleton]
  cases invalid <;> rfl

end NodeRef

/-! ### Opening compounds -/

mutual

theorem Node.others_leaves : ∀ n : Node, others (n.leaves.map .node) = others [.node n]
  | .compound _ nodes _ => by
    rw [Node.leaves, Node.others_leavesAll nodes, others_compound]
  | .element .. | .functional .. | .combinator _ | .comment _ | .invalid _ _ | .nth _ => rfl

/-- Compounds around nodes make no difference. -/
theorem Node.others_leavesAll :
    ∀ ns : List Node, others ((Node.leavesAll ns).map .node) = others (ns.map .node)
  | [] => rfl
  | n :: ns => by
    rw [Node.leavesAll, List.map_append, others_append, Node.others_leaves n,
      Node.others_leavesAll ns]
    exact (others_cons (.node n) (ns.map .node)).symm

end

/-! ### Grouping -/

namespace NodeRef

/-- Items with the same problems one by one have the same problems together. -/
theorem others_all {α : Type} {item : α → NodeRef} {as' as : List α}
    (h : List.Forall₂ (fun a' a => others [item a'] = others [item a]) as' as) :
    others (as'.map item) = others (as.map item) := by
  induction h with
  | nil => rfl
  | cons h _ ih => rw [List.map_cons, List.map_cons, others_cons, h, ih, ← others_cons]

end NodeRef

/-- **Grouping keeps the other problems**, in their order. -/
theorem Grouping.keeps_others (o : CompoundOptions) :
    Keeps o (fun s' s => others [.selector s'] = others [.selector s])
      (fun n' n => others [.node n'] = others [.node n]) where
  leaf _ _ := rfl
  functional h span sigil name := by
    rw [others_functional, others_functional, others_all h]
  compound h span invalid := by
    rw [others_compound, others_compound, others_all h]
  wrap h span before after := by
    rw [others_selector, others_selector, ← Node.others_leavesAll, Node.leavesAll_wrap,
      Node.others_leavesAll, others_all h]

/-- The diagnostics of a tree but those of compounds are sorted stably. -/
theorem stableSort_others (root : List NodeRef) :
    StableSort (fun d => d.span.start) (NodeRef.others root)
      (Diagnostic.others (diagnostics root)) :=
  (stableSort_diagnostics root).filter _

theorem others_diagnostics {root root' : List NodeRef} (h : NodeRef.others root = others root') :
    Diagnostic.others (diagnostics root) = Diagnostic.others (diagnostics root') := by
  have hsort := stableSort_others root
  rw [h] at hsort
  exact hsort.eq (stableSort_others root')

/-- **Grouping only adds diagnostics of compounds.**  The others of any tree, whatever its shape and
its spans, stay the same and in the same order. -/
theorem diagnostics_group (o : CompoundOptions) :
    (∀ list : List Selector,
        Diagnostic.others (diagnostics ((Selector.groupAll o list).map .selector)) =
          Diagnostic.others (diagnostics (list.map .selector))) ∧
      (∀ s : Selector,
        Diagnostic.others (diagnostics [.selector (s.group o)]) =
          Diagnostic.others (diagnostics [.selector s])) ∧
      ∀ n : Node,
        Diagnostic.others (diagnostics [.node (n.group o)]) =
          Diagnostic.others (diagnostics [.node n]) :=
  have hkeeps := Grouping.keeps_others o
  ⟨fun list => others_diagnostics (others_all (hkeeps.selectorsAll list)),
    fun s => others_diagnostics (hkeeps.selector s),
    fun n => others_diagnostics (hkeeps.node n)⟩

end Selectors
