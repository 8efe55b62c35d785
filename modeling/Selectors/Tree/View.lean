import Selectors.Tree.Basic

/-!
# Items of a tree and their children

`NodeRef` is one item of any sort: a selector, a node, or a part of an `An+B` expression.  The
children of an item form a list of one sort, `Siblings`.

* `NodeRef.size` counts the items under an item, itself included.
* `NodeRef.size_eq`: that is one more than the sizes of its children together.
-/

namespace Selectors

/-- An item of a tree. -/
inductive NodeRef where
  | selector (selector : Selector)
  | node (node : Node)
  | part (part : NthNode)

/-- Items that stand side by side. -/
inductive Siblings where
  | selectors (list : List Selector)
  | nodes (list : List Node)
  | parts (list : List NthNode)
  /-- An item on its own. -/
  | single (item : NodeRef)

/-- The items in order. -/
def Siblings.toList : Siblings → List NodeRef
  | selectors l => l.map .selector
  | nodes l => l.map .node
  | parts l => l.map .part
  | single r => [r]

namespace NodeRef

def kind : NodeRef → NodeKind
  | selector _ => .selector
  | node n => n.kind
  | part p => p.kind

def span : NodeRef → Span
  | selector s => s.span
  | node n => n.span
  | part p => p.span

/-- The name or text of the item; none for items that only hold others. -/
def value : NodeRef → String
  | selector _ => ""
  | node n => n.value
  | part p => p.value

/-- The items directly under an item. -/
def children : NodeRef → Siblings
  | selector s => .nodes s.nodes
  | node (.functional _ _ _ (some list)) => .selectors list
  | node (.nth n) => .parts n.nodes
  | node (.compound _ ns _) => .nodes ns
  | node _ => .nodes []
  | part _ => .parts []

end NodeRef

/-! ### Sizes -/

mutual

/-- The number of items under a selector, itself included. -/
def Selector.size : Selector → Nat
  | ⟨_, _, _, ns⟩ => Node.sizeAll ns + 1

/-- The number of items under a node, itself included. -/
def Node.size : Node → Nat
  | .functional _ _ _ args => Selector.sizeArguments args + 1
  | .compound _ ns _ => Node.sizeAll ns + 1
  | .nth n => n.nodes.length + 1
  | .element _ _ _ _ => 1
  | .combinator _ => 1
  | .comment _ => 1
  | .invalid _ _ => 1

/-- The number of items under the nodes of a list. -/
def Node.sizeAll : List Node → Nat
  | [] => 0
  | n :: ns => n.size + Node.sizeAll ns

/-- The number of items under an argument list. -/
def Selector.sizeArguments : Option (List Selector) → Nat
  | none => 0
  | some l => Selector.sizeAll l

/-- The number of items under the selectors of a list. -/
def Selector.sizeAll : List Selector → Nat
  | [] => 0
  | s :: ss => s.size + Selector.sizeAll ss

end

/-- The number of items under an item, itself included. -/
def NodeRef.size : NodeRef → Nat
  | selector s => s.size
  | node n => n.size
  | part _ => 1

/-- The number of items under the items of a list. -/
def NodeRef.sizeAll : List NodeRef → Nat
  | [] => 0
  | r :: rs => r.size + sizeAll rs

namespace NodeRef

theorem sizeAll_map_node (ns : List Node) : sizeAll (ns.map .node) = Node.sizeAll ns := by
  induction ns with
  | nil => rfl
  | cons n ns ih => simp [sizeAll, Node.sizeAll, size, ih]

theorem sizeAll_map_selector (ss : List Selector) :
    sizeAll (ss.map .selector) = Selector.sizeAll ss := by
  induction ss with
  | nil => rfl
  | cons s ss ih => simp [sizeAll, Selector.sizeAll, size, ih]

theorem sizeAll_map_part (ps : List NthNode) : sizeAll (ps.map .part) = ps.length := by
  induction ps with
  | nil => rfl
  | cons p ps ih => simp [sizeAll, size, ih, Nat.add_comm]

/-- **An item is one more than its children.** -/
theorem size_eq (r : NodeRef) : r.size = sizeAll r.children.toList + 1 := by
  cases r with
  | selector s =>
    obtain ⟨_, _, _, ns⟩ := s
    simp [size, Selector.size, children, Siblings.toList, sizeAll_map_node]
  | part p => rfl
  | node n =>
    cases n with
    | functional s g v args =>
      cases args <;> simp [size, Node.size, Selector.sizeArguments, children, Siblings.toList,
        sizeAll_map_selector, sizeAll]
    | nth n => simp [size, Node.size, children, Siblings.toList, sizeAll_map_part]
    | compound s ns i => simp [size, Node.size, children, Siblings.toList, sizeAll_map_node]
    | _ => simp [size, Node.size, children, Siblings.toList, sizeAll]

end NodeRef

end Selectors
