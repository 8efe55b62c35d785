import Selectors.Tree.View

/-!
# Items anywhere in a tree

`NodeRef.Within x r` says that the item `x` is `r` or stands somewhere below it, at any depth.
Properties of whole trees are stated with `NodeRef.Every`: the property holds of an item and of
all items below it.

* `NodeRef.every_iff`: such a property is checked at the item and then at its children.
* `Node.comments`: the comments that a node stores in its name; they are no children.
-/

namespace Selectors

namespace NodeRef

/-- The item `x` is the given item or stands below it. -/
inductive Within (x : NodeRef) : NodeRef → Prop where
  | self : Within x x
  | child {c r : NodeRef} (hc : c ∈ r.children.toList) (h : Within x c) : Within x r

theorem Within.trans {x r t : NodeRef} (hx : Within x r) (hr : Within r t) : Within x t := by
  induction hr with
  | self => exact hx
  | child hc _ ih => exact .child hc ih

/-- The property holds of the item and of every item below it. -/
def Every (P : NodeRef → Prop) (r : NodeRef) : Prop := ∀ x, Within x r → P x

variable {P : NodeRef → Prop}

theorem every_iff {r : NodeRef} :
    r.Every P ↔ P r ∧ ∀ c ∈ r.children.toList, c.Every P := by
  refine ⟨fun h => ⟨h r .self, fun c hc x hx => h x (.child hc hx)⟩, ?_⟩
  rintro ⟨hr, hcs⟩ x hx
  cases hx with
  | self => exact hr
  | child hc hx => exact hcs _ hc x hx

theorem Every.self {r : NodeRef} (h : r.Every P) : P r := h r .self

theorem every_selector {s : Selector} :
    (selector s).Every P ↔ P (.selector s) ∧ ∀ n ∈ s.nodes, (node n).Every P := by
  simp [every_iff (r := selector s), children, Siblings.toList]

theorem every_functional {span : Span} {sigil : Sigil} {name : String}
    {list : List Selector} :
    (node (.functional span sigil name (some list))).Every P ↔
      P (.node (.functional span sigil name (some list))) ∧
        ∀ s ∈ list, (selector s).Every P := by
  simp [every_iff (r := node (.functional span sigil name (some list))), children,
    Siblings.toList]

theorem every_compound {span : Span} {ns : List Node} {invalid : Bool} :
    (node (.compound span ns invalid)).Every P ↔
      P (.node (.compound span ns invalid)) ∧ ∀ n ∈ ns, (node n).Every P := by
  simp [every_iff (r := node (.compound span ns invalid)), children, Siblings.toList]

theorem every_nth {n : Nth} :
    (node (.nth n)).Every P ↔ P (.node (.nth n)) ∧ ∀ m ∈ n.nodes, P (.part m) := by
  simp [every_iff (r := node (.nth n)), every_iff (r := part _), children, Siblings.toList]

/-- Nodes without items below them. -/
theorem every_of_childless {n : Node} (hn : (node n).children.toList = []) :
    (node n).Every P ↔ P (.node n) := by
  simp [every_iff (r := node n), hn]

end NodeRef

namespace Sigil

/-- The comments inside the mark. -/
def comments : Sigil → List Comment
  | dot cs => cs
  | colon cs => cs
  | colons first second => first ++ second
  | hash | brackets | ampersand => []

end Sigil

namespace Node

/-- The comments that a node stores around its mark or its bar. -/
def comments : Node → List Comment
  | element _ _ _ (some ns) => ns.beforeComments ++ ns.afterComments
  | functional _ sigil _ _ => sigil.comments
  | _ => []

/-- Combinators and comments stand between simple selectors. -/
def isFiller : Node → Bool
  | combinator _ | comment _ => true
  | _ => false

@[simp] theorem isFiller_combinator (c : Combinator) : (combinator c).isFiller = true := rfl

@[simp] theorem isFiller_comment (c : Comment) : (comment c).isFiller = true := rfl

end Node

theorem NodeRef.every_of_isFiller {P : NodeRef → Prop} {n : Node} (hn : n.isFiller) :
    (node n).Every P ↔ P (.node n) := by
  apply every_of_childless
  cases n <;> simp_all [Node.isFiller, children, Siblings.toList]

/-- The comments that an item stores besides its children. -/
def NodeRef.comments : NodeRef → List Comment
  | node n => n.comments
  | _ => []

end Selectors
