import Selectors.Compound
import Selectors.Tree.Codec
import Selectors.Tree.Equality
import Selectors.Tree.Print

/-!
# Fragments of trees

A fragment is a tree of any shape: a whole list, or one selector, node or part of an expression.
A path names an item of a fragment by its places among the children, from the root down; for a
list the first place picks a selector, so no path names the list itself.

* `Fragment.item?` finds the item at a path, `Fragment.root?` what a walk from there starts with.
* `Fragment.mapSpan?` changes the span of the item at a path.
-/

namespace Selectors

/-- A tree of any shape. -/
inductive Fragment where
  | list (selectors : List Selector)
  | selector (selector : Selector)
  | node (node : Node)
  | part (part : NthNode)
  deriving DecidableEq, Inhabited

/-! ### Paths -/

/-- The item that a path leads to from an item. -/
def NodeRef.descend? : List Nat → NodeRef → Option NodeRef
  | [], r => some r
  | i :: path, r => (r.children.toList[i]?).bind (descend? path)

mutual

/-- Changes the span of the item at a path from a selector. -/
def Selector.mapSpan? (f : Span → Span) : List Nat → Selector → Option Selector
  | [], s => some { s with span := f s.span }
  | i :: path, s => do
    let n ← Node.mapSpan? f path (← s.nodes[i]?)
    some { s with nodes := s.nodes.set i n }

/-- Changes the span of the item at a path from a node. -/
def Node.mapSpan? (f : Span → Span) : List Nat → Node → Option Node
  | [], n => some (n.withSpan (f n.span))
  | i :: path, .functional span sigil name (some list) => do
    let s ← Selector.mapSpan? f path (← list[i]?)
    some (.functional span sigil name (some (list.set i s)))
  | i :: path, .compound span nodes invalid => do
    let n ← Node.mapSpan? f path (← nodes[i]?)
    some (.compound span (nodes.set i n) invalid)
  | [i], .nth nth => do
    let p ← nth.nodes[i]?
    some (.nth { nth with nodes := nth.nodes.set i (p.withSpan (f p.span)) })
  | _, _ => none

end

namespace Fragment

/-- The item as a fragment of its own. -/
def ofItem : NodeRef → Fragment
  | .selector s => selector s
  | .node n => node n
  | .part p => part p

/-- The item at a path. -/
def item? (path : List Nat) : Fragment → Option NodeRef
  | list selectors =>
    match path with
    | [] => none
    | i :: path => (selectors[i]?).bind fun s => NodeRef.descend? path (.selector s)
  | selector s => NodeRef.descend? path (.selector s)
  | node n => NodeRef.descend? path (.node n)
  | part p => NodeRef.descend? path (.part p)

/-- The fragment at a path. -/
def select? (path : List Nat) (t : Fragment) : Option Fragment :=
  if path = [] then some t else (t.item? path).map ofItem

/-- What is at a path: the whole list for the empty path into a list, else the item or, if
`children`, the items under it. -/
def root? (path : List Nat) (children : Bool) (t : Fragment) : Option Siblings :=
  match path, t with
  | [], list selectors => some (.selectors selectors)
  | path, t => (t.item? path).map fun r => if children then r.children else .single r

/-- Changes the span of the item at a path. -/
def mapSpan? (f : Span → Span) (path : List Nat) : Fragment → Option Fragment
  | list selectors =>
    match path with
    | [] => none
    | i :: path => do
      let s ← Selector.mapSpan? f path (← selectors[i]?)
      some (list (selectors.set i s))
  | selector s => (s.mapSpan? f path).map selector
  | node n => (n.mapSpan? f path).map node
  | part p => if path = [] then some (part (p.withSpan (f p.span))) else none

/-! ### Grouping -/

/-- The fragment with its runs of simple selectors wrapped; a part of an expression has none. -/
def group? (o : CompoundOptions) : Fragment → Option Fragment
  | list selectors => some (list (Selector.groupAll o selectors))
  | selector s => some (selector (s.group o))
  | node n => some (node (n.group o))
  | part _ => none

/-- The events of grouping. -/
def groupEvents (o : CompoundOptions) : Fragment → List Event
  | list selectors => Selector.groupEventsAll o selectors
  | selector s => s.groupEvents o
  | node n => n.groupEvents o
  | part _ => []

/-- The fragment with the members of its compounds put back; a part of an expression has none. -/
def split? : Fragment → Option Fragment
  | list selectors => some (list (Selector.splitEach selectors))
  | selector s => some (selector s.split)
  | node n => some (node n.split)
  | part _ => none

/-! ### JSON -/

/-- The shape of a fragment. -/
inductive Shape where
  | list
  | selector
  | node
  | part
  deriving DecidableEq, Repr

/-- The name of a shape. -/
def Shape.name : Shape → String
  | .list => "list"
  | .selector => "selector"
  | .node => "node"
  | .part => "nth"

/-- The shape of a fragment. -/
def shape : Fragment → Shape
  | list _ => .list
  | selector _ => .selector
  | node _ => .node
  | part _ => .part

/-- The JSON value of a fragment. -/
def toJson : Fragment → Json
  | list selectors => .array (Selector.allToJson selectors)
  | selector s => s.toJson
  | node n => n.toJson
  | part p => p.toJson

/-- The fragment of a shape that a JSON value holds. -/
def ofJson? (j : Json) : Shape → Option Fragment
  | .list => (j.array?.bind (Selector.allOfJson? false)).map list
  | .selector => (Selector.ofJson? false j).map selector
  | .node => (Node.ofJson? false j).map node
  | .part => (NthNode.ofJson? false j).map part

/-- Whether the fragment is read back from its JSON value. -/
def survivesJson (t : Fragment) : Bool := ofJson? t.toJson t.shape = some t

end Fragment

end Selectors
