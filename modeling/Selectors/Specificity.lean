import Selectors.Overflow
import Selectors.Walk

/-!
# Specificity

The specificity of a selector counts, in four slots, what it is made of: inline styles (none in a
selector), ids, classes with attributes and pseudo-classes, and types with pseudo-elements.  Slots
are compared from left to right.

`:where()` counts nothing; `:is()`, `:not()` and `:has()` count as their most specific argument;
`:nth-…()` counts as a pseudo-class and its most specific argument.  The arguments of all other
nodes count nothing.
-/

namespace Selectors

/-- Counts in four slots, the most significant first. -/
structure Specificity where
  inline : Nat := 0
  ids : Nat := 0
  classes : Nat := 0
  types : Nat := 0
  deriving DecidableEq, Repr, Inhabited

namespace Specificity

/-- Slot by slot. -/
def add (a b : Specificity) : Specificity :=
  ⟨a.inline + b.inline, a.ids + b.ids, a.classes + b.classes, a.types + b.types⟩

instance : Add Specificity := ⟨add⟩

/-- The slots, the most significant first. -/
def slots (a : Specificity) : List Nat := [a.inline, a.ids, a.classes, a.types]

/-- Slots are compared from left to right. -/
def compare (a b : Specificity) : Ordering :=
  (Ord.compare a.inline b.inline).then <| (Ord.compare a.ids b.ids).then <|
    (Ord.compare a.classes b.classes).then (Ord.compare a.types b.types)

instance : Ord Specificity := ⟨compare⟩

/-- The greater of two; of equals, the first. -/
def max (a b : Specificity) : Specificity := if b.compare a = .gt then b else a

/-- The slots in decimal, separated by commas. -/
def text (a : Specificity) : String := ",".intercalate (a.slots.map toString)

/-- Whether every slot fits 32 bits. -/
def fits (a : Specificity) : Bool := a.slots.all (· < UInt32.size)

/-- The sum, if its slots fit 32 bits. -/
def add? (a b : Specificity) : Except Overflow Specificity :=
  if (a + b).fits then .ok (a + b) else .error .overflow

/-- The specificity with the given slots, which must fit 32 bits. -/
def ofSlots? : List Nat → Option Specificity
  | [i, d, c, t] => if (⟨i, d, c, t⟩ : Specificity).fits then some ⟨i, d, c, t⟩ else none
  | _ => none

/-- What a pseudo-class counts for. -/
inductive PseudoWeight where
  | nothing
  | argument
  | oneClassAndArgument
  | oneClass
  deriving DecidableEq, Repr

/-- What the pseudo-class of the given name counts for; the case of ASCII letters does not
matter. -/
def pseudoWeight (name : String) : PseudoWeight :=
  let name := name.toList.map Char.toLower
  if name = "where".toList then .nothing
  else if name = "is".toList ∨ name = "not".toList ∨ name = "has".toList then .argument
  else if "nth-".toList.isPrefixOf name then .oneClassAndArgument
  else .oneClass

end Specificity

/-- What a node counts for by itself, when its argument list counts for `argument`. -/
def Node.weight (argument : List Selector → Specificity) : Node → Specificity
  | .element _ .type _ _ => { types := 1 }
  | .functional _ sigil name args =>
    match sigil with
    | .hash => { ids := 1 }
    | .dot _ | .brackets => { classes := 1 }
    | .colons _ _ => { types := 1 }
    | .ampersand => {}
    | .colon _ =>
      match Specificity.pseudoWeight name with
      | .nothing => {}
      | .oneClass => { classes := 1 }
      | .argument => (args.map argument).getD {}
      | .oneClassAndArgument => { classes := 1 } + (args.map argument).getD {}
  | _ => {}

/-- The sum over the items under `root`, of which arguments nested deeper than `depth` count
nothing. -/
def specificityWithin : Nat → List NodeRef → Specificity
  | 0, _ => {}
  | depth + 1, root =>
    let argument (list : List Selector) : Specificity :=
      list.foldl (fun most s => most.max (specificityWithin depth [.selector s])) {}
    walk {} (fun v total =>
      match v.item with
      | .node (.compound _ _ _) => (total, .descend)
      | .node n => (total + n.weight argument, .skip 0)
      | _ => (total, .descend)) root {}

/-- The specificity of the items of `root` together. -/
def specificity (root : List NodeRef) : Specificity :=
  specificityWithin (NodeRef.sizeAll root + 1) root

end Selectors
