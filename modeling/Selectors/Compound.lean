import Selectors.Event
import Selectors.Options

/-!
# Compounds

Simple selectors with no combinator between them form a compound.  Grouping wraps every such run
of a selector into a compound node, and does the same inside argument lists; splitting puts the
members of compounds back in their place.

A run starts with a simple selector.  It goes on over simple selectors and over comments that own
no blanks; with the option, a pseudo-element starts a run of its own (`Node.joins`).
-/

namespace Selectors

/-- Whether a node goes on with the run of simple selectors before it. -/
def Node.joins (o : CompoundOptions) (n : Node) : Bool :=
  (n.isSimple && !(o.splitPseudoElements && n.isPseudoElement)) || n.isTightComment

namespace Compound

/-- Whether a type or universal selector stands behind the first member of a compound. -/
def isInvalid (rest : List Node) : Bool := rest.any Node.isElement

/-- The compound of a first member and the rest. -/
def ofMembers (first : Node) (rest : List Node) : Node :=
  .compound ⟨first.span.start, ((rest.getLast?).getD first).span.stop⟩ (first :: rest)
    (isInvalid rest)

/-- The members of a compound, or the node itself. -/
def members : Node → List Node
  | .compound _ ns _ => ns
  | n => [n]

end Compound

/-! ### Grouping -/

/-- The nodes of a selector being grouped. -/
structure Grouping where
  /-- The members of the compound being formed, last one first; none while no compound is. -/
  run : List Node := []
  /-- The nodes before them, last one first. -/
  settled : List Node := []

namespace Grouping

/-- Ends the compound being formed. -/
def close (g : Grouping) : Grouping :=
  match g.run.reverse with
  | [] => g
  | first :: rest => { run := [], settled := Compound.ofMembers first rest :: g.settled }

/-- Takes one more node: into the compound being formed, as the start of another one, or as a node
of its own. -/
def push (o : CompoundOptions) (g : Grouping) (n : Node) : Grouping :=
  if !g.run.isEmpty && n.joins o then { g with run := n :: g.run }
  else if n.isSimple then { g.close with run := [n] }
  else { g.close with settled := n :: g.close.settled }

end Grouping

/-- Wraps the runs of simple selectors in a list of nodes. -/
def Compound.wrap (o : CompoundOptions) (ns : List Node) : List Node :=
  (ns.foldl (Grouping.push o) {}).close.settled.reverse

mutual

/-- The selector with its runs of simple selectors wrapped, at every depth. -/
def Selector.group (o : CompoundOptions) : Selector → Selector
  | ⟨span, before, after, nodes⟩ => ⟨span, before, after, Compound.wrap o (Node.groupAll o nodes)⟩

/-- The node with its arguments, or the arguments of its members, grouped. -/
def Node.group (o : CompoundOptions) : Node → Node
  | .functional span sigil name args =>
    .functional span sigil name (Selector.groupArguments o args)
  | .compound span nodes invalid => .compound span (Node.groupAll o nodes) invalid
  | .element span kind name ns => .element span kind name ns
  | .combinator c => .combinator c
  | .comment c => .comment c
  | .invalid span text => .invalid span text
  | .nth n => .nth n

/-- Groups inside every node of a list. -/
def Node.groupAll (o : CompoundOptions) : List Node → List Node
  | [] => []
  | n :: ns => n.group o :: Node.groupAll o ns

/-- Groups an argument list. -/
def Selector.groupArguments (o : CompoundOptions) : Option (List Selector) → Option (List Selector)
  | none => none
  | some list => some (Selector.groupAll o list)

/-- Groups every selector of a list. -/
def Selector.groupAll (o : CompoundOptions) : List Selector → List Selector
  | [] => []
  | s :: ss => s.group o :: Selector.groupAll o ss

end

/-! ### Splitting -/

mutual

/-- The selector with the members of its compounds put back, at every depth. -/
def Selector.split : Selector → Selector
  | ⟨span, before, after, nodes⟩ => ⟨span, before, after, Node.splitOpen nodes⟩

/-- The node with its arguments, or the arguments of its members, split.  A compound keeps its
shape, since a node on its own has no place for the members. -/
def Node.split : Node → Node
  | .functional span sigil name args => .functional span sigil name (Selector.splitArguments args)
  | .compound span nodes invalid => .compound span (Node.splitAll nodes) invalid
  | .element span kind name ns => .element span kind name ns
  | .combinator c => .combinator c
  | .comment c => .comment c
  | .invalid span text => .invalid span text
  | .nth n => .nth n

/-- Puts the members of the compounds among the nodes in their place, and splits inside. -/
def Node.splitOpen : List Node → List Node
  | [] => []
  | n :: ns => Compound.members n.split ++ Node.splitOpen ns

/-- Splits inside every node of a list. -/
def Node.splitAll : List Node → List Node
  | [] => []
  | n :: ns => n.split :: Node.splitAll ns

/-- Splits an argument list. -/
def Selector.splitArguments : Option (List Selector) → Option (List Selector)
  | none => none
  | some list => some (Selector.splitEach list)

/-- Splits every selector of a list. -/
def Selector.splitEach : List Selector → List Selector
  | [] => []
  | s :: ss => s.split :: Selector.splitEach ss

end

/-! ### Events of grouping -/

/-- A compound that ends is reported when it is invalid; `run` holds its members, last one
first. -/
def Compound.endEvents : List Node → List Event
  | [] => []
  | run =>
    match run.reverse with
    | first :: rest =>
      if isInvalid rest then [.elementInsideCompound first.span.start] else []
    | [] => []

mutual

/-- The events of grouping a selector. -/
def Selector.groupEvents (o : CompoundOptions) : Selector → List Event
  | ⟨_, _, _, nodes⟩ => Node.runEvents o [] nodes

/-- The events of grouping inside a node. -/
def Node.groupEvents (o : CompoundOptions) : Node → List Event
  | .functional _ _ _ (some list) => Selector.groupEventsAll o list
  | .compound _ nodes _ => Node.groupEventsAll o nodes
  | _ => []

/-- The events of grouping inside every node of a list. -/
def Node.groupEventsAll (o : CompoundOptions) : List Node → List Event
  | [] => []
  | n :: ns => n.groupEvents o ++ Node.groupEventsAll o ns

/-- The events of grouping the nodes of a selector, of which `run` holds the members of the
compound being formed, last one first.  A node is grouped inside before it ends a compound. -/
def Node.runEvents (o : CompoundOptions) (run : List Node) : List Node → List Event
  | [] => Compound.endEvents run
  | n :: ns =>
    n.groupEvents o ++
      if !run.isEmpty && n.joins o then Node.runEvents o (n :: run) ns
      else Compound.endEvents run ++ Node.runEvents o (if n.isSimple then [n] else []) ns

/-- The events of grouping every selector of a list. -/
def Selector.groupEventsAll (o : CompoundOptions) : List Selector → List Event
  | [] => []
  | s :: ss => s.groupEvents o ++ Selector.groupEventsAll o ss

end

end Selectors
