import Selectors.Tree.Kind

/-!
# Options

How texts are read, which items of a tree are visited, and how simple selectors are grouped.
-/

namespace Selectors

/-- How a text is read. -/
structure ParseOptions where
  /-- Added to every position. -/
  offset : Nat := 0
  deriving DecidableEq, Repr, Inhabited

/-- Which items are visited.  Items that are not visited are still descended into. -/
structure WalkOptions where
  /-- If given, only items of these kinds are visited. -/
  visitList : Option (List NodeKind) := none
  /-- Items of these kinds are not visited. -/
  ignoreList : Option (List NodeKind) := none
  deriving DecidableEq, Repr, Inhabited

namespace WalkOptions

/-- Visits items of the given kinds only. -/
def only (kinds : List NodeKind) : WalkOptions := { visitList := some kinds }

/-- Visits items of all other kinds. -/
def except (kinds : List NodeKind) : WalkOptions := { ignoreList := some kinds }

/-- Whether items of a kind are visited. -/
def visits (o : WalkOptions) (k : NodeKind) : Bool :=
  o.visitList.all (·.contains k) && !o.ignoreList.any (·.contains k)

@[simp] theorem visits_default (k : NodeKind) : ({} : WalkOptions).visits k = true := rfl

end WalkOptions

/-- How simple selectors are grouped. -/
structure CompoundOptions where
  /-- Whether every pseudo-element starts a new compound. -/
  splitPseudoElements : Bool := true
  deriving DecidableEq, Repr

end Selectors
