import Selectors.Tree.Basic

/-!
# Equality of trees

Trees are compared item by item.  `Selector.same_iff` and `Node.same_iff` say that the comparison
decides equality, which gives the `DecidableEq` instances.
-/

namespace Selectors

mutual

/-- Whether two selectors are equal in every field. -/
def Selector.same : Selector → Selector → Bool
  | ⟨s, b, a, ns⟩, ⟨s', b', a', ns'⟩ => s == s' && b == b' && a == a' && Node.sameAll ns ns'

/-- Whether two nodes are equal in every field. -/
def Node.same : Node → Node → Bool
  | .element s k v ns, .element s' k' v' ns' => s == s' && k == k' && v == v' && ns == ns'
  | .functional s g v args, .functional s' g' v' args' =>
    s == s' && g == g' && v == v' && Selector.sameArguments args args'
  | .combinator c, .combinator c' => c == c'
  | .comment c, .comment c' => c == c'
  | .invalid s v, .invalid s' v' => s == s' && v == v'
  | .nth n, .nth n' => n == n'
  | .compound s ns i, .compound s' ns' i' => s == s' && Node.sameAll ns ns' && i == i'
  | _, _ => false

/-- Whether two lists of nodes are equal. -/
def Node.sameAll : List Node → List Node → Bool
  | [], [] => true
  | n :: ns, n' :: ns' => n.same n' && Node.sameAll ns ns'
  | _, _ => false

/-- Whether two argument lists are equal; none and an empty one differ. -/
def Selector.sameArguments : Option (List Selector) → Option (List Selector) → Bool
  | none, none => true
  | some l, some l' => Selector.sameAll l l'
  | _, _ => false

/-- Whether two lists of selectors are equal. -/
def Selector.sameAll : List Selector → List Selector → Bool
  | [], [] => true
  | s :: ss, s' :: ss' => s.same s' && Selector.sameAll ss ss'
  | _, _ => false

end

mutual

theorem Selector.same_iff : ∀ a b : Selector, a.same b = true ↔ a = b
  | ⟨_, _, _, ns⟩, ⟨_, _, _, ns'⟩ => by
    simp [Selector.same, Node.sameAll_iff ns ns', and_assoc]

theorem Node.same_iff : ∀ a b : Node, a.same b = true ↔ a = b
  | .functional _ _ _ args, b => by
    cases b with
    | functional _ _ _ args' => simp [Node.same, Selector.sameArguments_iff args args', and_assoc]
    | _ => simp [Node.same]
  | .compound _ ns _, b => by
    cases b with
    | compound _ ns' _ => simp [Node.same, Node.sameAll_iff ns ns', and_assoc]
    | _ => simp [Node.same]
  | .element _ _ _ _, b => by cases b <;> simp [Node.same, and_assoc]
  | .combinator _, b => by cases b <;> simp [Node.same]
  | .comment _, b => by cases b <;> simp [Node.same]
  | .invalid _ _, b => by cases b <;> simp [Node.same]
  | .nth _, b => by cases b <;> simp [Node.same]

theorem Node.sameAll_iff : ∀ a b : List Node, Node.sameAll a b = true ↔ a = b
  | [], b => by cases b <;> simp [Node.sameAll]
  | n :: ns, b => by
    cases b with
    | nil => simp [Node.sameAll]
    | cons n' ns' => simp [Node.sameAll, Node.same_iff n n', Node.sameAll_iff ns ns']

theorem Selector.sameArguments_iff :
    ∀ a b : Option (List Selector), Selector.sameArguments a b = true ↔ a = b
  | none, b => by cases b <;> simp [Selector.sameArguments]
  | some l, b => by
    cases b with
    | none => simp [Selector.sameArguments]
    | some l' => simp [Selector.sameArguments, Selector.sameAll_iff l l']

theorem Selector.sameAll_iff : ∀ a b : List Selector, Selector.sameAll a b = true ↔ a = b
  | [], b => by cases b <;> simp [Selector.sameAll]
  | s :: ss, b => by
    cases b with
    | nil => simp [Selector.sameAll]
    | cons s' ss' => simp [Selector.sameAll, Selector.same_iff s s', Selector.sameAll_iff ss ss']

end

instance : DecidableEq Selector := fun a b => decidable_of_iff _ (Selector.same_iff a b)

instance : DecidableEq Node := fun a b => decidable_of_iff _ (Node.same_iff a b)

end Selectors
