import Mathlib.Data.List.Infix
import Selectors.Parser

/-!
# Canonical trees

A tree may hold what no text reads as: a name with a dot in it, or two names side by side, which
print to one.  The canonical trees are those in which every text fits its field and every item its
place.  `Canonical n` describes lists of selectors with at most `n` lists nested in one another.

`Selector.unplaced` drops all spans of a tree, the one thing that a printed text can not restore.
-/

namespace Selectors

/-! ### Trees without places -/

/-- The comment without its span. -/
def Comment.unplaced (c : Comment) : Comment := { c with span := default }

/-- The namespace without the spans of its comments. -/
def Namespace.unplaced (ns : Namespace) : Namespace :=
  { ns with
    beforeComments := ns.beforeComments.map .unplaced
    afterComments := ns.afterComments.map .unplaced }

/-- The mark without the spans of its comments. -/
def Sigil.unplaced : Sigil → Sigil
  | dot cs => dot (cs.map .unplaced)
  | colon cs => colon (cs.map .unplaced)
  | colons first second => colons (first.map .unplaced) (second.map .unplaced)
  | sigil => sigil

/-- The combinator without its span. -/
def Combinator.unplaced (c : Combinator) : Combinator := { c with span := default }

/-- The item without its span. -/
def NthNode.unplaced : NthNode → NthNode
  | part role p => part role { p with span := default }
  | comment c => comment c.unplaced

/-- The expression without its spans. -/
def Nth.unplaced (n : Nth) : Nth :=
  { n with span := default, nodes := n.nodes.map .unplaced }

mutual

/-- The selector without its spans. -/
def Selector.unplaced : Selector → Selector
  | ⟨_, before, after, nodes⟩ => ⟨default, before, after, Node.unplacedAll nodes⟩

/-- The node without its spans. -/
def Node.unplaced : Node → Node
  | .element _ kind name ns => .element default kind name (ns.map .unplaced)
  | .functional _ sigil name args =>
    .functional default sigil.unplaced name (Selector.unplacedArguments args)
  | .combinator c => .combinator c.unplaced
  | .comment c => .comment c.unplaced
  | .invalid _ text => .invalid default text
  | .nth n => .nth n.unplaced
  | .compound _ nodes invalid => .compound default (Node.unplacedAll nodes) invalid

/-- Nodes without their spans. -/
def Node.unplacedAll : List Node → List Node
  | [] => []
  | n :: ns => n.unplaced :: Node.unplacedAll ns

/-- An argument list without its spans. -/
def Selector.unplacedArguments : Option (List Selector) → Option (List Selector)
  | none => none
  | some list => some (Selector.unplacedAll list)

/-- Selectors without their spans. -/
def Selector.unplacedAll : List Selector → List Selector
  | [] => []
  | s :: ss => s.unplaced :: Selector.unplacedAll ss

end

theorem Node.unplacedAll_eq (ns : List Node) : Node.unplacedAll ns = ns.map .unplaced := by
  induction ns with
  | nil => rfl
  | cons n ns ih => rw [Node.unplacedAll, ih, List.map_cons]

theorem Selector.unplacedAll_eq (ss : List Selector) :
    Selector.unplacedAll ss = ss.map .unplaced := by
  induction ss with
  | nil => rfl
  | cons s ss ih => rw [Selector.unplacedAll, ih, List.map_cons]

theorem Selector.unplaced_eq (s : Selector) :
    s.unplaced = ⟨default, s.before, s.after, s.nodes.map .unplaced⟩ := by
  cases s
  rw [Selector.unplaced, Node.unplacedAll_eq]

/-! ### Texts -/

/-- The text has blanks only. -/
def IsBlanks (s : String) : Prop := ∀ c ∈ s.toList, isBlank c

/-- The text has at least one character, and no blank, delimiter, quote, backslash or slash. -/
def IsName (s : String) : Prop :=
  s ≠ "" ∧ ∀ c ∈ s.toList, breaksText c = false ∧ c ≠ '\\' ∧ c ≠ '/'

/-- The text has no bracket, quote or backslash, and no comment starts in it. -/
def IsAttributeText (cs : List Char) : Prop :=
  (∀ c ∈ cs, c ≠ '[' ∧ c ≠ ']' ∧ isQuote c = false ∧ c ≠ '\\') ∧ ¬['/', '*'] <:+: cs

instance (s : String) : Decidable (IsBlanks s) := List.decidableBAll _ s.toList

instance (s : String) : Decidable (IsName s) :=
  @instDecidableAnd _ _ inferInstance (List.decidableBAll _ s.toList)

instance (cs : List Char) : Decidable (IsAttributeText cs) :=
  @instDecidableAnd _ _ (List.decidableBAll _ cs) inferInstance

/-! ### Nodes -/

/-- What a type or universal selector is called. -/
def ElementKind.Fits : ElementKind → String → Prop
  | type, name => IsName name
  | universal, name => name = "*"

/-- A namespace is a name or a star, with nothing but its bar after it. -/
def Namespace.Fits (ns : Namespace) : Prop :=
  (IsName ns.value ∨ ns.value = "*") ∧ ns.beforeComments = [] ∧ ns.afterComments = [] ∧
    ns.error = none

/-- What a functional selector is called; no comments stand inside its mark. -/
def Sigil.Fits : Sigil → String → Prop
  | dot cs, name => cs = [] ∧ IsName name
  | hash, name => IsName name
  | brackets, text => IsAttributeText text.toList
  | colon cs, name => cs = [] ∧ IsName name
  | colons first second, name => first = [] ∧ second = [] ∧ IsName name
  | ampersand, name => name = "&"

/-- Whether the parentheses after a name are read as an `An+B` expression. -/
def Sigil.IsNth : Sigil → String → Prop
  | colon _, name => isNthName name
  | _, _ => False

/-- Blanks alone, or one of the other combinators with blanks around it. -/
def Combinator.Fits (c : Combinator) : Prop :=
  c.invalid = false ∧
    (c.kind = .descendant ∧ c.text ≠ "" ∧ IsBlanks c.text ∧ c.before = "" ∧ c.after = "" ∨
      c.kind ≠ .descendant ∧ c.text = c.kind.name ∧ IsBlanks c.before ∧ IsBlanks c.after)

namespace Canonical

/-- A type or universal selector. -/
inductive Head : Node → Prop where
  | element {span : Span} {kind : ElementKind} {name : String} {ns : Option Namespace}
      (hname : kind.Fits name) (hns : ∀ n ∈ ns, n.Fits) : Head (.element span kind name ns)

/-- A functional selector; a list that it owns is one of the nested lists, and it does not take
the place of an expression. -/
inductive Member (nested : List Selector → Prop) : Node → Prop where
  | functional {span : Span} {sigil : Sigil} {name : String} {args : Option (List Selector)}
      (hname : sigil.Fits name) (hargs : ∀ list ∈ args, nested list)
      (hnth : ∀ list ∈ args, list ≠ [] → ¬sigil.IsNth name) :
      Member nested (.functional span sigil name args)

/-- At least one simple selector; a type or universal selector comes first. -/
structure Compound (nested : List Selector → Prop) (head : Option Node) (members : List Node) :
    Prop where
  nonempty : head.toList ++ members ≠ []
  head : ∀ n ∈ head, Head n
  members : ∀ n ∈ members, Member nested n

/-- Compounds with a combinator between each two. -/
inductive Chain (nested : List Selector → Prop) : List Node → Prop where
  | single {head : Option Node} {members : List Node} (h : Compound nested head members) :
      Chain nested (head.toList ++ members)
  | cons {head : Option Node} {members ns : List Node} {c : Combinator}
      (h : Compound nested head members) (hc : c.Fits) (hns : Chain nested ns) :
      Chain nested (head.toList ++ members ++ .combinator c :: ns)

theorem Compound.mem {nested : List Selector → Prop} {head : Option Node} {members : List Node}
    (h : Compound nested head members) :
    ∀ n ∈ head.toList ++ members, Head n ∨ Member nested n := by
  intro n hn
  rcases List.mem_append.1 hn with hn | hn
  · exact .inl (h.head n (Option.mem_toList.1 hn))
  · exact .inr (h.members n hn)

/-- What the nodes of a chain are. -/
theorem Chain.mem {nested : List Selector → Prop} {ns : List Node} (h : Chain nested ns) :
    ∀ n ∈ ns, (Head n ∨ Member nested n) ∨ ∃ c : Combinator, n = .combinator c ∧ c.Fits := by
  induction h with
  | single hc => exact fun n hn => .inl (hc.mem n hn)
  | @cons head members ns c hc hfits _ ih =>
    intro n hn
    rcases List.mem_append.1 hn with hn | hn
    · exact .inl (hc.mem n hn)
    · rcases List.mem_cons.1 hn with rfl | hn
      · exact .inr ⟨c, rfl, hfits⟩
      · exact ih n hn

/-- A selector: a chain with blanks around it. -/
structure Entry (nested : List Selector → Prop) (s : Selector) : Prop where
  before : IsBlanks s.before
  after : IsBlanks s.after
  nodes : Chain nested s.nodes

end Canonical

/-- A list of at least one selector, with at most `n` lists nested in one another.  A nested list
may have no selectors. -/
def Canonical : Nat → List Selector → Prop
  | 0, list => list ≠ [] ∧ ∀ s ∈ list, Canonical.Entry (fun _ => False) s
  | n + 1, list =>
    list ≠ [] ∧ ∀ s ∈ list, Canonical.Entry (fun nested => nested = [] ∨ Canonical n nested) s

/-- What the lists inside a canonical list are. -/
theorem Canonical.entries {n : Nat} {list : List Selector} (h : Canonical n list) :
    ∃ nested, list ≠ [] ∧ (∀ s ∈ list, Canonical.Entry nested s) ∧
      ∀ inner, nested inner → ∃ m, n = m + 1 ∧ (inner = [] ∨ Canonical m inner) := by
  cases n with
  | zero => exact ⟨_, h.1, h.2, fun _ hl => hl.elim⟩
  | succ n => exact ⟨_, h.1, h.2, fun _ hl => ⟨n, rfl, hl⟩⟩

end Selectors
