import Selectors.Token
import Selectors.Tree.Kind

/-!
# Selector trees

A selector list is a list of `Selector`s, each a list of `Node`s.  Every item keeps the exact
text it was read from, in the fields for its name, its comments and the blanks around it, so that
printing a tree gives that text back.

* The type or universal selector is an *element* node, possibly with a `Namespace`.
* Classes, ids, attributes, pseudo-classes, pseudo-elements and `&` are *functional* nodes: they
  are told apart by their `Sigil`, and each may own a parenthesized list of selectors.
* A *compound* node groups simple selectors; reading text never makes one.
-/

namespace Selectors

/-- A comment.  It owns the blanks around it when they stand for no combinator. -/
structure Comment where
  span : Span
  text : String
  before : String := ""
  after : String := ""
  deriving DecidableEq, Repr, Inhabited

namespace Comment

/-- The comment that a token spells. -/
def ofToken (t : Token) : Comment := { span := t.span, text := t.text }

/-- A comment that owns blanks separates selectors as a descendant combinator does. -/
def isSpacing (c : Comment) : Bool := c.before != "" || c.after != ""

end Comment

/-- The side that a namespaced name lacks. -/
inductive NamespaceError where
  | noNamespace
  | noTarget
  | neither
  deriving DecidableEq, Repr, Inhabited

namespace NamespaceError

/-- Every error. -/
def all : List NamespaceError := [noNamespace, noTarget, neither]

/-- The spelling used in trees and reports. -/
def name : NamespaceError → String
  | noNamespace => "namespace"
  | noTarget => "target"
  | neither => "namespace,target"

end NamespaceError

/-- The part of a name before its `|`, and the `|` itself with the comments around it. -/
structure Namespace where
  value : String
  beforeComments : List Comment := []
  afterComments : List Comment := []
  error : Option NamespaceError := none
  deriving DecidableEq, Repr, Inhabited

/-- The two simple selectors that may start a compound and may have a namespace. -/
inductive ElementKind where
  | type
  | universal
  deriving DecidableEq, Repr, Inhabited

/-- What introduces a functional node, with the comments inside the mark. -/
inductive Sigil where
  /-- `.`, a class; comments may stand between the dot and the name. -/
  | dot (comments : List Comment)
  /-- `#`, an id. -/
  | hash
  /-- `[…]`, an attribute; the name is the raw text between the brackets. -/
  | brackets
  /-- `:`, a pseudo-class. -/
  | colon (comments : List Comment)
  /-- `::`, a pseudo-element; `first` are the comments between the colons. -/
  | colons (first second : List Comment)
  /-- `&`, the nesting selector; the name is the text of the token. -/
  | ampersand
  deriving DecidableEq, Repr, Inhabited

/-- The relation that a combinator states. -/
inductive CombinatorKind where
  | descendant
  | nextSibling
  | child
  | subsequentSibling
  deriving DecidableEq, Repr, Inhabited

namespace CombinatorKind

/-- Every combinator. -/
def all : List CombinatorKind := [descendant, nextSibling, child, subsequentSibling]

/-- The combinator that a text spells; blanks, like any other text, spell descent. -/
def ofText (s : String) : CombinatorKind :=
  if s = "+" then nextSibling
  else if s = ">" then child
  else if s = "~" then subsequentSibling
  else descendant

/-- The spelling used in trees. -/
def name : CombinatorKind → String
  | descendant => "space"
  | nextSibling => "+"
  | child => ">"
  | subsequentSibling => "~"

/-- The spelling used in reports. -/
def title : CombinatorKind → String
  | descendant => "Space"
  | nextSibling => "NextSibling"
  | child => "Child"
  | subsequentSibling => "SubsequentSibling"

end CombinatorKind

/-- A combinator with the blanks around it. -/
structure Combinator where
  span : Span
  kind : CombinatorKind
  text : String
  before : String := ""
  after : String := ""
  /-- Whether it follows another combinator. -/
  invalid : Bool := false
  deriving DecidableEq, Repr, Inhabited

/-- The combinator that a token spells. -/
def Combinator.ofToken (t : Token) : Combinator :=
  { span := t.span, kind := .ofText t.text, text := t.text }

/-- What a part of an `An+B of S` expression is. -/
inductive NthRole where
  /-- `An`, or one of the words `odd` and `even`. -/
  | step
  /-- A sign that stands alone. -/
  | dash
  /-- `B`. -/
  | offset
  /-- The word `of`. -/
  | of
  deriving DecidableEq, Repr, Inhabited

/-- A part of an `An+B of S` expression. -/
structure NthPart where
  span : Span
  text : String
  before : String := ""
  after : String := ""
  invalid : Bool := false
  deriving DecidableEq, Repr, Inhabited

/-- An item of an `An+B of S` expression. -/
inductive NthNode where
  | part (role : NthRole) (part : NthPart)
  | comment (comment : Comment)
  deriving DecidableEq, Repr, Inhabited

/-- An `An+B` expression, up to and with its `of`. -/
structure Nth where
  span : Span
  before : String := ""
  after : String := ""
  nodes : List NthNode := []
  deriving DecidableEq, Repr, Inhabited

mutual

/-- One entry of a selector list. -/
structure Selector where
  span : Span
  /-- The blanks trimmed from the start. -/
  before : String
  /-- The blanks trimmed from the end. -/
  after : String
  nodes : List Node

/-- An item of a selector. -/
inductive Node where
  /-- A type or universal selector. -/
  | element (span : Span) (kind : ElementKind) (name : String) (ns : Option Namespace)
  /-- Any other simple selector.  No argument list and an empty one differ. -/
  | functional (span : Span) (sigil : Sigil) (name : String) (arguments : Option (List Selector))
  | combinator (combinator : Combinator)
  | comment (comment : Comment)
  /-- Text that is part of no selector. -/
  | invalid (span : Span) (text : String)
  | nth (nth : Nth)
  /-- Simple selectors with no combinator between them; it is invalid when a type or universal
  selector is among them but not first. -/
  | compound (span : Span) (nodes : List Node) (invalid : Bool)

end

instance : Inhabited Selector := ⟨⟨default, "", "", []⟩⟩

instance : Inhabited Node := ⟨.invalid default ""⟩

/-! ### Parts of an expression -/

namespace NthRole

/-- The kind of a part. -/
def kind : NthRole → NodeKind
  | step => .nthStep
  | dash => .nthDash
  | offset => .nthOffset
  | of => .nthOf

end NthRole

namespace NthNode

def kind : NthNode → NodeKind
  | part role _ => role.kind
  | comment _ => .comment

def span : NthNode → Span
  | part _ p => p.span
  | comment c => c.span

/-- The text of the item, without the blanks around it. -/
def value : NthNode → String
  | part _ p => p.text
  | comment c => c.text

/-- The item with its span replaced. -/
def withSpan (s : Span) : NthNode → NthNode
  | part r p => part r { p with span := s }
  | comment c => comment { c with span := s }

/-- The item with the blanks of a token after it. -/
def appendBlanks (t : Token) : NthNode → NthNode
  | part r p => part r { p with after := p.after ++ t.text, span.stop := t.span.stop }
  | comment c => comment { c with after := c.after ++ t.text, span.stop := t.span.stop }

end NthNode

/-! ### Nodes -/

namespace Sigil

/-- The kind of the nodes that a sigil introduces. -/
def kind : Sigil → NodeKind
  | dot _ => .classSelector
  | hash => .idSelector
  | brackets => .attributeSelector
  | colon _ => .pseudoClass
  | colons _ _ => .pseudoElement
  | ampersand => .nesting

end Sigil

namespace ElementKind

def kind : ElementKind → NodeKind
  | type => .typeSelector
  | universal => .universal

end ElementKind

namespace Node

def kind : Node → NodeKind
  | element _ k _ _ => k.kind
  | functional _ g _ _ => g.kind
  | combinator _ => .combinator
  | comment _ => .comment
  | invalid _ _ => .invalid
  | nth _ => .nth
  | compound _ _ _ => .compound

def span : Node → Span
  | element s _ _ _ => s
  | functional s _ _ _ => s
  | combinator c => c.span
  | comment c => c.span
  | invalid s _ => s
  | nth n => n.span
  | compound s _ _ => s

/-- The node with its span replaced. -/
def withSpan (s : Span) : Node → Node
  | element _ k v ns => element s k v ns
  | functional _ g v args => functional s g v args
  | combinator c => combinator { c with span := s }
  | comment c => comment { c with span := s }
  | invalid _ v => invalid s v
  | nth n => nth { n with span := s }
  | compound _ ns i => compound s ns i

/-- The name or text of the node; none for nodes that only hold others. -/
def value : Node → String
  | element _ _ v _ => v
  | functional _ _ v _ => v
  | combinator c => c.text
  | comment c => c.text
  | invalid _ v => v
  | nth _ => ""
  | compound _ _ _ => ""

/-- Simple selectors are the members of compounds. -/
def isSimple : Node → Bool
  | element _ _ _ _ | functional _ _ _ _ => true
  | _ => false

/-- Whether the node is a type or universal selector. -/
def isElement : Node → Bool
  | element _ _ _ _ => true
  | _ => false

/-- Whether the node is a pseudo-element. -/
def isPseudoElement : Node → Bool
  | functional _ (.colons _ _) _ _ => true
  | _ => false

/-- Whether the node is a comment that owns no blanks. -/
def isTightComment : Node → Bool
  | comment c => !c.isSpacing
  | _ => false

/-- The argument list of the node. -/
def arguments? : Node → Option (List Selector)
  | functional _ _ _ args => args
  | _ => none

end Node

end Selectors
