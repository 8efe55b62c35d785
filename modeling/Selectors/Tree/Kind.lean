/-!
# Kinds of nodes

Every item of a selector tree has a kind.  Kinds have two spellings: the *name*, in lower case
with underscores, which trees and options are written with, and the *title*, in capitals, which
reports use.
-/

namespace Selectors

/-- What an item of a selector tree is. -/
inductive NodeKind where
  | selector
  | typeSelector
  | universal
  | classSelector
  | idSelector
  | attributeSelector
  | pseudoClass
  | pseudoElement
  | nesting
  | combinator
  | comment
  | invalid
  | nth
  | nthStep
  | nthDash
  | nthOffset
  | nthOf
  | compound
  deriving DecidableEq, Repr, Inhabited

namespace NodeKind

/-- Every kind, in the order in which they are listed to readers. -/
def all : List NodeKind :=
  [selector, typeSelector, universal, classSelector, idSelector, attributeSelector, pseudoClass,
    pseudoElement, nesting, combinator, comment, invalid, nth, nthStep, nthDash, nthOffset, nthOf,
    compound]

/-- The spelling used in trees and options. -/
def name : NodeKind → String
  | selector => "selector"
  | typeSelector => "type"
  | universal => "universal"
  | classSelector => "class"
  | idSelector => "id"
  | attributeSelector => "attribute"
  | pseudoClass => "pseudo_class"
  | pseudoElement => "pseudo_element"
  | nesting => "nesting"
  | combinator => "combinator"
  | comment => "comment"
  | invalid => "invalid"
  | nth => "nth"
  | nthStep => "nth_step"
  | nthDash => "nth_dash"
  | nthOffset => "nth_offset"
  | nthOf => "nth_of"
  | compound => "compound_selector"

/-- Drops underscores and capitalizes the letter after each. -/
def capitalize (upper : Bool) : List Char → List Char
  | [] => []
  | '_' :: cs => capitalize true cs
  | c :: cs => (if upper then c.toUpper else c) :: capitalize false cs

/-- The spelling used in reports. -/
def title (k : NodeKind) : String := String.ofList (capitalize true k.name.toList)

/-- The kind with the given name; the case of its letters matters. -/
def ofName? (s : String) : Option NodeKind := all.find? fun k => k.name == s

theorem mem_all (k : NodeKind) : k ∈ all := by cases k <;> decide

theorem ofName?_name (k : NodeKind) : ofName? k.name = some k := by cases k <;> decide

end NodeKind

/-- A name that is no kind of node. -/
inductive NodeKind.Unknown where
  | unknown
  deriving DecidableEq, Repr

/-- The text of the error. -/
def NodeKind.Unknown.message : NodeKind.Unknown → String
  | unknown => "Matching variant not found"

/-- The kind with the given name, or the error that there is none. -/
def NodeKind.ofName (s : String) : Except NodeKind.Unknown NodeKind :=
  match ofName? s with
  | some k => .ok k
  | none => .error .unknown

end Selectors
