import Selectors.Event
import Selectors.Walk

/-!
# Diagnostics

The problems of a text are marked in its tree: invalid nodes, and nodes and parts with a flag or
an error.  A diagnostic points at one of them.  They are listed by where they start; those that
start at one place stand in the order of a pre-order walk.
-/

namespace Selectors

/-- What is wrong. -/
inductive Problem where
  | invalidNode (text : String)
  | invalidCombinator (text : String)
  | invalidNamespace (missing : NamespaceError)
  | invalidNth (role : NthRole) (text : String)
  | invalidCompound
  deriving DecidableEq, Repr

/-- What is wrong and where. -/
structure Diagnostic where
  problem : Problem
  span : Span
  deriving DecidableEq, Repr

namespace Problem

/-- The code of a problem. -/
def code : Problem → String
  | invalidNode _ => "cssel::invalid_node"
  | invalidCombinator _ => "cssel::invalid_combinator"
  | invalidNamespace _ => "cssel::invalid_namespace"
  | invalidNth _ _ => "cssel::invalid_nth"
  | invalidCompound => "cssel::invalid_compound"

/-- The message for a reader. -/
def message : Problem → String
  | invalidNode t => "unexpected `" ++ t ++ "` in selector"
  | invalidCombinator t => "combinator `" ++ t ++ "` follows another combinator"
  | invalidNamespace e => "invalid namespace, missing " ++ e.name
  | invalidNth r t => "invalid " ++ r.kind.name ++ " `" ++ t ++ "` in nth expression"
  | invalidCompound => "type or universal selector must come first in a compound selector"

/-- How to mend the problem. -/
def help : Problem → Option String
  | invalidNamespace _ => some "use `ns|name`, `*|name` or `ns|*`"
  | invalidNth _ _ => some "expected `An+B [of S]`, `odd` or `even`"
  | _ => none

/-- What is written at the place of the problem. -/
def label : Problem → String
  | invalidNode _ => "not part of any selector"
  | invalidCombinator _ => "extra combinator"
  | invalidNamespace _ => "here"
  | invalidNth _ _ => "here"
  | invalidCompound => "in this compound selector"

end Problem

/-- The problem that an item marks. -/
def NodeRef.diagnostic? : NodeRef → Option Diagnostic
  | node (.invalid span text) => some ⟨.invalidNode text, span⟩
  | node (.combinator c) => if c.invalid then some ⟨.invalidCombinator c.text, c.span⟩ else none
  | node (.element span _ _ (some ns)) => ns.error.map fun e => ⟨.invalidNamespace e, span⟩
  | node (.compound span _ true) => some ⟨.invalidCompound, span⟩
  | part (.part role p) => if p.invalid then some ⟨.invalidNth role p.text, p.span⟩ else none
  | _ => none

/-- The problems marked under `root`, ordered by where they start. -/
def diagnostics (root : List NodeRef) : List Diagnostic :=
  let found := walk {} (fun v found => (found ++ v.item.diagnostic?.toList, .descend)) root []
  found.mergeSort fun a b => a.span.start ≤ b.span.start

/-- The problems marked under `root` and the events of collecting them. -/
def diagnosticsLogged (root : List NodeRef) : List Diagnostic × List Event :=
  let found := diagnostics root
  (found, [.diagnosed found.length])

end Selectors
