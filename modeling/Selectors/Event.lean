import Selectors.Tree.Basic
import Selectors.Text.Quoted

/-!
# The event log

What the library notices on its way is kept as a list of events, apart from the results.  An
event has a level, a message and named fields, and is written as one line.

* `Event.line` writes an event.
* `Event.atLevel` keeps the events that a level lets through.
-/

namespace Selectors

/-- How serious an event is, most serious first. -/
inductive Level where
  | error
  | warn
  | info
  | debug
  | trace
  deriving DecidableEq, Repr, Inhabited

namespace Level

/-- Every level. -/
def all : List Level := [error, warn, info, debug, trace]

/-- The name of a level in a log. -/
def name : Level → String
  | error => "ERROR"
  | warn => "WARN"
  | info => "INFO"
  | debug => "DEBUG"
  | trace => "TRACE"

/-- How much detail a level admits. -/
def detail : Level → Nat
  | error => 1
  | warn => 2
  | info => 3
  | debug => 4
  | trace => 5

end Level

/-- What the reader of an `An+B of S` expression expects next. -/
inductive NthPhase where
  | step
  | dash
  | offset
  | of
  /-- Nothing: the expression is complete. -/
  | selector
  deriving DecidableEq, Repr, Inhabited

/-- The name of a phase in a log. -/
def NthPhase.name : NthPhase → String
  | step => "Step"
  | dash => "Dash"
  | offset => "Offset"
  | of => "Of"
  | selector => "Selector"

/-- Something worth a line in the log. -/
inductive Event where
  /-- A text was cut into `count` tokens. -/
  | tokenized (count : Nat)
  /-- A list of `count` selectors was read. -/
  | parsed (count : Nat)
  /-- An attribute was cut short. -/
  | unclosedAttribute (span : Span)
  /-- A token is part of no selector. -/
  | unexpectedToken (kind : TokenKind) (start : Nat)
  /-- A parenthesized block was too deep to be read. -/
  | tooDeep (depth : Nat) (span : Span)
  /-- A parenthesized block belongs to no functional node. -/
  | strayParens (span : Span)
  /-- A namespaced name lacks a side. -/
  | invalidNamespace (start : Nat) (error : NamespaceError)
  /-- A combinator follows another one. -/
  | extraCombinator (start : Nat)
  /-- An `An+B` expression of `count` items was read. -/
  | nthRead (count : Nat) (phase : NthPhase)
  /-- A text is no step of an `An+B` expression. -/
  | invalidStep (text : String)
  /-- A type or universal selector stands inside a compound. -/
  | elementInsideCompound (start : Nat)
  /-- The problems of a tree were collected. -/
  | diagnosed (count : Nat)
  /-- An unknown section of an update was skipped. -/
  | unknownSection (key : String)
  /-- A sample failed its check. -/
  | sampleFailed (failure : String)
  deriving DecidableEq, Repr

namespace Event

/-- The level of an event. -/
def level : Event → Level
  | tooDeep _ _ => .warn
  | diagnosed _ => .debug
  | unknownSection _ => .debug
  | sampleFailed _ => .error
  | _ => .trace

/-- The message of an event. -/
def message : Event → String
  | tokenized _ => "tokenized selector"
  | parsed _ => "parsed selector list"
  | unclosedAttribute _ => "unclosed attribute"
  | unexpectedToken _ _ => "unexpected token"
  | tooDeep _ _ => "selector nested too deep"
  | strayParens _ => "parenthesis without functional selector"
  | invalidNamespace _ _ => "invalid namespace"
  | extraCombinator _ => "combinator after combinator"
  | nthRead _ _ => "parsed nth expression"
  | invalidStep _ => "invalid nth step"
  | elementInsideCompound _ => "type selector inside compound selector"
  | diagnosed _ => "collected selector diagnostics"
  | unknownSection _ => "ignoring unknown configuration section"
  | sampleFailed _ => "fuzz sample failed"

/-- The named fields of an event, as they are written. -/
def fields : Event → List (String × String)
  | tokenized n => [("count", toString n)]
  | parsed n => [("selectors", toString n)]
  | unclosedAttribute s => [("start", toString s.start), ("end", toString s.stop)]
  | unexpectedToken k p => [("kind", k.name), ("start", toString p)]
  | tooDeep d s => [("depth", toString d), ("start", toString s.start), ("end", toString s.stop)]
  | strayParens s => [("start", toString s.start), ("end", toString s.stop)]
  | invalidNamespace p e => [("start", toString p), ("invalid", e.name)]
  | extraCombinator p => [("start", toString p)]
  | nthRead n p => [("nodes", toString n), ("state", p.name)]
  | invalidStep t => [("value", quoted t)]
  | elementInsideCompound p => [("start", toString p)]
  | diagnosed n => [("count", toString n)]
  | unknownSection k => [("key", quoted k)]
  | sampleFailed f => [("failure", f)]

/-- An event as one line: the message first, then the fields. -/
def line (e : Event) : String :=
  (("message", e.message) :: e.fields).foldl (fun s f => s ++ " " ++ f.1 ++ " = " ++ f.2 ++ ";")
    "\x7b" ++ " \x7d"

/-- The events that a log with the given limit keeps; no limit keeps none. -/
def atLevel (limit : Option Level) (events : List Event) : List Event :=
  match limit with
  | none => []
  | some l => events.filter fun e => e.level.detail ≤ l.detail

end Event

end Selectors
