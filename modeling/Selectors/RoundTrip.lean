import Selectors.Compound
import Selectors.Json.Reader
import Selectors.Parser
import Selectors.Tree.Equality
import Selectors.Tree.Print
import Selectors.Walk

/-!
# Round trips

What must hold of every text is checked on given ones: printing its tree gives the text back, no
span leaves the text, splitting undoes grouping, and an offset moves every span.  The first check
that fails is reported.
-/

namespace Selectors

/-- A check that a text fails. -/
inductive Mismatch where
  /-- The tree prints as another text. -/
  | printed (input output : String)
  /-- A span ends before it starts, or behind the text. -/
  | span (input value : String) (span : Span)
  /-- Splitting does not undo grouping. -/
  | compound (input : String)
  /-- An offset does not move every span. -/
  | offset (input : String) (offset : Nat)
  deriving DecidableEq, Repr

namespace Mismatch

/-- The text of a report. -/
def message : Mismatch → String
  | printed input output => "printing `" ++ input ++ "` gave `" ++ output ++ "`"
  | span input value s =>
    "node `" ++ value ++ "` in `" ++ input ++ "` spans " ++ toString s.start ++ ".." ++
      toString s.stop ++ " outside of the input"
  | compound input => "grouping then splitting `" ++ input ++ "` changed the tree"
  | offset input k =>
    "parsing `" ++ input ++ "` at offset " ++ toString k ++ " did not shift every node"

/-- The items of a list in the order of a walk. -/
def items (list : List Selector) : List NodeRef :=
  (visits {} [] (list.map .selector)).map Visit.item

/-- Checks that the tree prints as the text. -/
def ofPrint? (input : String) (list : List Selector) : Option Mismatch :=
  let text := Selector.printList list
  if text == input then none else some (printed input text)

/-- Checks that every span is inside the text. -/
def ofSpans? (input : String) (list : List Selector) : Option Mismatch :=
  let outside (r : NodeRef) : Bool := r.span.stop < r.span.start || input.utf8ByteSize < r.span.stop
  ((items list).find? outside).map fun r => span input r.value r.span

/-- Checks that splitting undoes grouping. -/
def ofCompounds? (input : String) (list : List Selector) : Option Mismatch :=
  if Selector.splitEach (Selector.groupAll {} list) = list then none else some (compound input)

/-- Checks that the tree `shifted` has every span of the tree `list` moved by `k`. -/
def ofOffset? (input : String) (k : Nat) (list shifted : List Selector) : Option Mismatch :=
  if (items shifted).map NodeRef.span = (items list).map (·.span.shift k) then none
  else some (offset input k)

end Mismatch

/-- The offset that round trips are checked with. -/
def checkOffset : Nat := 7

/-- The first check that a text fails, and the events of checking it. -/
def checkRoundTrip (input : String) : Option Mismatch × List Event :=
  let (list, events) := parseLogged input 0
  match Mismatch.ofPrint? input list <|> Mismatch.ofSpans? input list with
  | some m => (some m, events)
  | none =>
    let events := events ++ Selector.groupEventsAll {} list
    match Mismatch.ofCompounds? input list with
    | some m => (some m, events)
    | none =>
      let (shifted, more) := parseLogged input checkOffset
      (Mismatch.ofOffset? input checkOffset list shifted, events ++ more)

/-- The checks that texts fail, and the events of checking them; failures are reported last. -/
def checkAll (inputs : List String) : List Mismatch × List Event :=
  let checks := inputs.map checkRoundTrip
  let failures := checks.filterMap Prod.fst
  (failures, (checks.map Prod.snd).flatten ++ failures.map fun m => .sampleFailed m.message)

/-- Checks the texts of a JSON list. -/
def checkSamples (json : String) : Except Json.Fault (List Mismatch × List Event) :=
  (Json.readStrings json).map checkAll

end Selectors
