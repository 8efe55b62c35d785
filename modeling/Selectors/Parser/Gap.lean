import Selectors.Event
import Selectors.Tree.Print

/-!
# Gaps between compound selectors

A gap is a run of blanks, comments and combinator tokens that starts with blanks or a combinator.
Its first combinator is the one that counts.

* Blanks are the descendant combinator only until `+`, `>` or `~` follows.  With no comment in
  between, the blanks become part of that combinator; otherwise they move to the first comment
  after them, or to the selector when nothing precedes them in it.
* Blanks after a combinator or a comment belong to it.
* A further combinator in the same gap is kept and flagged.
-/

namespace Selectors

/-- The kinds of the tokens that continue a gap. -/
def TokenKind.isGap : TokenKind → Bool
  | space | comment | plus | greaterThan | tilde => true
  | _ => false

/-- A gap being read. -/
structure Gap where
  /-- Blanks that move to the start of the selector. -/
  before : String := ""
  /-- The nodes before the current combinator, last one first. -/
  settled : List Node := []
  /-- The combinator read last. -/
  current : Combinator
  /-- The comments after the current combinator, last one first. -/
  comments : List Comment := []
  events : List Event := []

namespace Gap

/-- The gap that a token starts. -/
def start (t : Token) : Gap := { current := .ofToken t }

/-- The nodes of the gap, last one first. -/
def nodes (g : Gap) : List Node := g.comments.map .comment ++ .combinator g.current :: g.settled

/-- Blanks belong to the comment or combinator before them. -/
def pushBlanks (g : Gap) (t : Token) : Gap :=
  match g.comments with
  | c :: cs =>
    { g with comments := { c with after := c.after ++ t.text, span.stop := t.span.stop } :: cs }
  | [] =>
    { g with
      current := { g.current with after := g.current.after ++ t.text, span.stop := t.span.stop } }

/-- Gives the text of the combinator `s` to the first of some comments, of which the last comes
first. -/
def giveToFirst (s : Combinator) : List Comment → List Comment
  | [] => []
  | [c] => [{ c with before := s.print ++ c.before, span.start := s.span.start }]
  | c :: cs => c :: giveToFirst s cs

/-- A combinator token replaces the blanks before it, moves them away, or is one too many.
`atFront` says that the gap is the first thing in its selector. -/
def pushCombinator (atFront : Bool) (g : Gap) (t : Token) : Gap :=
  let s := g.current
  if s.kind = .descendant then
    if g.comments = [] then
      { g with
        current :=
          { s with
            before := s.print, text := t.text, after := "",
            kind := .ofText t.text, span.stop := t.span.stop } }
    else if atFront && g.settled.isEmpty then
      { g with
        before := g.before ++ s.print
        settled := g.comments.map .comment
        current := .ofToken t
        comments := [] }
    else
      { g with
        settled := (giveToFirst s g.comments).map .comment ++ g.settled
        current := .ofToken t
        comments := [] }
  else
    { g with
      settled := g.nodes
      current := { Combinator.ofToken t with invalid := true }
      comments := []
      events := g.events ++ [.extraCombinator t.span.start] }

/-- Takes one more token into the gap. -/
def push (atFront : Bool) (g : Gap) (t : Token) : Gap :=
  match t.kind with
  | .space => g.pushBlanks t
  | .comment => { g with comments := .ofToken t :: g.comments }
  | _ => g.pushCombinator atFront t

/-- Reads the gap that `t` starts. -/
def read (atFront : Bool) (t : Token) (ts : List Token) : Gap :=
  (ts.takeWhile (·.kind.isGap)).foldl (push atFront) (start t)

/-- The tokens after a gap. -/
def rest (ts : List Token) : List Token := ts.dropWhile (·.kind.isGap)

theorem rest_suffix (ts : List Token) : rest ts <:+ ts := List.dropWhile_suffix _

end Gap

end Selectors
