import Selectors.Parser.Draft
import Selectors.Proofs.Checked.Arithmetic
import Selectors.Proofs.Coverage.Step

/-!
# Checked namespaces

A bar takes the name before it, and only comments without blanks may stand between the two.  Going
back over them by index stays inside the list of nodes, so it finds what `Draft.qualifier?` finds
(`qualifier_eq`).
-/

namespace Selectors

namespace Checked

/-- Goes back over a comment that owns no blanks. -/
def qualifierRound (nodes : List Node) (stop : Nat) : Except Fault (Option Nat) := do
  if 0 < stop then
    let last ← difference stop 1
    match ← item nodes last with
    | .comment c => if c.isSpacing then return none else return some last
    | _ => return none
  else return none

/-- The type or universal selector before a bar, if it is not yet namespaced and only comments
without blanks follow it. -/
def qualifier (nodes : List Node) : Except Fault (Option Draft.Qualifier) := do
  let stop ← loop (qualifierRound nodes) (nodes.length + 1) nodes.length
  if 0 < stop then
    match ← item nodes (← difference stop 1) with
    | .element _ _ _ none =>
      let (nodes, drained) ← splitAt nodes stop
      let comments := drained.filterMap fun n =>
        match n with
        | .comment c => some c
        | _ => none
      let (nodes, n) ← pop nodes
      return some ⟨n.value, n.span.start, comments, nodes.reverse⟩
    | _ => return none
  else return none

end Checked

end Selectors
