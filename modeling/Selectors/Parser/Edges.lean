import Selectors.Tree.Print

/-!
# Blanks at the edges of a selector

Blanks at either edge of a selector are no combinator.  They move into the selector's own blanks,
or into the nearest comment when a comment stands between them and the edge.  Both edges are
trimmed by one function, the right one on the reversed nodes.
-/

namespace Selectors

namespace Edge

/-- Blanks and comments after the comment `c`: blanks join the comment before them, up to the
first node that is neither. -/
def absorb (join : Comment → Combinator → Comment) (c : Comment) : List Node → List Node
  | .combinator s :: ns =>
    if s.kind = .descendant then absorb join (join c s) ns
    else .comment c :: .combinator s :: ns
  | .comment d :: ns => .comment c :: absorb join d ns
  | ns => .comment c :: ns

/-- The descendant combinators in front of a list of nodes, and the nodes after them, in which
blanks join the comments at the front. -/
def trim (join : Comment → Combinator → Comment) : List Node → List Combinator × List Node
  | .combinator s :: ns =>
    if s.kind = .descendant then
      let r := trim join ns
      (s :: r.1, r.2)
    else ([], .combinator s :: ns)
  | .comment c :: ns => ([], absorb join c ns)
  | ns => ([], ns)

/-- A comment with blanks put after it. -/
def joinAfter (c : Comment) (s : Combinator) : Comment :=
  { c with after := c.after ++ s.print, span.stop := s.span.stop }

/-- A comment with blanks put in front of it. -/
def joinBefore (c : Comment) (s : Combinator) : Comment :=
  { c with before := s.print ++ c.before, span.start := s.span.start }

/-- The text of combinators one after the other. -/
def text : List Combinator → String
  | [] => ""
  | c :: cs => c.print ++ text cs

end Edge

/-- The selector with the blanks at its edges moved out of its nodes. -/
def Selector.trim (s : Selector) : Selector :=
  let left := Edge.trim Edge.joinAfter s.nodes
  let right := Edge.trim Edge.joinBefore left.2.reverse
  { s with
    before := s.before ++ Edge.text left.1
    after := Edge.text right.1.reverse ++ s.after
    nodes := right.2.reverse }

end Selectors
