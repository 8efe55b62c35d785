import Selectors.Token.Block
import Selectors.Parser.Gap
import Selectors.Parser.Edges
import Selectors.Nth.Reader

/-!
# Selectors being read

A `Draft` is a selector being read, its nodes last one first, since reading looks at the last
ones only: a namespace takes the name before it, parentheses the functional node before them.
A `Builder` is a list being read.

`Draft.step` reads the node that a token starts, parenthesized lists apart, and tells which tokens
are left (`Draft.step_suffix`).
-/

namespace Selectors

/-- A selector being read. -/
structure Draft where
  start : Nat
  before : String := ""
  /-- The nodes so far, last one first. -/
  nodes : List Node := []

/-- A list of selectors being read. -/
structure Builder where
  /-- The selectors already closed, last one first. -/
  closed : List Selector := []
  /-- The selector being read; none before the first token. -/
  draft : Option Draft := none

/-- What reading a node gives: the selector with the node, and the tokens left. -/
structure Step where
  draft : Draft
  rest : List Token
  events : List Event := []

namespace Draft

/-- The selector, ended at `stop`. -/
def close (d : Draft) (stop : Nat) : Selector :=
  Selector.trim ⟨⟨d.start, stop⟩, d.before, "", d.nodes.reverse⟩

/-- Adds a node. -/
def push (d : Draft) (n : Node) : Draft := { d with nodes := n :: d.nodes }

/-! ### Names -/

/-- The comments at the front of the tokens, and what is left. -/
def takeComments (ts : List Token) : List Comment × List Token :=
  let (run, rest) := Token.takeRun .comment ts
  (run.map .ofToken, rest)

/-- Where a name ends: after its text, else after the comments before it, else at `stop`. -/
def nameStop (stop : Nat) (comments : List Comment) (name : Option Token) : Nat :=
  match name, comments.getLast? with
  | some t, _ => t.span.stop
  | none, some c => c.span.stop
  | none, none => stop

/-- The text of a name that may be missing. -/
def nameText (name : Option Token) : String := (name.map (·.text)).getD ""

/-- Reads a class; `t` is its dot. -/
def stepClass (d : Draft) (t : Token) (ts : List Token) : Step :=
  let (comments, ts) := takeComments ts
  let (name, ts) := Token.take? .text ts
  let span := ⟨t.span.start, nameStop t.span.stop comments name⟩
  { draft := d.push (.functional span (.dot comments) (nameText name) none), rest := ts }

/-- Reads an id; `t` is its hash. -/
def stepId (d : Draft) (t : Token) (ts : List Token) : Step :=
  let (name, ts) := Token.take? .text ts
  let span := ⟨t.span.start, nameStop t.span.stop [] name⟩
  { draft := d.push (.functional span .hash (nameText name) none), rest := ts }

/-- Reads a pseudo-class or pseudo-element; `t` is its first colon. -/
def stepPseudo (d : Draft) (t : Token) (ts : List Token) : Step :=
  let (first, ts) := takeComments ts
  match Token.take? .colon ts with
  | (some colon, ts) =>
    let (second, ts) := takeComments ts
    let (name, ts) := Token.take? .text ts
    let span := ⟨t.span.start, nameStop colon.span.stop second name⟩
    { draft := d.push (.functional span (.colons first second) (nameText name) none), rest := ts }
  | (none, ts) =>
    let (name, ts) := Token.take? .text ts
    let span := ⟨t.span.start, nameStop t.span.stop first name⟩
    { draft := d.push (.functional span (.colon first) (nameText name) none), rest := ts }

/-! ### Namespaces -/

/-- The comments at the end of the nodes that own no blanks, in order, and the nodes before them,
last one first. -/
def splitTightComments : List Node → List Comment × List Node
  | .comment c :: ns =>
    if c.isSpacing then ([], .comment c :: ns)
    else
      let r := splitTightComments ns
      (r.1 ++ [c], r.2)
  | ns => ([], ns)

/-- What a bar takes as its namespace. -/
structure Qualifier where
  value : String
  start : Nat
  comments : List Comment
  /-- The nodes before the namespace, last one first. -/
  nodes : List Node

/-- The type or universal selector before a bar, if it is not yet namespaced and only comments
without blanks follow it. -/
def qualifier? (nodes : List Node) : Option Qualifier :=
  match splitTightComments nodes with
  | (comments, .element span _ name none :: ns) => some ⟨name, span.start, comments, ns⟩
  | _ => none

/-- The side that a namespaced name lacks. -/
def namespaceError (hasNamespace hasTarget : Bool) : Option NamespaceError :=
  match hasNamespace, hasTarget with
  | true, true => none
  | false, true => some .noNamespace
  | true, false => some .noTarget
  | false, false => some .neither

/-- The name after a bar, if there is one, and what is left. -/
def takeTarget (ts : List Token) : Option Token × List Token :=
  match Token.take? .text ts with
  | (some name, ts) => (some name, ts)
  | (none, ts) => Token.take? .star ts

/-- Reads the rest of a namespaced name; `t` is its bar. -/
def stepBar (d : Draft) (t : Token) (ts : List Token) : Step :=
  let (afterComments, ts) := takeComments ts
  let (target, ts) := takeTarget ts
  let qualifier := qualifier? d.nodes
  let q := qualifier.getD { value := "", start := t.span.start, comments := [], nodes := d.nodes }
  let error := namespaceError qualifier.isSome target.isSome
  let ns : Namespace :=
    { value := q.value
      beforeComments := q.comments
      afterComments := afterComments
      error := error }
  let kind := if target.any (·.kind == .star) then .universal else .type
  let span := ⟨q.start, nameStop t.span.stop afterComments target⟩
  { draft := { d with nodes := .element span kind (nameText target) (some ns) :: q.nodes }
    rest := ts
    events := (error.map (Event.invalidNamespace q.start)).toList }

/-! ### Other nodes -/

/-- Reads an attribute; `t` is its bracket.  One that never closes ends before a parenthesis or a
comma that may belong to the selectors around it. -/
def stepAttribute (d : Draft) (t : Token) (ts : List Token) : Step :=
  let b := Block.read .openBracket .closeBracket (fun k => k == .closeParen || k == .comma) ts
  match b.closer with
  | some c =>
    { draft :=
        d.push (.functional ⟨t.span.start, c.span.stop⟩ .brackets (Token.join b.inside) none)
      rest := b.rest }
  | none =>
    let span := ⟨t.span.start, (b.inside.getLast?.map (·.span.stop)).getD t.span.stop⟩
    { draft := d.push (.invalid span (t.text ++ Token.join b.inside))
      rest := b.rest
      events := [.unclosedAttribute span] }

/-- Skips a parenthesized block; `t` is its parenthesis. -/
def stepTooDeep (depth : Nat) (d : Draft) (t : Token) (ts : List Token) : Step :=
  let b := Block.read .openParen .closeParen (fun _ => false) ts
  let span := ⟨t.span.start, (b.taken.getLast?.map (·.span.stop)).getD t.span.stop⟩
  { draft := d.push (.invalid span (t.text ++ Token.join b.taken))
    rest := b.rest
    events := [.tooDeep depth span] }

/-- Reads the gap that `t` starts. -/
def stepGap (d : Draft) (t : Token) (ts : List Token) : Step :=
  let g := Gap.read d.nodes.isEmpty t ts
  { draft := { d with before := d.before ++ g.before, nodes := g.nodes ++ d.nodes }
    rest := Gap.rest ts
    events := g.events }

/-- Reads the node that `t` starts, at the given nesting depth. -/
def step (depth : Nat) (d : Draft) (t : Token) (ts : List Token) : Step :=
  match t.kind with
  | .dot => d.stepClass t ts
  | .hash => d.stepId t ts
  | .colon => d.stepPseudo t ts
  | .pipe => d.stepBar t ts
  | .openBracket => d.stepAttribute t ts
  | .openParen => d.stepTooDeep depth t ts
  | .space | .plus | .greaterThan | .tilde => d.stepGap t ts
  | .text => { draft := d.push (.element t.span .type t.text none), rest := ts }
  | .star => { draft := d.push (.element t.span .universal t.text none), rest := ts }
  | .ampersand => { draft := d.push (.functional t.span .ampersand t.text none), rest := ts }
  | .comment => { draft := d.push (.comment (.ofToken t)), rest := ts }
  | _ =>
    { draft := d.push (.invalid t.span t.text)
      rest := ts
      events := [.unexpectedToken t.kind t.span.start] }

theorem takeComments_suffix (ts : List Token) : (takeComments ts).2 <:+ ts :=
  Token.takeRun_suffix .comment ts

theorem stepPseudo_suffix (d : Draft) (t : Token) (ts : List Token) :
    (d.stepPseudo t ts).rest <:+ ts := by
  have h := takeComments_suffix ts
  have hc := Token.take?_suffix .colon (takeComments ts).2
  simp only [stepPseudo]
  split
  · rename_i c ts' he
    rw [he] at hc
    exact ((Token.take?_suffix _ _).trans (takeComments_suffix _)).trans (hc.trans h)
  · rename_i ts' he
    rw [he] at hc
    exact (Token.take?_suffix _ _).trans (hc.trans h)

theorem takeTarget_append (ts : List Token) :
    (takeTarget ts).1.toList ++ (takeTarget ts).2 = ts := by
  have h := Token.take?_append .text ts
  simp only [takeTarget]
  split
  · rename_i name ts' he
    rwa [he] at h
  · rename_i ts' he
    rw [he] at h
    rw [Token.take?_append]
    exact h

theorem takeTarget_suffix (ts : List Token) : (takeTarget ts).2 <:+ ts :=
  ⟨_, takeTarget_append ts⟩

theorem stepAttribute_suffix (d : Draft) (t : Token) (ts : List Token) :
    (d.stepAttribute t ts).rest <:+ ts := by
  simp only [stepAttribute]
  split <;> exact Block.read_suffix _ _ _ _

/-- **Reading a node leaves a suffix of the tokens.** -/
theorem step_suffix (depth : Nat) (d : Draft) (t : Token) (ts : List Token) :
    (d.step depth t ts).rest <:+ ts := by
  unfold step
  split
  · exact (Token.take?_suffix _ _).trans (takeComments_suffix ts)
  · exact Token.take?_suffix _ _
  · exact stepPseudo_suffix d t ts
  · exact (takeTarget_suffix _).trans (takeComments_suffix ts)
  · exact stepAttribute_suffix d t ts
  · exact Block.read_suffix _ _ _ _
  · exact Gap.rest_suffix ts
  · exact Gap.rest_suffix ts
  · exact Gap.rest_suffix ts
  · exact Gap.rest_suffix ts
  all_goals exact List.suffix_rfl

end Draft

namespace Builder

/-- The selector being read when `t` comes. -/
def current (b : Builder) (t : Token) : Draft := b.draft.getD { start := t.span.start }

/-- The list with its selector replaced. -/
def set (b : Builder) (d : Draft) : Builder := { b with draft := some d }

/-- A comma ends a selector and starts the next one. -/
def comma (b : Builder) (t : Token) : Builder :=
  { closed := (b.current t).close t.span.start :: b.closed
    draft := some { start := t.span.stop } }

/-- The list, its last selector ended at `stop`. -/
def finish (b : Builder) (stop : Nat) : List Selector :=
  ((b.draft.map (·.close stop)).toList ++ b.closed).reverse

end Builder

end Selectors
