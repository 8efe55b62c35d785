import Selectors.Parser
import Selectors.Proofs.Blocks
import Selectors.Proofs.Checked.Edges
import Selectors.Proofs.Checked.Gap
import Selectors.Proofs.Checked.Namespaces
import Selectors.Proofs.Checked.Nth
import Selectors.Proofs.Checked.Tokens
import Selectors.Proofs.Progress.Attempt

/-!
# Reading at a cursor

`parse` reads a text without looking at the size of positions, takes the text of a node from the
tokens, and rearranges lists of nodes as wholes.  Its reader of lists, `readList`, hands on the tokens
that are left; they are a suffix of the tokens by the type of its result, and that is why it ends.

`Reader` reads the same grammar the way a program does that moves one cursor over an array, with
every step of arithmetic checked.  Nothing in its definition says that it ends, or that no step fails:

* a token is looked at by reading it, and given back when it is not wanted; and a block that is
  never closed is read to the end of the tokens, and then the cursor goes back to where it is cut;
* the depth is a counter, which goes up before a nested list and down behind it;
* a run reads tokens and hands each to a handler, as long as there are any and the handler asks for
  more, and the handler of a parenthesis is a run again;
* positions are words of 64 bits, lengths of tokens words of 32 bits, and the brackets that are open
  inside a block are counted in a word of 32 bits;
* nodes are reached by index, and raw text is cut out of the source, at the positions in the tree
  less the offset.

The functions are least fixed points: an attempt that is `none` stands for a loop that never ends.  A
fault ends reading.  What is a fault depends on the build; a strict build also stops where a program
would go on with an empty text.  A run gives the places at which it called its handler.

What this does not check: that an index grows by one past an item, since it then is at most the length
of its list.
-/

namespace Selectors

namespace TokenCursor

/-- Reads the tokens of kind `k` ahead, one after the other. -/
def takeMany (k : TokenKind) (c : TokenCursor) : Attempt (List Token × TokenCursor) := do
  let taken := c.take? k
  if taken.1.isSome then
    let more ← taken.2 |>.takeMany k
    return (taken.1.toList ++ more.1, more.2)
  else return ([], taken.2)
partial_fixpoint

/-- Reads the tokens of a gap.  The first token of another kind is given back. -/
def readGap (g : Checked.Gap) (c : TokenCursor) : Attempt (Checked.Gap × TokenCursor) := do
  let t := c.next.1
  let c := c.next.2
  if t.kind.isGap then
    let g ← .of (g.push t)
    c |>.readGap g
  else return (g, c.back)
partial_fixpoint

/-! ### Expressions -/

/-- An expression at a cursor, and whether it may go on. -/
structure NthTurn where
  draft : NthDraft
  cursor : TokenCursor
  events : List Event := []
  more : Bool := true

/-- The word that `t` starts: a plus takes the text after it along. -/
def takeWord (t : Token) (c : TokenCursor) : String × Span × TokenCursor :=
  if t.kind = .plus then
    match c.take? .text with
    | (some u, c) => ("+" ++ u.text, ⟨t.span.start, u.span.stop⟩, c)
    | (none, c) => (t.text, t.span, c)
  else (t.text, t.span, c)

/-- Takes the token `t` into an expression, or gives it back. -/
def turnNth (m : Build) (d : NthDraft) (t : Token) (c : TokenCursor) : Attempt NthTurn := do
  match t.kind with
  | .space => return { draft := d.pushBlanks t, cursor := c }
  | .comment => return { draft := d.push (.comment (.ofToken t)), cursor := c }
  | .text | .plus =>
    if d.phase = .selector then return { draft := d, cursor := c.back, more := false }
    else
      let (text, span, c) := takeWord t c
      let a ← .of (Checked.accept m d text span)
      return { draft := a.1, cursor := c, events := a.2 }
  | _ => return { draft := d, cursor := c.back, more := false }

/-- An expression read, the cursor behind it, and the places of the tokens that were handed on. -/
structure NthRun where
  draft : NthDraft
  cursor : TokenCursor
  events : List Event
  places : List Nat

/-- Reads an expression. -/
def runNth (m : Build) (d : NthDraft) (c : TokenCursor) : Attempt NthRun := do
  let t := c.next.1
  let after := c.next.2
  if t.kind = .eof then return ⟨d, after.back, [], []⟩
  else
    let a ← turnNth m d t after
    if a.more then
      let r ← a.cursor |>.runNth m a.draft
      return { r with events := a.events ++ r.events, places := c.index :: r.places }
    else return ⟨a.draft, a.cursor, a.events, [c.index]⟩
partial_fixpoint

end TokenCursor

/-! ### Readers -/

/-- A reader of selectors. -/
structure Reader where
  cursor : TokenCursor
  /-- The number of parentheses that are open. -/
  depth : Nat
  /-- The list being read. -/
  builder : Builder
  events : List Event := []

namespace Reader

open Checked (Source)

/-- What reading a node gives: the selector with the node, and the cursor behind it. -/
structure Stride where
  draft : Draft
  cursor : TokenCursor
  events : List Event := []

/-- Reads the comments ahead. -/
def takeComments (c : TokenCursor) : Attempt (List Comment × TokenCursor) := do
  let (ts, c) ← c.takeMany .comment
  return (ts.map .ofToken, c)

/-- Reads the name after a bar, if there is one. -/
def takeTarget (c : TokenCursor) : Option Token × TokenCursor :=
  match c.take? .text with
  | (some name, c) => (some name, c)
  | (none, c) => c.take? .star

/-- Reads a class; `t` is its dot. -/
def stepClass (d : Draft) (t : Token) (c : TokenCursor) : Attempt Stride := do
  let (comments, c) ← takeComments c
  let (name, c) := c.take? .text
  let span := ⟨t.span.start, Draft.nameStop t.span.stop comments name⟩
  return {
    draft := d.push (.functional span (.dot comments) (Draft.nameText name) none)
    cursor := c }

/-- Reads an id; `t` is its hash. -/
def stepId (d : Draft) (t : Token) (c : TokenCursor) : Stride :=
  let (name, c) := c.take? .text
  let span := ⟨t.span.start, Draft.nameStop t.span.stop [] name⟩
  { draft := d.push (.functional span .hash (Draft.nameText name) none), cursor := c }

/-- Reads a pseudo-class or pseudo-element; `t` is its first colon. -/
def stepPseudo (d : Draft) (t : Token) (c : TokenCursor) : Attempt Stride := do
  let (first, c) ← takeComments c
  match c.take? .colon with
  | (some colon, c) =>
    let (second, c) ← takeComments c
    let (name, c) := c.take? .text
    let span := ⟨t.span.start, Draft.nameStop colon.span.stop second name⟩
    return {
      draft := d.push (.functional span (.colons first second) (Draft.nameText name) none)
      cursor := c }
  | (none, c) =>
    let (name, c) := c.take? .text
    let span := ⟨t.span.start, Draft.nameStop t.span.stop first name⟩
    return {
      draft := d.push (.functional span (.colon first) (Draft.nameText name) none)
      cursor := c }

/-- Reads the rest of a namespaced name; `t` is its bar. -/
def stepBar (d : Draft) (t : Token) (c : TokenCursor) : Attempt Stride := do
  let (afterComments, c) ← takeComments c
  let (target, c) := takeTarget c
  let qualifier ← .of (Checked.qualifier d.nodes.reverse)
  let q := qualifier.getD { value := "", start := t.span.start, comments := [], nodes := d.nodes }
  let error := Draft.namespaceError qualifier.isSome target.isSome
  let ns : Namespace :=
    { value := q.value, beforeComments := q.comments, afterComments, error }
  let kind := if target.any (·.kind == .star) then .universal else .type
  let span := ⟨q.start, Draft.nameStop t.span.stop afterComments target⟩
  return {
    draft := { d with nodes := .element span kind (Draft.nameText target) (some ns) :: q.nodes }
    cursor := c
    events := (error.map (Event.invalidNamespace q.start)).toList }

/-- Reads the gap that `t` starts. -/
def stepGap (d : Draft) (t : Token) (c : TokenCursor) : Attempt Stride := do
  let nodes := d.nodes.reverse
  let g : Checked.Gap :=
    { nodes := nodes ++ [.combinator (.ofToken t)], index := nodes.length, before := d.before }
  let (g, c) ← c.readGap g
  return {
    draft := { d with before := g.before, nodes := g.nodes.reverse }
    cursor := c
    events := g.events }

section

variable (m : Build) (source : Source)

/-- Adds the text between two positions as a node that is part of no selector. -/
def pushInvalid (d : Draft) (start stop : Nat) : Attempt Draft := do
  return d.push (.invalid ⟨start, stop⟩ (← .of (source.raw m start stop)))

/-- Reads a block, its opening token already read. -/
def readBlock (c : TokenCursor) (opener closer : TokenKind) (cut : TokenKind → Bool) :
    Attempt (Block × TokenCursor) :=
  .of ((c.readBlock m opener closer fun t => cut t.kind).mapError .ofOverflow)

/-- Reads an attribute; `t` is its bracket. -/
def stepAttribute (d : Draft) (t : Token) (c : TokenCursor) : Attempt Stride := do
  let (b, c) ← readBlock m c .openBracket .closeBracket fun k => k == .closeParen || k == .comma
  match b.closer with
  | some closer =>
    let text ← .of (source.raw m t.span.stop closer.span.start)
    return {
      draft := d.push (.functional ⟨t.span.start, closer.span.stop⟩ .brackets text none)
      cursor := c }
  | none =>
    let stop := (b.inside.getLast?.map (·.span.stop)).getD t.span.stop
    return {
      draft := ← pushInvalid m source d t.span.start stop
      cursor := c
      events := [.unclosedAttribute ⟨t.span.start, stop⟩] }

/-- Skips a parenthesized block; `t` is its parenthesis. -/
def stepTooDeep (depth : Nat) (d : Draft) (t : Token) (c : TokenCursor) : Attempt Stride := do
  let (b, c) ← readBlock m c .openParen .closeParen fun _ => false
  let stop := ((b.closer.or b.inside.getLast?).map (·.span.stop)).getD t.span.stop
  return {
    draft := ← pushInvalid m source d t.span.start stop
    cursor := c
    events := [.tooDeep depth ⟨t.span.start, stop⟩] }

/-- Reads the node that `t` starts, at the given nesting depth. -/
def step (depth : Nat) (d : Draft) (t : Token) (c : TokenCursor) : Attempt Stride := do
  match t.kind with
  | .dot => stepClass d t c
  | .hash => return stepId d t c
  | .colon => stepPseudo d t c
  | .pipe => stepBar d t c
  | .openBracket => stepAttribute m source d t c
  | .openParen => stepTooDeep m source depth d t c
  | .space | .plus | .greaterThan | .tilde => stepGap d t c
  | .text => return { draft := d.push (.element t.span .type t.text none), cursor := c }
  | .star => return { draft := d.push (.element t.span .universal t.text none), cursor := c }
  | .ampersand =>
    return { draft := d.push (.functional t.span .ampersand t.text none), cursor := c }
  | .comment => return { draft := d.push (.comment (.ofToken t)), cursor := c }
  | _ =>
    return {
      draft := ← pushInvalid m source d t.span.start t.span.stop
      cursor := c
      events := [.unexpectedToken t.kind t.span.start] }

end

/-! ### Lists -/

/-- Whether parentheses at the cursor start with an expression. -/
def takesNth (d : Draft) (c : TokenCursor) : Bool :=
  match d.nodes with
  | .functional _ (.colon _) name _ :: _ => isNthName name && (c.peek 1).kind != .closeParen
  | _ => false

/-- Starts the nested list after the parenthesis `t`, with the expression if there is one. -/
def openParens (m : Build) (d : Draft) (t : Token) (r : Reader) : Attempt Reader := do
  if takesNth d r.cursor then
    let n ← r.cursor.runNth m (.start t.span.stop)
    let nth := n.draft.finish
    return { r with
      cursor := n.cursor
      builder :=
        if nth.nodes = [] ∧ nth.before = "" then {}
        else { draft := some { start := t.span.stop, nodes := [.nth nth] } }
      events := r.events ++ (n.events ++ [.nthRead nth.nodes.length n.draft.phase]) }
  else return { r with builder := {} }

/-- A list read: the reader behind it, the parenthesis that closed it, and the places of the tokens
that were handed on. -/
structure Run where
  reader : Reader
  closer : Option Token
  places : List Nat

section

variable (m : Build) (source : Source)

/-- Ends the nested list after the parenthesis `t`.  A list that was not closed ends with the token
read last. -/
def closeParens (d : Draft) (t : Token) (inner : Run) : Attempt (Draft × List Event) := do
  let stop := (inner.closer.map (·.span.start)).getD inner.reader.cursor.current.span.stop
  let list ← .of (Checked.finish inner.reader.builder (.ok stop))
  match inner.closer, d.nodes with
  | some c, .functional span sigil name none :: nodes =>
    return ({ d with
      nodes := .functional ⟨span.start, c.span.stop⟩ sigil name (some list) :: nodes }, [])
  | closer, _ =>
    let stop := (closer.map (·.span.stop)).getD stop
    return (← pushInvalid m source d t.span.start stop, [.strayParens ⟨t.span.start, stop⟩])

mutual

/-- Handles the token `t`, which was just read. -/
def handle (t : Token) (r : Reader) : Attempt Reader := do
  if t.kind = .comma then
    return { r with builder := ← .of (Checked.comma r.builder t) }
  else
    let d := r.builder.current t
    if t.kind = .openParen ∧ r.depth < maxDepth then
      let o ← openParens m d t r
      let inner ← ({ o with depth := o.depth + 1 } : Reader) |>.run true
      let c ← closeParens m source d t inner
      return { inner.reader with
        depth := inner.reader.depth - 1
        builder := r.builder.set c.1
        events := inner.reader.events ++ c.2 }
    else
      let s ← step m source r.depth d t r.cursor
      return { r with
        cursor := s.cursor, builder := r.builder.set s.draft, events := r.events ++ s.events }
partial_fixpoint

/-- Reads a list.  Inside parentheses it ends at the one that closes them. -/
def run (inside : Bool) (r : Reader) : Attempt Run := do
  let t := r.cursor.next.1
  let after := r.cursor.next.2
  if t.kind = .eof then return ⟨{ r with cursor := after.back }, none, []⟩
  else if inside ∧ t.kind = .closeParen then
    return ⟨{ r with cursor := after }, some t, [r.cursor.index]⟩
  else
    let behind ← ({ r with cursor := after } : Reader) |>.handle t
    let l ← behind |>.run inside
    return { l with places := r.cursor.index :: l.places }
partial_fixpoint

end

end

/-- The selectors of a text and the events of reading it.  Every span is moved by `offset`. -/
def parseLogged (m : Build) (text : String) (offset : Nat) :
    Attempt (List Selector × List Event) := do
  let ts ← .of (Checked.tokens m ⟨text, offset⟩ 0 text.toList)
  let l ← run m ⟨text, offset⟩ false { cursor := .ofList ts offset, depth := 0, builder := {} }
  let list ← .of (Checked.finish l.reader.builder (m.sum offset text.utf8ByteSize))
  return (list, .tokenized ts.length :: (l.reader.events ++ [.parsed list.length]))

/-- The selectors of a text.  Every span is moved by `offset`. -/
def parse (m : Build) (text : String) (offset : Nat) : Attempt (List Selector) :=
  Prod.fst <$> parseLogged m text offset

/-! ### Faults -/

/-- Words end at places that fit, also those of a plus and the text behind it. -/
structure WordsFit (ts : List Token) : Prop where
  single : ∀ t ∈ ts, t.span.start + t.text.utf8ByteSize < UInt64.size
  glued : ∀ t u, [t, u] <:+: ts → t.kind = .plus →
    t.span.start + ("+" ++ u.text).utf8ByteSize < UInt64.size

/-- Tokens that no step of arithmetic fails at: they lie at or behind the offset of the source, their
words fit, and their blocks are not too deep. -/
structure Tame (source : Source) (ts : List Token) : Prop where
  start : ∀ t ∈ ts, source.offset ≤ t.span.start
  stop : ∀ t ∈ ts, source.offset ≤ t.span.stop
  words : WordsFit ts
  shallow : Token.Shallow ts

end Reader

end Selectors
