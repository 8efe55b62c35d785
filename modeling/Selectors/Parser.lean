import Selectors.Overflow
import Selectors.Token.Lexer
import Selectors.Parser.Draft

/-!
# Reading selector lists

Any text reads as a list of selectors: what can not be understood is kept as invalid nodes.  The
tokens are read one node at a time.  A parenthesis starts a nested list, which becomes the
argument of the functional node before it, or else stays as one invalid node with all its text.
Nesting is bounded by `maxDepth`; deeper blocks are not read.

* `readList` reads a list up to the parenthesis that closes it, or to the end of the tokens.  Its
  result says that a suffix of the tokens is left, which is also why it ends.
* `parse` reads a text; the only failure, in `parse?`, is an offset too large for the text.

Lengths of tokens and numbers of open blocks are not bounded here.  Where they are words of 32 bits,
all this is about texts of less than 4 GiB and, if sums are checked, about texts in which no stretch
opens `2 ^ 31` more blocks than it closes.
-/

namespace Selectors

/-- Parenthesized blocks nested deeper than this are not read. -/
def maxDepth : Nat := 128

/-- The pseudo-classes with an `An+B` argument. -/
def nthNames : List String :=
  ["nth-child", "nth-last-child", "nth-of-type", "nth-last-of-type", "nth-col", "nth-last-col"]

/-- Whether a pseudo-class takes an `An+B` argument; the case of ASCII letters does not matter. -/
def isNthName (name : String) : Bool :=
  nthNames.any fun n => n.toList == name.toList.map Char.toLower

/-- A list of selectors read, with the parenthesis that closed it and the tokens after that. -/
structure Reading where
  builder : Builder
  closer : Option Token
  rest : List Token
  events : List Event

namespace Reading

/-- The same reading with events in front. -/
def after (events : List Event) (r : Reading) : Reading :=
  { r with events := events ++ r.events }

@[simp] theorem after_builder (es : List Event) (r : Reading) : (r.after es).builder = r.builder := rfl
@[simp] theorem after_closer (es : List Event) (r : Reading) : (r.after es).closer = r.closer := rfl
@[simp] theorem after_rest (es : List Event) (r : Reading) : (r.after es).rest = r.rest := rfl

end Reading

/-! ### Parentheses -/

/-- What a nested list starts with: the expression of an `:nth-…()` pseudo-class. -/
structure Opening where
  builder : Builder
  rest : List Token
  events : List Event := []

namespace Draft

/-- Whether parentheses before the tokens `ts` start with an `An+B` expression. -/
def takesNth (d : Draft) (ts : List Token) : Bool :=
  match d.nodes with
  | .functional _ (.colon _) name _ :: _ =>
    isNthName name && (ts.head?.map (·.kind)) != some .closeParen
  | _ => false

/-- Starts the nested list after the parenthesis `t`. -/
def openParens (d : Draft) (t : Token) (ts : List Token) : Opening :=
  if d.takesNth ts then
    let r := (NthDraft.start t.span.stop).read ts
    let nth := r.draft.finish
    { builder :=
        if nth.nodes = [] ∧ nth.before = "" then {}
        else { draft := some { start := t.span.stop, nodes := [.nth nth] } }
      rest := r.rest
      events := r.events ++ [.nthRead nth.nodes.length r.draft.phase] }
  else { builder := {}, rest := ts }

/-- Ends the nested list after the parenthesis `t`.  It becomes the argument of the node before
the parenthesis if that can own one and the list was closed; otherwise its text is kept.  A list
that was not closed ends at `stop`. -/
def closeParens (stop : Nat) (d : Draft) (t : Token) (text : String) (inner : Reading) :
    Draft × List Event :=
  match inner.closer, d.nodes with
  | some c, .functional span sigil name none :: nodes =>
    let list := inner.builder.finish c.span.start
    ({ d with
        nodes := .functional ⟨span.start, c.span.stop⟩ sigil name (some list) :: nodes }, [])
  | closer, _ =>
    let span := ⟨t.span.start, (closer.map (·.span.stop)).getD stop⟩
    (d.push (.invalid span text), [.strayParens span])

theorem openParens_suffix (d : Draft) (t : Token) (ts : List Token) :
    (d.openParens t ts).rest <:+ ts := by
  unfold openParens
  split
  · exact NthDraft.read_suffix _ _
  · exact List.suffix_rfl

end Draft

/-! ### Lists -/

/-- Reads a list.  Inside parentheses (`depth > 0`) it ends at the parenthesis that closes them.
`stop` is the end of the text. -/
def readList (stop depth : Nat) (b : Builder) (ts : List Token) :
    { r : Reading // r.rest <:+ ts } :=
  match ts with
  | [] => ⟨⟨b, none, [], []⟩, List.suffix_rfl⟩
  | t :: ts =>
    if t.kind = .closeParen ∧ 0 < depth then
      ⟨⟨b, some t, ts, []⟩, List.suffix_cons t ts⟩
    else if t.kind = .comma then
      let r := readList stop depth (b.comma t) ts
      ⟨r.val, r.property.trans (List.suffix_cons t ts)⟩
    else if t.kind = .openParen ∧ depth < maxDepth then
      let d := b.current t
      let o := d.openParens t ts
      have ho : o.rest <:+ ts := d.openParens_suffix t ts
      have : o.rest.length < (t :: ts).length := Nat.lt_succ_of_le ho.length_le
      let inner := readList stop (depth + 1) o.builder o.rest
      have hi : inner.val.rest <:+ ts := inner.property.trans ho
      have : inner.val.rest.length < (t :: ts).length := Nat.lt_succ_of_le hi.length_le
      let text := Token.join (Token.consumed (t :: ts) inner.val.rest)
      let c := d.closeParens stop t text inner.val
      let r := readList stop depth (b.set c.1) inner.val.rest
      ⟨r.val.after (o.events ++ inner.val.events ++ c.2),
        (r.property.trans hi).trans (List.suffix_cons t ts)⟩
    else
      let s := (b.current t).step depth t ts
      have hs : s.rest <:+ ts := Draft.step_suffix depth (b.current t) t ts
      have : s.rest.length < (t :: ts).length := Nat.lt_succ_of_le hs.length_le
      let r := readList stop depth (b.set s.draft) s.rest
      ⟨r.val.after s.events, (r.property.trans hs).trans (List.suffix_cons t ts)⟩
termination_by ts.length
decreasing_by
  · exact Nat.lt_succ_self _
  · exact this
  · exact this
  · exact this

/-- Reads the selectors that tokens spell; `stop` is where the tokens end. -/
def readSelectors (stop : Nat) (ts : List Token) : List Selector × List Event :=
  let r := (readList stop 0 {} ts).val
  let list := r.builder.finish stop
  (list, r.events ++ [.parsed list.length])

/-- The selectors of a text and the events of reading it.  Every span is moved by `offset`. -/
def parseLogged (source : String) (offset : Nat) : List Selector × List Event :=
  let ts := tokenize source offset
  let r := readSelectors (offset + source.utf8ByteSize) ts
  (r.1, .tokenized ts.length :: r.2)

/-- The selectors of a text.  Every span is moved by `offset`. -/
def parse (source : String) (offset : Nat := 0) : List Selector := (parseLogged source offset).1

/-! ### Offsets of 64 bits -/

/-- Whether every span of a text fits 64 bits when it is moved by `offset`.  A text without tokens
has no spans. -/
def offsetFits (source : String) (offset : Nat) : Bool :=
  source == "" || offset + source.utf8ByteSize < UInt64.size

/-- The tokens of a text, if their spans fit 64 bits. -/
def tokenize? (source : String) (offset : Nat) : Except Overflow (List Token) :=
  if offsetFits source offset then .ok (tokenize source offset) else .error .overflow

/-- The tokens of a text and the events of cutting it, if the spans fit 64 bits. -/
def tokenizeLogged? (source : String) (offset : Nat) : Except Overflow (List Token × List Event) :=
  (tokenize? source offset).map fun ts => (ts, [.tokenized ts.length])

/-- The selectors of a text and the events of reading it, if the spans fit 64 bits. -/
def parseLogged? (source : String) (offset : Nat) :
    Except Overflow (List Selector × List Event) :=
  if offsetFits source offset then .ok (parseLogged source offset) else .error .overflow

/-- The selectors of a text, if the spans fit 64 bits. -/
def parse? (source : String) (offset : Nat) : Except Overflow (List Selector) :=
  (parseLogged? source offset).map Prod.fst

end Selectors
