import Selectors.Overflow
import Selectors.Token.Block

/-!
# A cursor over tokens

A cursor stands between two tokens of a fixed list.  It is kept as a zipper: the tokens behind
it, nearest first, and those ahead.  Reading past the end gives an end token and still counts as
a step, so that stepping back after any read restores the place before it; `past` holds the
number of such reads.

A block is read token by token, up to the one that closes it.  Whether there is one shows at the end
of the tokens only.  So the place of the first token at which the block may be cut is kept on the way,
and a block that never closes is cut there when all tokens are read (`OpenBlock.read`).  The blocks
that are open are counted in a word of 32 bits.
-/

namespace Selectors

/-- A place in a list of tokens. -/
structure TokenCursor where
  /-- The tokens behind the cursor, nearest first. -/
  behind : List Token
  /-- The tokens ahead. -/
  ahead : List Token
  /-- How often the end was read since the last token was. -/
  past : Nat
  /-- Where the end token is placed. -/
  stop : Nat
  deriving DecidableEq, Repr

/-- What to do with a token that a run has just read. -/
inductive Response where
  /-- Step back before it and end the run. -/
  | giveBack
  /-- Keep it; drop the token after it if `skip`, and go on if `more`. -/
  | keep (skip more : Bool)
  deriving DecidableEq, Repr

namespace TokenCursor

/-- A cursor before the first token.  The end token is placed at the end of the last token, or at
`stop` when there is none. -/
def ofList (ts : List Token) (stop : Nat) : TokenCursor :=
  ⟨[], ts, 0, (ts.getLast?.map (·.span.stop)).getD stop⟩

/-- The tokens the cursor runs over. -/
def toList (c : TokenCursor) : List Token := c.behind.reverse ++ c.ahead

/-- The number of steps made so far. -/
def index (c : TokenCursor) : Nat := c.behind.length + c.past

/-- Whether no token is ahead. -/
def done (c : TokenCursor) : Bool := c.ahead.isEmpty

/-- The next token, and the cursor after it. -/
def next (c : TokenCursor) : Token × TokenCursor :=
  match c.ahead with
  | [] => (.eof c.stop, { c with past := c.past + 1 })
  | t :: ts => (t, { c with behind := t :: c.behind, ahead := ts })

/-- One step back, if any step was made. -/
def back (c : TokenCursor) : TokenCursor :=
  match c.past, c.behind with
  | n + 1, _ => { c with past := n }
  | 0, t :: ts => { c with behind := ts, ahead := t :: c.ahead }
  | 0, [] => c

/-- The token most recently read; before the first one, an end token at its start. -/
def current (c : TokenCursor) : Token :=
  match c.past, c.behind with
  | 0, t :: _ => t
  | 0, [] => .eof ((c.ahead.head?.map (·.span.start)).getD c.stop)
  | _ + 1, _ => .eof c.stop

/-- The token `n` steps ahead, the current one for `n = 0`. -/
def peek (c : TokenCursor) : Nat → Token
  | 0 => c.current
  | n + 1 => (c.ahead[n]?).getD (.eof c.stop)

/-- The token `n` steps ahead, if the number of steps up to it fits 64 bits. -/
def peek? (c : TokenCursor) (n : Nat) : Except Overflow Token :=
  if c.index + n < UInt64.size then .ok (c.peek n) else .error .overflow

/-- Reads the next token if it has kind `k`. -/
def take? (c : TokenCursor) (k : TokenKind) : Option Token × TokenCursor :=
  if (c.peek 1).kind == k then (some c.next.1, c.next.2) else (none, c)

/-- The cursor after the tokens `ts`, with `rest` ahead. -/
def pass (c : TokenCursor) (ts rest : List Token) : TokenCursor :=
  { c with behind := ts.reverse ++ c.behind, ahead := rest }

/-- Reads the run of tokens of kind `k` ahead. -/
def takeRun (c : TokenCursor) (k : TokenKind) : List Token × TokenCursor :=
  let (run, rest) := Token.takeRun k c.ahead
  (run, c.pass run rest)

/-- The cursor after `i` steps from the first token; steps past the end count too. -/
def seek (c : TokenCursor) (i : Nat) : TokenCursor :=
  { c with
    behind := (c.toList.take i).reverse
    ahead := c.toList.drop i
    past := i - c.toList.length }

@[simp] theorem ahead_next (c : TokenCursor) : c.next.2.ahead = c.ahead.tail := by
  unfold next; split <;> simp_all

/-- Reading a token that is not the end leaves fewer tokens ahead. -/
theorem length_ahead_next_lt {c : TokenCursor} (h : c.next.1.kind ≠ .eof) :
    c.next.2.ahead.length < c.ahead.length := by
  cases hc : c.ahead with
  | nil => simp [next, hc, Token.eof] at h
  | cons t ts => simp [hc]

/-- Reads tokens while `respond` asks for more, and gives those it keeps. -/
def run (respond : TokenKind → Response) (c : TokenCursor) : List Token × TokenCursor :=
  if h : c.ahead = [] then ([], c)
  else
    match respond (c.ahead.head h).kind with
    | .giveBack => ([], c)
    | .keep skip more =>
      let c' := if skip then c.next.2.next.2 else c.next.2
      if more then
        ((c.ahead.head h) :: (run respond c').1, (run respond c').2)
      else
        ([c.ahead.head h], c')
termination_by c.ahead.length
decreasing_by
  all_goals
    have := List.length_pos_iff.2 h
    split <;> simp <;> omega

/-! ### Blocks -/

/-- A block that is being read, its opening token already read. -/
structure OpenBlock where
  /-- The place behind the tokens taken. -/
  cursor : TokenCursor
  /-- How many blocks are open, this one included. -/
  level : Int := 1
  /-- The tokens taken, last one first. -/
  taken : List Token := []
  /-- How many tokens stand before the first one at which the block may be cut. -/
  cut : Option Nat := none
  deriving DecidableEq, Repr

namespace OpenBlock

/-- How many blocks are open behind the token `t`. -/
def levelBehind (m : Build) (opener closer : TokenKind) (t : Token) (b : OpenBlock) :
    Except Overflow Int :=
  if t.kind = opener then m.int32 (b.level + 1)
  else if t.kind = closer then m.int32 (b.level - 1)
  else .ok b.level

/-- The block with one more token, behind which the cursor `c` stands and `level` blocks are
open. -/
def take (opener closer : TokenKind) (cut : Token → Bool) (t : Token) (c : TokenCursor)
    (level : Int) (b : OpenBlock) : OpenBlock where
  cursor := c
  level := level
  taken := t :: b.taken
  cut :=
    if t.kind = opener ∨ t.kind = closer then b.cut
    else if b.cut.isNone && cut t then some b.taken.length
    else b.cut

/-- Ends a block that no token closes, where it may be cut or else with the tokens.  The block
started at the index `start`. -/
def abandon (start : Nat) (b : OpenBlock) : Block × TokenCursor :=
  match b.cut with
  | some n =>
    let c := b.cursor.seek (start + n)
    (⟨b.taken.reverse.take n, none, c.ahead⟩, c)
  | none => (⟨b.taken.reverse, none, b.cursor.ahead⟩, b.cursor)

/-- Reads the rest of a block that started at the index `start`. -/
def read (m : Build) (opener closer : TokenKind) (cut : Token → Bool) (start : Nat)
    (b : OpenBlock) : Except Overflow (Block × TokenCursor) := do
  let t := b.cursor.next.1
  let c := b.cursor.next.2
  if _ : t.kind = .eof then return { b with cursor := c.back }.abandon start
  else
    let level ← b.levelBehind m opener closer t
    if t.kind ≠ opener ∧ t.kind = closer ∧ level = 0 then
      return (⟨b.taken.reverse, some t, c.ahead⟩, c)
    else read m opener closer cut start (b.take opener closer cut t c level)
termination_by b.cursor.ahead.length
decreasing_by exact length_ahead_next_lt ‹b.cursor.next.1.kind ≠ .eof›

end OpenBlock

/-- Reads a block, its opening token already read.  A block that never closes may be cut before any
token with the property `cut` that neither opens nor closes a block. -/
def readBlock (m : Build) (c : TokenCursor) (opener closer : TokenKind) (cut : Token → Bool) :
    Except Overflow (Block × TokenCursor) :=
  OpenBlock.read m opener closer cut c.index { cursor := c }

/-- Reads a block that may be cut before tokens of some kinds (see `Block.read`), in a build that
never fails. -/
def block (c : TokenCursor) (opener closer : TokenKind) (cut : TokenKind → Bool) :
    Block × TokenCursor :=
  match c.readBlock .wrapping opener closer fun t => cut t.kind with
  | .ok r => r
  | .error _ => (⟨[], none, c.ahead⟩, c)

/-- Stepping back after a read restores the cursor. -/
theorem back_next {c : TokenCursor} (h : c.past = 0 ∨ c.ahead = []) : c.next.2.back = c := by
  obtain ⟨b, a, p, s⟩ := c
  cases a with
  | nil => rfl
  | cons t ts =>
    obtain rfl : p = 0 := by simpa using h
    rfl

@[simp] theorem toList_next (c : TokenCursor) : c.next.2.toList = c.toList := by
  obtain ⟨b, a, p, s⟩ := c
  cases a <;> simp [next, toList]

end TokenCursor

end Selectors
