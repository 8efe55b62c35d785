import Selectors.Token

/-!
# Runs and bracketed blocks of tokens

Reading a selector needs three moves on the tokens ahead: take one token of a kind, take a run of
tokens of a kind, and take a block up to the token that closes it.  Each move splits the tokens
into what it takes and a suffix that is left.

A block may be left open by the text.  It is then cut at the first token at which a reader can
pick up again, so that an unclosed bracket does not swallow what follows.
-/

namespace Selectors

namespace Token

/-- Takes the first token if it has kind `k`. -/
def take? (k : TokenKind) : List Token → Option Token × List Token
  | [] => (none, [])
  | t :: ts => if t.kind == k then (some t, ts) else (none, t :: ts)

/-- The run of tokens of kind `k` at the front, and what is left. -/
def takeRun (k : TokenKind) (ts : List Token) : List Token × List Token :=
  (ts.takeWhile (·.kind == k), ts.dropWhile (·.kind == k))

theorem take?_append (k : TokenKind) (ts : List Token) :
    (take? k ts).1.toList ++ (take? k ts).2 = ts := by
  cases ts with
  | nil => rfl
  | cons t ts => simp only [take?]; split <;> rfl

theorem takeRun_append (k : TokenKind) (ts : List Token) :
    (takeRun k ts).1 ++ (takeRun k ts).2 = ts := List.takeWhile_append_dropWhile

theorem take?_suffix (k : TokenKind) (ts : List Token) : (take? k ts).2 <:+ ts :=
  ⟨_, take?_append k ts⟩

theorem takeRun_suffix (k : TokenKind) (ts : List Token) : (takeRun k ts).2 <:+ ts :=
  List.dropWhile_suffix _

end Token

/-- A block that ends at its closing token. -/
structure ClosedBlock where
  inside : List Token
  closer : Token
  rest : List Token
  deriving DecidableEq, Repr

/-- A block without its opening token.  There is no closer when the block was cut. -/
structure Block where
  inside : List Token
  closer : Option Token
  rest : List Token
  deriving DecidableEq, Repr

namespace Block

/-- The block up to the token that closes it, with `level` further blocks open inside it; none
if no token closes it. -/
def closed? (opener closer : TokenKind) : Nat → List Token → Option ClosedBlock
  | _, [] => none
  | level, t :: ts =>
    if t.kind = opener then
      (closed? opener closer (level + 1) ts).map fun b => { b with inside := t :: b.inside }
    else if t.kind = closer then
      match level with
      | 0 => some ⟨[], t, ts⟩
      | level + 1 => (closed? opener closer level ts).map fun b => { b with inside := t :: b.inside }
    else
      (closed? opener closer level ts).map fun b => { b with inside := t :: b.inside }

/-- Whether an unclosed block may be cut at a token. -/
def cutsAt (opener closer : TokenKind) (cut : TokenKind → Bool) (t : Token) : Bool :=
  t.kind != opener && t.kind != closer && cut t.kind

/-- The block at the front of the tokens after an opening token.  A block that never closes ends
before the first token where it may be cut, or with the text. -/
def read (opener closer : TokenKind) (cut : TokenKind → Bool) (ts : List Token) : Block :=
  match closed? opener closer 0 ts with
  | some b => ⟨b.inside, some b.closer, b.rest⟩
  | none =>
    ⟨ts.takeWhile fun t => !cutsAt opener closer cut t, none,
      ts.dropWhile fun t => !cutsAt opener closer cut t⟩

/-- Every token the block takes, its closer included. -/
def taken (b : Block) : List Token := b.inside ++ b.closer.toList

theorem closed?_append {opener closer : TokenKind} {level : Nat} {ts : List Token}
    {b : ClosedBlock} (h : closed? opener closer level ts = some b) :
    b.inside ++ b.closer :: b.rest = ts := by
  fun_induction closed? opener closer level ts generalizing b with
  | case1 => simp at h
  | case2 level t ts _ ih =>
    obtain ⟨c, hc, rfl⟩ := Option.map_eq_some_iff.1 h
    simpa using ih hc
  | case3 t ts => simp at h; subst h; rfl
  | case4 t ts _ _ level ih =>
    obtain ⟨c, hc, rfl⟩ := Option.map_eq_some_iff.1 h
    simpa using ih hc
  | case5 level t ts _ _ ih =>
    obtain ⟨c, hc, rfl⟩ := Option.map_eq_some_iff.1 h
    simpa using ih hc

/-- A block and what is left make up the tokens again. -/
theorem read_append (opener closer : TokenKind) (cut : TokenKind → Bool) (ts : List Token) :
    (read opener closer cut ts).taken ++ (read opener closer cut ts).rest = ts := by
  unfold read
  split
  · rename_i b h
    simpa [taken] using closed?_append h
  · simp [taken, List.takeWhile_append_dropWhile]

theorem read_suffix (opener closer : TokenKind) (cut : TokenKind → Bool) (ts : List Token) :
    (read opener closer cut ts).rest <:+ ts := ⟨_, read_append opener closer cut ts⟩

end Block

end Selectors
