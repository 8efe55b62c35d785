/-!
# Random selector text

Text for round trips is glued together from pieces of selectors, valid and broken.  The pieces are
drawn with a generator of 64 bit words: its state moves on by a constant, and each word mixes the
two halves of a product of the state.
-/

namespace Selectors

/-- A generator of random words. -/
structure Random where
  state : UInt64
  deriving DecidableEq, Repr

namespace Random

/-- The word of 64 bits and the upper word of a product. -/
def mulWide (a b : UInt64) : UInt64 × UInt64 :=
  let p := a.toNat * b.toNat
  (p.toUInt64, (p / UInt64.size).toUInt64)

/-- The next word. -/
def next (r : Random) : UInt64 × Random :=
  let s := r.state + 0x2d358dccaa6c78a5
  let (low, high) := mulWide s (s ^^^ 0x8bb84b93962eacc9)
  (low ^^^ high, ⟨s⟩)

/-- A number below `n` from the upper word of the product of `n` and a random word.  Products with
a lower word below `least` are drawn again, at most `fuel` times, so that every number is equally
likely. -/
def belowFrom (n least : UInt64) : Nat → Random → UInt64 × Random
  | 0, r => (0, r)
  | fuel + 1, r =>
    let (word, r) := r.next
    let (low, high) := mulWide word n
    if low < least then belowFrom n least fuel r else (high, r)

/-- A number below `n`.  The state has a period of `2 ^ 64` words, so no more need to be drawn. -/
def below (n : Nat) (r : Random) : Nat × Random :=
  let n := n.toUInt64
  let (k, r) := belowFrom n ((0 - n) % n) UInt64.size r
  (k.toNat, r)

end Random

/-- Pieces of selectors. -/
def pieces : List String :=
  ["a", "div", "*", "ns", "|", ".", "#", "x-y", "\\.", ":", "::", "hover", "before",
    "is(", "not(", "where(", "nth-child(", "nth-of-type(", "(", ")", "[", "]", "[a=\"b\"]",
    "[a='b' i]", ",", " ", "  ", "\n", ">", "+", "~", "&", "/*c*/", "/*", "*/", "\"", "'",
    "2n", "+1", "-n", "-", "odd", "even", "of", "5n-4", "\x7b", "\x7d", "é", "🦀"]

/-- A text of `count` pieces. -/
def randomPieces (pieces : Array String) : Nat → Random → String × Random
  | 0, r => ("", r)
  | count + 1, r =>
    let (i, r) := r.below pieces.size
    let (rest, r) := randomPieces pieces count r
    ((pieces[i]?).getD "" ++ rest, r)

/-- A text of fewer than 24 pieces. -/
def randomSource (pieces : List String) (r : Random) : String × Random :=
  if pieces.isEmpty then ("", r)
  else
    let (count, r) := r.below 24
    randomPieces pieces.toArray count r

/-- `count` texts from one generator. -/
def randomSources (pieces : List String) : Nat → Random → List String
  | 0, _ => []
  | count + 1, r =>
    let (s, r) := randomSource pieces r
    s :: randomSources pieces count r

end Selectors
