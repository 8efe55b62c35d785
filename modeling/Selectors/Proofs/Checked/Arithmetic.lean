import Selectors.Overflow
import Selectors.Text.Slice

/-!
# Steps of arithmetic

A program on arrays reaches its items by index, cuts texts at positions, and counts in words.
Whatever can go wrong in such a step is a `Fault`:

* a sum that does not fit its word, or a difference below zero;
* an index outside its list, or a cut outside its text or inside a character;
* a loop that does not end in the rounds that its input allows.

Sums and differences of positions depend on the build: without checks they go on with what a word of
64 bits holds.  An index that is out of range is a fault in every build.  A step whose result is in
range has the exact result.
-/

namespace Selectors

/-- What can go wrong in a step of arithmetic. -/
inductive Fault where
  /-- A sum does not fit its word. -/
  | overflow
  /-- A difference is below zero. -/
  | underflow
  /-- An index is outside its list. -/
  | outOfRange
  /-- A cut is outside its text, or inside a character of it. -/
  | badCut
  /-- A loop did not end. -/
  | unfinished
  deriving DecidableEq, Repr

/-- A number that does not fit its word, as a fault. -/
def Fault.ofOverflow : Overflow → Fault
  | .overflow => .overflow

namespace Build

variable {m : Build} {a b : Nat}

/-- A sum of words. -/
def sum (m : Build) (a b : Nat) : Except Fault Nat :=
  if a + b < UInt64.size then .ok (a + b)
  else if m = .wrapping then .ok ((a + b) % UInt64.size)
  else .error .overflow

/-- A difference of words. -/
def difference (m : Build) (a b : Nat) : Except Fault Nat :=
  if b ≤ a then .ok (a - b)
  else if m = .wrapping then .ok ((a + UInt64.size - b) % UInt64.size)
  else .error .underflow

theorem difference_eq (h : b ≤ a) : m.difference a b = .ok (a - b) := if_pos h

end Build

namespace Checked

/-- A number of items without some of them. -/
def difference (a b : Nat) : Except Fault Nat :=
  if b ≤ a then .ok (a - b) else .error .underflow

/-- The item at an index. -/
def item {α : Type} (l : List α) (i : Nat) : Except Fault α :=
  match l[i]? with
  | some a => .ok a
  | none => .error .outOfRange

/-- The list without the item at an index. -/
def without {α : Type} (l : List α) (i : Nat) : Except Fault (List α) :=
  if i < l.length then .ok (l.eraseIdx i) else .error .outOfRange

/-- The items before an index, and those from it on. -/
def splitAt {α : Type} (l : List α) (i : Nat) : Except Fault (List α × List α) :=
  if i ≤ l.length then .ok (l.take i, l.drop i) else .error .outOfRange

/-- The items before the last one, and the last one. -/
def pop {α : Type} (l : List α) : Except Fault (List α × α) :=
  match l.getLast? with
  | some a => .ok (l.dropLast, a)
  | none => .error .outOfRange

/-- The text between two bytes. -/
def cut (s : String) (start stop : Nat) : Except Fault String :=
  match slice? s start stop with
  | some t => .ok t
  | none => .error .badCut

/-- Goes through rounds until one says that it was the end. -/
def loop {σ : Type} (round : σ → Except Fault (Option σ)) : Nat → σ → Except Fault σ
  | 0, _ => .error .unfinished
  | rounds + 1, s => do
    match ← round s with
    | some s => loop round rounds s
    | none => return s

@[simp] theorem bind_ok {α β : Type} (a : α) (f : α → Except Fault β) : (.ok a >>= f) = f a := rfl

theorem difference_eq {a b : Nat} (h : b ≤ a) : difference a b = .ok (a - b) := if_pos h

section

variable {α : Type} {pre suf : List α} {a b : α} {i : Nat}

end

/-! ### Raw text -/

/-- A text and the offset that positions in it are counted from. -/
structure Source where
  text : String
  offset : Nat

/-- The text between two positions.  It is empty when it is looked for outside the source or inside
a character; only a strict build does not go on with that. -/
def Source.raw (m : Build) (source : Source) (start stop : Nat) : Except Fault String := do
  let start ← m.difference start source.offset
  let stop ← m.difference stop source.offset
  match slice? source.text start stop with
  | some t => return t
  | none => if m = .strict then .error .badCut else return ""

end Checked

end Selectors
