import Selectors.Text.DecimalDigit

/-!
# Forms of the words in an `An+B of S` expression

The words are classified by their characters alone.  A digit is a decimal digit of any script.

* `isKeyword`: `odd` or `even` in any letter case, possibly signed;
* `isInteger` and `isSignedInteger`: digits, after a sign that may or must be there;
* `isStep`: digits, possibly none, between an optional sign and a final `n`.
-/

namespace Selectors

namespace NthForm

/-- The two signs. -/
def isSign (c : Char) : Bool := c == '+' || c == '-'

/-- The letter that ends a step. -/
def isN (c : Char) : Bool := c == 'n' || c == 'N'

/-- Whether a word starts with a sign. -/
def isSigned : List Char → Bool
  | c :: _ => isSign c
  | [] => false

/-- A word without its sign. -/
def unsigned : List Char → List Char
  | c :: cs => if isSign c then cs else c :: cs
  | [] => []

/-- One digit or more. -/
def isDigits (cs : List Char) : Bool := !cs.isEmpty && cs.all isDecimalDigit

/-- An integer with or without a sign. -/
def isInteger (cs : List Char) : Bool := isDigits (unsigned cs)

/-- An integer with a sign. -/
def isSignedInteger (cs : List Char) : Bool := isSigned cs && isDigits cs.tail

/-- `odd` or `even`, in any letter case and with or without a sign. -/
def isKeyword (cs : List Char) : Bool :=
  let word := (unsigned cs).map Char.toLower
  word == ['o', 'd', 'd'] || word == ['e', 'v', 'e', 'n']

/-- The word up to and with its first `n`, and what follows it. -/
def splitAtN : List Char → Option (List Char × List Char)
  | [] => none
  | c :: cs => if isN c then some ([c], cs) else (splitAtN cs).map fun p => (c :: p.1, p.2)

/-- Digits, possibly none, after an optional sign and before a final `n`. -/
def isStep (cs : List Char) : Bool :=
  match splitAtN (unsigned cs) with
  | some (word, []) => word.dropLast.all isDecimalDigit
  | _ => false

theorem splitAtN_append {cs a b : List Char} (h : splitAtN cs = some (a, b)) : a ++ b = cs := by
  induction cs generalizing a with
  | nil => simp [splitAtN] at h
  | cons c cs ih =>
    rw [splitAtN] at h
    split at h
    · simp at h; obtain ⟨rfl, rfl⟩ := h; rfl
    · obtain ⟨⟨a', b'⟩, h', he⟩ := Option.map_eq_some_iff.1 h
      simp at he; obtain ⟨rfl, rfl⟩ := he
      simp [ih h']

end NthForm

end Selectors
