import Selectors.Json.Value

/-!
# Words, strings and numbers in JSON text

Each reader takes the text that is left and gives what it read with the text after that.  A text
fails in one of two ways, the first of which wins: it ends too early, or it is malformed where it
stands.

A number that has a fraction or an exponent, or does not fit 64 bits, reads as a double: its digits
are collected in 64 bits, and the double next to these is multiplied or divided by a power of ten.
-/

namespace Selectors

namespace Json

/-- Why a text does not read. -/
inductive Fault where
  /-- The text ends too early. -/
  | endOfText
  /-- The text is no JSON. -/
  | malformed
  /-- The text holds a value of another sort than asked for. -/
  | unexpected
  deriving DecidableEq, Repr

/-- The characters between values. -/
def isBlank (c : Char) : Bool := c == ' ' || c == '\n' || c == '\t' || c == '\r'

/-- The text from the first character that is no blank. -/
def skipBlanks (cs : List Char) : List Char := cs.dropWhile isBlank

/-- The text after a word that it must start with. -/
def afterWord : List Char → List Char → Except Fault (List Char)
  | [], cs => .ok cs
  | _ :: _, [] => .error .endOfText
  | w :: ws, c :: cs => if c = w then afterWord ws cs else .error .malformed

/-! ### Strings -/

/-- The value of a hexadecimal digit. -/
def hexDigit? (c : Char) : Option Nat :=
  if '0' ≤ c ∧ c ≤ '9' then some (c.toNat - '0'.toNat)
  else if 'a' ≤ c ∧ c ≤ 'f' then some (c.toNat - 'a'.toNat + 10)
  else if 'A' ≤ c ∧ c ≤ 'F' then some (c.toNat - 'A'.toNat + 10)
  else none

/-- The number that hexadecimal digits spell. -/
def hexValue? (cs : List Char) : Option Nat :=
  cs.foldlM (fun n c => (hexDigit? c).map (16 * n + ·)) 0

/-- The UTF-16 unit that four hexadecimal digits spell.  The text has ended if fewer than four
bytes are left. -/
def unit (cs : List Char) : Except Fault Nat :=
  let digits := cs.take 4
  match hexValue? digits with
  | some n => if digits.length = 4 then .ok n else .error .endOfText
  | none => .error (if (String.ofList digits).utf8ByteSize < 4 then .endOfText else .malformed)

/-- The character with its number from a high and a low surrogate. -/
def pair (high low : Nat) : Char :=
  Char.ofNat (0x10000 + (high - 0xd800) * 0x400 + (low - 0xdc00))

/-- The character that the rest of an escape `\u` spells, and how long that rest is.  A surrogate
must be high and be followed by an escape for a low one. -/
def unicodeEscape (cs : List Char) : Except Fault (Char × Nat) := do
  let n ← unit cs
  if 0xdc00 ≤ n ∧ n < 0xe000 then .error .malformed
  else if 0xd800 ≤ n ∧ n < 0xdc00 then
    let low ← unit (← afterWord ['\\', 'u'] (cs.drop 4))
    if 0xdc00 ≤ low ∧ low < 0xe000 then .ok (pair n low, 10) else .error .malformed
  else .ok (Char.ofNat n, 4)

/-- The character that an escape spells, and how long it is without its backslash. -/
def escape : List Char → Except Fault (Char × Nat)
  | [] => .error .endOfText
  | c :: cs =>
    match c with
    | '\x22' | '\\' | '/' => .ok (c, 1)
    | 'b' => .ok ('\x08', 1)
    | 'f' => .ok ('\x0c', 1)
    | 'n' => .ok ('\n', 1)
    | 'r' => .ok ('\r', 1)
    | 't' => .ok ('\t', 1)
    | 'u' => (unicodeEscape cs).map fun e => (e.1, e.2 + 1)
    | _ => .error .malformed

/-- Reads a string after its opening quote; `read` holds the characters read so far, last one
first. -/
def scanString (read : List Char) : List Char → Except Fault (String × List Char)
  | [] => .error .endOfText
  | c :: cs =>
    if c = '\x22' then .ok (String.ofList read.reverse, cs)
    else if c = '\\' then
      match escape cs with
      | .ok e => scanString (e.1 :: read) (cs.drop e.2)
      | .error f => .error f
    else if c.toNat < 0x20 then .error .malformed
    else scanString (c :: read) cs
termination_by cs => cs.length
decreasing_by
  · rw [List.length_drop, List.length_cons]; omega
  · exact Nat.lt_succ_self _

/-! ### Numbers -/

/-- Decimal digits collected in 64 bits: the number `significand · 10 ^ exponent`. -/
structure Numeral where
  significand : Nat := 0
  exponent : Int := 0
  deriving DecidableEq, Repr

namespace Numeral

/-- Takes up the digits before the point.  From the first that does not fit on they only count. -/
def pushWhole (n : Numeral) : List Char → Numeral
  | [] => n
  | c :: cs =>
    let s := n.significand * 10 + (c.toNat - '0'.toNat)
    if s < UInt64.size then pushWhole ⟨s, n.exponent⟩ cs
    else ⟨n.significand, n.exponent + (cs.length + 1 : Nat)⟩

/-- Takes up the digits after the point, up to the first that does not fit. -/
def pushFraction (n : Numeral) : List Char → Numeral
  | [] => n
  | c :: cs =>
    let s := n.significand * 10 + (c.toNat - '0'.toNat)
    if s < UInt64.size then pushFraction ⟨s, n.exponent - 1⟩ cs else n

/-- Divides by `10 ^ n`, a power that a double can hold at a time. -/
def scaleDown (f : Float) (n : Nat) : Float :=
  if n ≤ 308 then f / Float.ofScientific 1 false n
  else if f == 0 then f
  else scaleDown (f / 1e308) (n - 308)
termination_by n

/-- The double of a numeral, if that is finite. -/
def double (negative : Bool) (n : Numeral) : Except Fault Number :=
  let f := n.significand.toUInt64.toFloat
  let f :=
    if n.significand = 0 then f
    else if n.exponent < 0 then scaleDown f n.exponent.natAbs
    else f * Float.ofScientific 1 false (min n.exponent.toNat 309)
  if f.isInf then .error .malformed else .ok (.double (if negative then -f else f).toBits)

end Numeral

/-- The run of digits that a text starts with, and the text after it. -/
def digits (cs : List Char) : List Char × List Char :=
  (cs.takeWhile Char.isDigit, cs.dropWhile Char.isDigit)

/-- The fault of a text where a digit is missing. -/
def missingDigit : List Char → Fault
  | [] => .endOfText
  | _ => .malformed

/-- A run of digits that must not be empty. -/
def someDigits (cs : List Char) : Except Fault (List Char × List Char) :=
  if (digits cs).1.isEmpty then .error (missingDigit cs) else .ok (digits cs)

/-- Reads the exponent of a number after its `e`. -/
def scanExponent (negative : Bool) (n : Numeral) (cs : List Char) :
    Except Fault (Number × List Char) := do
  let (down, cs) := match cs with
    | '+' :: cs => (false, cs)
    | '-' :: cs => (true, cs)
    | cs => (false, cs)
  let (ds, rest) ← someDigits cs
  let e : Int := ds.foldl (fun e c => 10 * e + (c.toNat - '0'.toNat)) 0
  let value ← Numeral.double negative { n with exponent := n.exponent + if down then -e else e }
  .ok (value, rest)

/-- Reads a number without its sign. -/
def scanNumber (negative : Bool) (cs : List Char) : Except Fault (Number × List Char) := do
  let (ds, rest) ← someDigits cs
  if ds.length ≠ 1 ∧ ds.head? = some '0' then .error .malformed
  let whole := Numeral.pushWhole {} ds
  match rest with
  | '.' :: cs =>
    let (ds, rest) ← someDigits cs
    let n := whole.pushFraction ds
    match rest with
    | 'e' :: cs | 'E' :: cs => scanExponent negative n cs
    | rest => .ok (← n.double negative, rest)
  | 'e' :: cs | 'E' :: cs => scanExponent negative whole cs
  | rest =>
    if whole.exponent ≠ 0 then .ok (← whole.double negative, rest)
    else if !negative then .ok (.int whole.significand, rest)
    else if 0 < whole.significand ∧ whole.significand ≤ UInt64.size / 2 then
      .ok (.int (-(whole.significand : Int)), rest)
    else .ok (← whole.double negative, rest)

end Json

end Selectors
