import Selectors.Json.Lexeme

/-!
# Reading JSON text

* `Json.read` reads a text as a value.  Of fields with one name the last is kept.
* `Json.readStrings` reads a text that must hold a list of strings.  The first fault wins, so a
  value of another sort is reported before anything behind it is read.
-/

namespace Selectors

namespace Json

mutual

/-- Reads a value.  Each nested call takes from `fuel`, which the length of the text bounds. -/
def scanValue : Nat → List Char → Except Fault (Json × List Char)
  | 0, _ => .error .malformed
  | fuel + 1, cs =>
    match skipBlanks cs with
    | [] => .error .endOfText
    | c :: cs =>
      match c with
      | 'n' => do .ok (.null, ← afterWord "ull".toList cs)
      | 't' => do .ok (.bool true, ← afterWord "rue".toList cs)
      | 'f' => do .ok (.bool false, ← afterWord "alse".toList cs)
      | '\x22' => (scanString [] cs).map fun r => (.string r.1, r.2)
      | '[' => (scanItems fuel true cs).map fun r => (.array r.1, r.2)
      | '{' => (scanFields fuel true [] cs).map fun r => (.object r.1, r.2)
      | '-' => (scanNumber true cs).map fun r => (.number r.1, r.2)
      | c =>
        if c.isDigit then (scanNumber false (c :: cs)).map fun r => (.number r.1, r.2)
        else .error .malformed

/-- Reads the items of an array up to its bracket; all but the first follow a comma. -/
def scanItems : Nat → Bool → List Char → Except Fault (List Json × List Char)
  | 0, _, _ => .error .malformed
  | fuel + 1, first, cs =>
    match skipBlanks cs with
    | [] => .error .endOfText
    | ']' :: cs => .ok ([], cs)
    | c :: cs => do
      let start ← if first then pure (c :: cs) else if c = ',' then pure cs else .error .malformed
      let (j, cs) ← scanValue fuel start
      let (js, cs) ← scanItems fuel false cs
      .ok (j :: js, cs)

/-- Reads the fields of an object up to its brace; all but the first follow a comma. -/
def scanFields : Nat → Bool → List (String × Json) → List Char →
    Except Fault (List (String × Json) × List Char)
  | 0, _, _, _ => .error .malformed
  | fuel + 1, first, fields, cs =>
    match skipBlanks cs with
    | [] => .error .endOfText
    | '}' :: cs => .ok (fields, cs)
    | c :: cs => do
      let start ← if first then pure (c :: cs) else if c = ',' then pure cs else .error .malformed
      let (name, cs) ← match skipBlanks start with
        | [] => .error .endOfText
        | '\x22' :: cs => scanString [] cs
        | _ => .error .malformed
      let (j, cs) ← scanValue fuel (← afterWord [':'] (skipBlanks cs))
      scanFields fuel false (insertField name j fields) cs

end

/-- Nothing but blanks may follow a value. -/
def atEnd {α : Type} (r : α × List Char) : Except Fault α :=
  if (skipBlanks r.2).isEmpty then .ok r.1 else .error .malformed

/-- Reads a text as a value. -/
def read (text : String) : Except Fault Json :=
  let cs := text.toList
  scanValue (2 * cs.length + 2) cs >>= atEnd

/-! ### Lists of strings -/

/-- The fault of a value of another sort: what can be malformed in it is read first, except for
what stands in brackets. -/
def otherSort (cs : List Char) : Fault :=
  let after {α : Type} (r : Except Fault α) : Fault :=
    match r with
    | .ok _ => .unexpected
    | .error f => f
  match cs with
  | [] => .endOfText
  | c :: cs =>
    match c with
    | 'n' => after (afterWord "ull".toList cs)
    | 't' => after (afterWord "rue".toList cs)
    | 'f' => after (afterWord "alse".toList cs)
    | '\x22' => after (scanString [] cs)
    | '[' => .unexpected
    | '{' => .unexpected
    | '-' => after (scanNumber true cs)
    | c => if c.isDigit then after (scanNumber false (c :: cs)) else .malformed

/-- Reads the strings of a list up to its bracket; all but the first follow a comma. -/
def scanStrings : Nat → Bool → List Char → Except Fault (List String × List Char)
  | 0, _, _ => .error .malformed
  | fuel + 1, first, cs =>
    match skipBlanks cs with
    | [] => .error .endOfText
    | ']' :: cs => .ok ([], cs)
    | c :: cs => do
      let start ←
        if first then pure (c :: cs)
        else if c = ',' then pure (skipBlanks cs)
        else .error .malformed
      match start with
      | '\x22' :: cs =>
        let (s, cs) ← scanString [] cs
        let (ss, cs) ← scanStrings fuel false cs
        .ok (s :: ss, cs)
      | ']' :: _ => .error .malformed
      | start => .error (otherSort start)

/-- Reads a text as a list of strings. -/
def readStrings (text : String) : Except Fault (List String) :=
  match skipBlanks text.toList with
  | '[' :: cs => scanStrings (cs.length + 1) true cs >>= atEnd
  | cs => .error (otherSort cs)

end Json

end Selectors
