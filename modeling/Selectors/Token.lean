import Selectors.Span

/-!
# Tokens

Selector text is made of a handful of one-character delimiters, runs of blanks, comments, quoted
strings, and *text*: any other run of characters, in which a backslash takes the character after
it along.  Nothing is dropped, so blanks and comments are tokens too.

* `TokenKind` lists the kinds, `TokenKind.ofDelimiter?` the delimiters among them.
* `Token.join` gives the text that a list of tokens covers.
-/

namespace Selectors

/-- What a token is. -/
inductive TokenKind where
  /-- A run of characters that are no blank, delimiter, quote or comment start. -/
  | text
  /-- A run of blanks. -/
  | space
  /-- A quoted string with both its quotes. -/
  | string
  /-- A quoted string that the end of the text cuts short. -/
  | unclosedString
  /-- A comment with both its marks. -/
  | comment
  /-- A comment that the end of the text cuts short. -/
  | unclosedComment
  | dot
  | colon
  | hash
  | star
  | pipe
  | openParen
  | closeParen
  | openBracket
  | closeBracket
  | comma
  | greaterThan
  | tilde
  | plus
  | openCurly
  | closeCurly
  | ampersand
  /-- The end of the text. -/
  | eof
  deriving DecidableEq, Repr, Inhabited

namespace TokenKind

/-- Every kind, the end of the text last. -/
def all : List TokenKind :=
  [text, space, string, unclosedString, comment, unclosedComment, dot, colon, hash, star, pipe,
    openParen, closeParen, openBracket, closeBracket, comma, greaterThan, tilde, plus, openCurly,
    closeCurly, ampersand, eof]

/-- The name of a kind in reports. -/
def name : TokenKind → String
  | text => "Text"
  | space => "Space"
  | string => "String"
  | unclosedString => "UnclosedString"
  | comment => "MultiComment"
  | unclosedComment => "UnclosedComment"
  | dot => "Dot"
  | colon => "Colon"
  | hash => "Hash"
  | star => "Star"
  | pipe => "Pipe"
  | openParen => "OpenParen"
  | closeParen => "CloseParen"
  | openBracket => "OpenBracket"
  | closeBracket => "CloseBracket"
  | comma => "Comma"
  | greaterThan => "GreaterThan"
  | tilde => "Tilde"
  | plus => "Plus"
  | openCurly => "OpenCurly"
  | closeCurly => "CloseCurly"
  | ampersand => "Ampersand"
  | eof => "Eof"

/-- The kind with the given name. -/
def ofName? (s : String) : Option TokenKind := all.find? fun k => k.name == s

/-- The kinds that stand between compound selectors. -/
def isCombinator : TokenKind → Bool
  | space | plus | greaterThan | tilde => true
  | _ => false

/-- The kind of a one-character delimiter. -/
def ofDelimiter? : Char → Option TokenKind
  | '.' => some dot
  | ':' => some colon
  | '#' => some hash
  | '*' => some star
  | '|' => some pipe
  | '(' => some openParen
  | ')' => some closeParen
  | '[' => some openBracket
  | ']' => some closeBracket
  | ',' => some comma
  | '>' => some greaterThan
  | '~' => some tilde
  | '+' => some plus
  | '{' => some openCurly
  | '}' => some closeCurly
  | '&' => some ampersand
  | _ => none

theorem mem_all (k : TokenKind) : k ∈ all := by cases k <;> decide

end TokenKind

/-- A piece of text with its kind and its place. -/
structure Token where
  kind : TokenKind
  text : String
  span : Span
  deriving DecidableEq, Repr, Inhabited

namespace Token

/-- The end of the text, at offset `p`. -/
def eof (p : Nat) : Token := ⟨.eof, "", .point p⟩

/-- The text that the tokens cover. -/
def join : List Token → String
  | [] => ""
  | t :: ts => t.text ++ join ts

@[simp] theorem join_append (ts us : List Token) : join (ts ++ us) = join ts ++ join us := by
  induction ts with
  | nil => simp [join]
  | cons t ts ih => simp [join, ih, String.append_assoc]

/-- The tokens at the front of `ts` that are no longer in `rest`. -/
def consumed (ts rest : List Token) : List Token := ts.take (ts.length - rest.length)

theorem consumed_append {ts rest : List Token} (h : rest <:+ ts) : consumed ts rest ++ rest = ts := by
  obtain ⟨us, rfl⟩ := h
  simp [consumed]

end Token

end Selectors
