import Selectors.Token

/-!
# Splitting text into tokens

`lexemes` cuts a text into lexemes, each a kind with the characters it takes; `place` then gives
every lexeme its place.  Cutting never looks at places, so an offset only moves the spans.

* `scan_append`: a lexeme and what is left make up the text again, hence `join_tokenize`.
* `scan_rest_length`: every lexeme takes at least one character, so cutting ends.
-/

namespace Selectors

/-- Blanks are space, tab, line feed, carriage return and form feed, and nothing else. -/
def isBlank (c : Char) : Bool :=
  c == ' ' || c == '\t' || c == '\n' || c == '\r' || c == '\x0c'

/-- The two quotation marks. -/
def isQuote (c : Char) : Bool := c == '\x22' || c == '\x27'

/-- The characters at which a run of text ends, a comment start apart. -/
def breaksText (c : Char) : Bool :=
  isBlank c || isQuote c || (TokenKind.ofDelimiter? c).isSome

namespace Lexer

/-- A lexeme at the front of a text: its kind, the characters it takes, and what is left. -/
structure Scan where
  kind : TokenKind
  taken : List Char
  rest : List Char
  deriving DecidableEq, Repr

/-- The same lexeme with one more character in front. -/
def Scan.cons (c : Char) (s : Scan) : Scan := { s with taken := c :: s.taken }

@[simp] theorem Scan.cons_kind (c : Char) (s : Scan) : (s.cons c).kind = s.kind := rfl
@[simp] theorem Scan.cons_taken (c : Char) (s : Scan) : (s.cons c).taken = c :: s.taken := rfl
@[simp] theorem Scan.cons_rest (c : Char) (s : Scan) : (s.cons c).rest = s.rest := rfl

/-- The inside of a comment, up to and with its end mark. -/
def commentBody : List Char → Scan
  | [] => ⟨.unclosedComment, [], []⟩
  | '*' :: '/' :: cs => ⟨.comment, ['*', '/'], cs⟩
  | c :: cs => (commentBody cs).cons c

/-- The inside of a string that opened with `quote`, up to and with the closing quote. -/
def stringBody (quote : Char) : List Char → Scan
  | [] => ⟨.unclosedString, [], []⟩
  | '\\' :: [] => ⟨.unclosedString, ['\\'], []⟩
  | '\\' :: c :: cs => ((stringBody quote cs).cons c).cons '\\'
  | c :: cs => if c == quote then ⟨.string, [c], cs⟩ else (stringBody quote cs).cons c

/-- A run of text.  It ends before a blank, a quote, a delimiter or a comment start. -/
def textRun : List Char → Scan
  | [] => ⟨.text, [], []⟩
  | '\\' :: [] => ⟨.text, ['\\'], []⟩
  | '\\' :: c :: cs => ((textRun cs).cons c).cons '\\'
  | '/' :: '*' :: cs => ⟨.text, [], '/' :: '*' :: cs⟩
  | c :: cs => if breaksText c then ⟨.text, [], c :: cs⟩ else (textRun cs).cons c

/-- The lexeme at the front of `c :: cs`. -/
def scan (c : Char) (cs : List Char) : Scan :=
  if c == '/' && cs.head? == some '*' then
    ((commentBody cs.tail).cons '*').cons '/'
  else if isBlank c then
    ⟨.space, c :: cs.takeWhile isBlank, cs.dropWhile isBlank⟩
  else if isQuote c then
    (stringBody c cs).cons c
  else match TokenKind.ofDelimiter? c with
    | some kind => ⟨kind, [c], cs⟩
    | none => textRun (c :: cs)

theorem commentBody_append (cs : List Char) :
    (commentBody cs).taken ++ (commentBody cs).rest = cs := by
  fun_induction commentBody cs with
  | case1 => rfl
  | case2 => rfl
  | case3 c cs _ ih => simp [ih]

theorem stringBody_append (quote : Char) (cs : List Char) :
    (stringBody quote cs).taken ++ (stringBody quote cs).rest = cs := by
  fun_induction stringBody quote cs <;> simp_all

theorem textRun_append (cs : List Char) : (textRun cs).taken ++ (textRun cs).rest = cs := by
  fun_induction textRun cs <;> simp_all

theorem textRun_taken_ne_nil {c : Char} {cs : List Char} (hc : breaksText c = false)
    (hs : (c == '/' && cs.head? == some '*') = false) : (textRun (c :: cs)).taken ≠ [] := by
  generalize h : c :: cs = l
  fun_cases textRun l <;> simp_all

/-- **A lexeme and what is left make up the text.** -/
theorem scan_append (c : Char) (cs : List Char) : (scan c cs).taken ++ (scan c cs).rest = c :: cs := by
  unfold scan
  split
  · rename_i h
    simp only [Bool.and_eq_true, beq_iff_eq] at h
    obtain ⟨rfl, h⟩ := h
    obtain ⟨cs, rfl⟩ : ∃ r, cs = '*' :: r := by
      cases cs <;> simp_all
    simp [commentBody_append]
  · split
    · simp [List.takeWhile_append_dropWhile]
    · split
      · simp [stringBody_append]
      · split
        · rfl
        · exact textRun_append _

theorem scan_taken_ne_nil (c : Char) (cs : List Char) : (scan c cs).taken ≠ [] := by
  unfold scan
  split
  · simp
  · rename_i hs
    split
    · simp
    · rename_i hb
      split
      · simp
      · rename_i hq
        split
        · simp
        · rename_i hd
          exact textRun_taken_ne_nil (by simp [breaksText, hb, hq, hd]) (by simpa using hs)

/-- Every lexeme takes at least one character. -/
theorem scan_rest_length (c : Char) (cs : List Char) :
    (scan c cs).rest.length < (c :: cs).length := by
  have h := congrArg List.length (scan_append c cs)
  have := List.length_pos_iff.2 (scan_taken_ne_nil c cs)
  rw [List.length_append] at h
  omega

end Lexer

/-- A piece of text and its kind, before it has a place. -/
structure Lexeme where
  kind : TokenKind
  text : String
  deriving DecidableEq, Repr

/-- The lexemes that make up a text. -/
def lexemes : List Char → List Lexeme
  | [] => []
  | c :: cs =>
    ⟨(Lexer.scan c cs).kind, String.ofList (Lexer.scan c cs).taken⟩ :: lexemes (Lexer.scan c cs).rest
termination_by cs => cs.length
decreasing_by exact Lexer.scan_rest_length c cs

namespace Token

/-- The tokens of consecutive lexemes, the first of which starts at `p`. -/
def place (p : Nat) : List Lexeme → List Token
  | [] => []
  | l :: ls => ⟨l.kind, l.text, ⟨p, p + l.text.utf8ByteSize⟩⟩ :: place (p + l.text.utf8ByteSize) ls

end Token

/-- The tokens of `source`, every span moved by `offset`. -/
def tokenize (source : String) (offset : Nat) : List Token :=
  Token.place offset (lexemes source.toList)

theorem Token.join_place (p : Nat) (ls : List Lexeme) :
    Token.join (Token.place p ls) = ls.foldr (fun l s => l.text ++ s) "" := by
  induction ls generalizing p with
  | nil => rfl
  | cons l ls ih => simp [Token.place, Token.join, ih]

theorem foldr_lexemes (cs : List Char) :
    (lexemes cs).foldr (fun l s => l.text ++ s) "" = String.ofList cs := by
  fun_induction lexemes cs with
  | case1 => rfl
  | case2 c cs ih => rw [List.foldr_cons, ih, ← String.ofList_append, Lexer.scan_append]

/-- **The tokens of a text cover it.** -/
theorem join_tokenize (source : String) (offset : Nat) :
    Token.join (tokenize source offset) = source := by
  rw [tokenize, Token.join_place, foldr_lexemes, String.ofList_toList]

end Selectors
