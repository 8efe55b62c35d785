import Selectors.Token.Lexer
import Selectors.Proofs.Layout

/-!
# Tokens cover their text

The tokens of a text stand one after the other, each spanning its own text, and a delimiter token
is spelled with its delimiter.  `Token.Covering` states both, for the tokens from a position on;
it passes to the tokens left after some of them were read (`Token.covering_append`).
-/

namespace Selectors

/-- The character that a delimiter is spelled with. -/
def TokenKind.delimiter? : TokenKind → Option Char
  | dot => some '.'
  | colon => some ':'
  | hash => some '#'
  | star => some '*'
  | pipe => some '|'
  | openParen => some '('
  | closeParen => some ')'
  | openBracket => some '['
  | closeBracket => some ']'
  | comma => some ','
  | greaterThan => some '>'
  | tilde => some '~'
  | plus => some '+'
  | openCurly => some '\x7b'
  | closeCurly => some '\x7d'
  | ampersand => some '&'
  | _ => none

theorem TokenKind.delimiter?_eq_some {c : Char} {k : TokenKind} (h : ofDelimiter? c = some k) :
    k.delimiter? = some c := by
  unfold ofDelimiter? at h
  split at h <;> cases h <;> rfl

namespace Lexer

theorem delimiter?_commentBody (cs : List Char) : (commentBody cs).kind.delimiter? = none := by
  fun_induction commentBody cs <;> simp_all [TokenKind.delimiter?]

theorem delimiter?_stringBody (quote : Char) (cs : List Char) :
    (stringBody quote cs).kind.delimiter? = none := by
  fun_induction stringBody quote cs <;> simp_all [TokenKind.delimiter?]

theorem textRun_kind (cs : List Char) : (textRun cs).kind = .text := by
  fun_induction textRun cs <;> simp_all

/-- A character that neither escapes the next one nor starts a comment. -/
theorem textRun_cons {c : Char} {cs : List Char} (hback : c ≠ '\\')
    (hcomment : c = '/' → cs.head? ≠ some '*') :
    textRun (c :: cs) =
      if breaksText c then ⟨.text, [], c :: cs⟩ else (textRun cs).cons c := by
  rw [textRun.eq_def]
  split
  · rename_i he
    cases he
  · rename_i he
    exact absurd (List.cons.inj he).1 hback
  · rename_i he
    exact absurd (List.cons.inj he).1 hback
  · rename_i ds he
    obtain ⟨rfl, rfl⟩ := List.cons.inj he
    exact absurd rfl (hcomment rfl)
  · rename_i he
    obtain ⟨rfl, rfl⟩ := List.cons.inj he
    rfl

/-- A lexeme of a delimiter's kind is that delimiter. -/
theorem scan_taken_of_delimiter {c d : Char} {cs : List Char}
    (h : (scan c cs).kind.delimiter? = some d) : (scan c cs).taken = [d] := by
  unfold scan at h ⊢
  split
  · rename_i hc
    simp [hc, delimiter?_commentBody] at h
  · rename_i hc
    rw [if_neg hc] at h
    split
    · rename_i hb
      simp [hb, TokenKind.delimiter?] at h
    · rename_i hb
      rw [if_neg hb] at h
      split
      · rename_i hq
        simp [hq, delimiter?_stringBody] at h
      · rename_i hq
        rw [if_neg hq] at h
        split
        · rename_i k hk
          simp only [hk, TokenKind.delimiter?_eq_some hk, Option.some.injEq] at h
          rw [h]
        · rename_i hk
          simp [hk, textRun_kind, TokenKind.delimiter?] at h

end Lexer

namespace Token

/-- A delimiter token is spelled with its delimiter. -/
def Spelled (t : Token) : Prop := ∀ c, t.kind.delimiter? = some c → t.text = String.ofList [c]

/-- The tokens cover their text from `p` on. -/
structure Covering (p : Nat) (ts : List Token) : Prop where
  laid : Laid 0 Token.span Token.text p ts
  spelled : ∀ t ∈ ts, t.Spelled

theorem extent_eq (ts : List Token) : extent 0 Token.text ts = (join ts).utf8ByteSize := by
  induction ts with
  | nil => rfl
  | cons t ts ih => simp [extent, join, String.utf8ByteSize_append, ih]

theorem covering_append {p : Nat} {ts us : List Token} :
    Covering p (ts ++ us) ↔ Covering p ts ∧ Covering (p + (join ts).utf8ByteSize) us := by
  constructor
  · rintro ⟨hl, hs⟩
    obtain ⟨hl₁, hl₂⟩ := laid_append.1 hl
    rw [extent_eq] at hl₂
    exact ⟨⟨hl₁, fun t ht => hs t (by simp [ht])⟩, hl₂, fun t ht => hs t (by simp [ht])⟩
  · rintro ⟨⟨hl₁, hs₁⟩, hl₂, hs₂⟩
    refine ⟨laid_append.2 ⟨hl₁, by rwa [extent_eq]⟩, fun t ht => ?_⟩
    exact (List.mem_append.1 ht).elim (hs₁ t) (hs₂ t)

theorem covering_cons {p : Nat} {t : Token} {ts : List Token} :
    Covering p (t :: ts) ↔
      (t.span = .ofText p t.text ∧ t.Spelled) ∧ Covering (p + t.text.utf8ByteSize) ts := by
  rw [show t :: ts = [t] ++ ts from rfl, covering_append]
  simp only [join, String.append_empty]
  refine and_congr_left fun _ => ⟨fun h => ⟨h.laid.1, h.spelled t (by simp)⟩, ?_⟩
  rintro ⟨hspan, hs⟩
  exact ⟨⟨hspan, trivial⟩, by simpa using hs⟩

section

variable {p : Nat} {w : String} {t : Token} {ts : List Token}

theorem Covering.head_span (h : Covering p (t :: ts)) : t.span = .ofText p t.text :=
  (covering_cons.1 h).1.1

theorem Covering.head_text (h : Covering p (t :: ts)) {c : Char}
    (hc : t.kind.delimiter? = some c) : t.text = String.ofList [c] :=
  (covering_cons.1 h).1.2 c hc

/-- The tokens after the first one, when the tokens follow a text `w`. -/
theorem Covering.tail (h : Covering (p + w.utf8ByteSize) (t :: ts)) :
    Covering (p + (w ++ t.text).utf8ByteSize) ts := by
  rw [String.utf8ByteSize_append, ← Nat.add_assoc]
  exact (covering_cons.1 h).2

end

theorem laid_place (p : Nat) (ls : List Lexeme) : Laid 0 Token.span Token.text p (place p ls) := by
  induction ls generalizing p with
  | nil => trivial
  | cons l ls ih => exact ⟨rfl, ih _⟩

theorem spelled_of_mem_place {p : Nat} {cs : List Char} {t : Token}
    (ht : t ∈ place p (lexemes cs)) : t.Spelled := by
  fun_induction lexemes cs generalizing p with
  | case1 => simp [place] at ht
  | case2 c cs ih =>
    simp only [place, List.mem_cons] at ht
    obtain rfl | ht := ht
    · intro d hd
      rw [Lexer.scan_taken_of_delimiter hd]
    · exact ih ht

/-- **The tokens of a text cover it.** -/
theorem covering_tokenize (source : String) (offset : Nat) :
    Covering offset (tokenize source offset) :=
  ⟨laid_place _ _, fun _ => spelled_of_mem_place⟩

end Token

end Selectors
