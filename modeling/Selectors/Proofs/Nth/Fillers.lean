import Selectors.Proofs.Canonical.Pieces
import Selectors.Proofs.Slices.Lexing

/-!
# Fillers

Between words there may be blanks and comments, any number of them in any order.  A filler is cut
into tokens of these two kinds, whatever they are made of, when what follows does not start with a
blank (`cut_filler`).  Text ends before a filler (`IsFiller.endsText`), be it a blank or a comment.
-/

namespace Selectors

open Lexer

/-- Blanks and comments. -/
inductive IsFiller : List Char → Prop where
  | nil : IsFiller []
  | blank {c : Char} {cs : List Char} (hc : isBlank c) (h : IsFiller cs) : IsFiller (c :: cs)
  | comment {body cs : List Char} (hbody : ¬['*', '/'] <:+: body) (h : IsFiller cs) :
    IsFiller ('/' :: '*' :: (body ++ '*' :: '/' :: cs))

variable {c : Char} {body f rest : List Char} {p : Nat}

/-! ### Comments and blanks -/

/-- A comment ends at its first end mark. -/
theorem Lexer.commentBody_mark (hbody : ¬['*', '/'] <:+: body) (rest : List Char) :
    commentBody (body ++ '*' :: '/' :: rest) = ⟨.comment, body ++ ['*', '/'], rest⟩ := by
  induction body with
  | nil => rfl
  | cons c body ih =>
    have ih := ih fun h => hbody (List.infix_cons h)
    rw [List.cons_append, commentBody.eq_def]
    split
    · rename_i he
      cases he
    · -- a mark would stand at the front of the inside, or over its end
      rename_i es he
      obtain ⟨rfl, hes⟩ := List.cons.inj he
      cases body with
      | nil => cases hes
      | cons d ds =>
        obtain ⟨rfl, -⟩ := List.cons.inj hes
        exact absurd ⟨[], ds, rfl⟩ hbody
    · rename_i he
      obtain ⟨rfl, rfl⟩ := List.cons.inj he
      rw [ih]
      rfl

theorem lexemes_comment (hbody : ¬['*', '/'] <:+: body) (rest : List Char) :
    lexemes ('/' :: '*' :: (body ++ '*' :: '/' :: rest)) =
      ⟨.comment, String.ofList ('/' :: '*' :: (body ++ ['*', '/']))⟩ :: lexemes rest := by
  refine lexemes_of_scan (s := ⟨.comment, '/' :: '*' :: (body ++ ['*', '/']), rest⟩) ?_
  change ((commentBody (body ++ '*' :: '/' :: rest)).cons '*').cons '/' = _
  rw [commentBody_mark hbody]
  rfl

/-- Blanks are cut off up to the next character that is none. -/
theorem lexemes_blank (hc : isBlank c) (rest : List Char) :
    lexemes (c :: rest) = ⟨.space, String.ofList (c :: rest.takeWhile isBlank)⟩ ::
      lexemes (rest.dropWhile isBlank) :=
  lexemes_of_scan (scan_blank hc rest)

namespace IsFiller

/-- Text ends before a filler, and before nothing if it ends before what follows that. -/
theorem endsText (h : IsFiller f) (hrest : f = [] → EndsText rest) : EndsText (f ++ rest) := by
  cases h with
  | nil => exact hrest rfl
  | @blank c cs hc h =>
    left
    simp [breaksText, hc]
  | comment hbody h => exact .inr ⟨rfl, rfl⟩

/-- A filler is cut into blanks and comments, also where the blanks in front belong to a run that
began before it. -/
theorem lexemes_append (h : IsFiller f) (hrest : ∀ c ∈ rest.head?, isBlank c = false) :
    (∃ ls, lexemes (f ++ rest) = ls ++ lexemes rest ∧
        ∀ l ∈ ls, l.kind = .space ∨ l.kind = .comment) ∧
      ∃ ls, lexemes ((f ++ rest).dropWhile isBlank) = ls ++ lexemes rest ∧
        ∀ l ∈ ls, l.kind = .space ∨ l.kind = .comment := by
  induction h with
  | nil =>
    have hdrop : rest.dropWhile isBlank = rest := by
      cases rest with
      | nil => rfl
      | cons c cs => exact List.dropWhile_cons_of_neg (by simp [hrest c rfl])
    exact ⟨⟨[], rfl, nofun⟩, [], by rw [List.nil_append, hdrop]; rfl, nofun⟩
  | @blank c cs hc h ih =>
    obtain ⟨-, ls, hls, hkinds⟩ := ih
    rw [List.cons_append, lexemes_blank hc, List.dropWhile_cons_of_pos hc, hls]
    exact ⟨⟨_ :: ls, rfl, List.forall_mem_cons.2 ⟨.inl rfl, hkinds⟩⟩, ls, rfl, hkinds⟩
  | @comment body cs hbody h ih =>
    obtain ⟨⟨ls, hls, hkinds⟩, -⟩ := ih
    have hcut : ∃ ls', lexemes ('/' :: '*' :: (body ++ '*' :: '/' :: cs) ++ rest) =
        ls' ++ lexemes rest ∧ ∀ l ∈ ls', l.kind = .space ∨ l.kind = .comment := by
      refine ⟨⟨.comment, String.ofList ('/' :: '*' :: (body ++ ['*', '/']))⟩ :: ls, ?_,
        List.forall_mem_cons.2 ⟨.inr rfl, hkinds⟩⟩
      simp only [List.cons_append, List.append_assoc]
      rw [lexemes_comment hbody, hls]
    exact ⟨hcut, hcut⟩

end IsFiller

/-- **A filler is cut into blanks and comments.** -/
theorem cut_filler (p : Nat) (h : IsFiller f) (hrest : ∀ c ∈ rest.head?, isBlank c = false) :
    ∃ ts q, cut p (f ++ rest) = ts ++ cut q rest ∧
      ∀ t ∈ ts, t.kind = .space ∨ t.kind = .comment := by
  obtain ⟨ls, hls, hkinds⟩ := (h.lexemes_append hrest).1
  obtain ⟨q, hq⟩ := Token.place_append ls (lexemes rest) p
  refine ⟨Token.place p ls, q, by rw [cut, hls, hq]; rfl, fun t ht => ?_⟩
  obtain ⟨l, hl, hk⟩ := Token.exists_lexeme_of_mem_place ht
  rw [hk]
  exact hkinds l hl

/-- No text comes right after a place where a filler stands. -/
theorem IsFiller.head_ne_text (h : IsFiller f) (hne : f ≠ []) (p : Nat) (rest : List Char) :
    ∀ u ∈ (cut p (f ++ rest)).head?, u.kind ≠ .text := by
  cases h with
  | nil => exact absurd rfl hne
  | @blank c cs hc h =>
    obtain ⟨t, q, hcut, hk, -⟩ := cut_cons p (lexemes_blank hc (cs ++ rest))
    rw [List.cons_append, hcut]
    rintro _ ⟨⟩
    simp [hk]
  | @comment body cs hbody h =>
    obtain ⟨t, q, hcut, hk, -⟩ := cut_cons p (lexemes_comment hbody (cs ++ rest))
    rw [show '/' :: '*' :: (body ++ '*' :: '/' :: cs) ++ rest =
      '/' :: '*' :: (body ++ '*' :: '/' :: (cs ++ rest)) by simp, hcut]
    rintro _ ⟨⟩
    simp [hk]

end Selectors
