import Mathlib.Data.List.TakeWhile
import Selectors.Proofs.Tokens

/-!
# Tokens of slices

Cutting looks one or two characters beyond the lexeme at hand.  Nevertheless a slice of a text that
starts and ends between two tokens has just the tokens between them: what a lexeme sees behind its
end is either cut off with all that follows or still the start of the next lexeme
(`Lexer.scan_cut`, `lexemes_chars`).

* `Token.Lexed`: the tokens are those of their own text.
* `Token.lexed_append`: this passes to the tokens before and after any place between two of them.
-/

namespace Selectors

/-- A run at the front ends at the same place when the list is cut behind it. -/
theorem takeWhile_cut {α : Type} {p : α → Bool} {us vs xs : List α}
    (h : (us ++ xs).dropWhile p = vs ++ xs) :
    us.takeWhile p = (us ++ xs).takeWhile p ∧ us.dropWhile p = vs := by
  induction us with
  | nil =>
    have happ := List.takeWhile_append_dropWhile (p := p) (l := xs)
    rw [List.nil_append] at h ⊢
    rw [h, ← List.append_assoc, List.append_left_eq_self, List.append_eq_nil_iff] at happ
    exact ⟨happ.1.symm, happ.2.symm⟩
  | cons u us ih =>
    by_cases hu : p u
    · rw [List.cons_append, List.dropWhile_cons_of_pos hu] at h
      obtain ⟨htake, hdrop⟩ := ih h
      rw [List.cons_append, List.takeWhile_cons_of_pos hu, List.takeWhile_cons_of_pos hu,
        List.dropWhile_cons_of_pos hu, htake, hdrop]
      exact ⟨rfl, rfl⟩
    · rw [List.cons_append, List.dropWhile_cons_of_neg hu, ← List.cons_append] at h
      rw [List.cons_append, List.takeWhile_cons_of_neg hu, List.takeWhile_cons_of_neg hu,
        List.dropWhile_cons_of_neg hu]
      exact ⟨rfl, List.append_cancel_right h⟩

namespace Lexer

variable {c : Char} {cs ds : List Char}

/-- Text ends before these characters: before the end, a character that ends text, or a comment. -/
def EndsText : List Char → Prop
  | [] => True
  | c :: cs => breaksText c ∨ c = '/' ∧ cs.head? = some '*'

theorem endsText_rest_textRun (cs : List Char) : EndsText (textRun cs).rest := by
  fun_induction textRun cs <;> simp_all [EndsText]

theorem textRun_of_endsText (h : EndsText cs) : textRun cs = ⟨.text, [], cs⟩ := by
  cases cs with
  | nil => rfl
  | cons c cs =>
    rcases h with h | ⟨rfl, h⟩
    · have hback : c ≠ '\\' := by
        rintro rfl
        exact absurd h (by decide)
      have hslash : c ≠ '/' := by
        rintro rfl
        exact absurd h (by decide)
      rw [textRun_cons hback fun he => absurd he hslash, if_pos h]
    · obtain ⟨cs, rfl⟩ : ∃ r, cs = '*' :: r := by cases cs <;> simp_all
      rfl

/-- A prefix of a text starts like it, unless it is empty. -/
theorem head?_of_isPrefix (h : ds <+: cs) : ∀ d ∈ ds.head?, cs.head? = some d := by
  obtain ⟨es, rfl⟩ := h
  cases ds <;> simp

/-- A character that is no escape, neither at the end nor before another one. -/
theorem ne_backslash (hlast : c = '\\' → cs = [] → False)
    (hescape : ∀ d ds, c = '\\' → cs = d :: ds → False) : c ≠ '\\' := by
  rintro rfl
  cases cs with
  | nil => exact hlast rfl rfl
  | cons d ds => exact hescape d ds rfl rfl

/-- A run of text ends at the same place when what follows it is cut off further on. -/
theorem textRun_cut (h : ds <+: (textRun cs).rest) (hd : EndsText ds) :
    textRun ((textRun cs).taken ++ ds) = ⟨.text, (textRun cs).taken, ds⟩ := by
  fun_induction textRun cs with
  | case1 => exact textRun_of_endsText hd
  | case2 =>
    obtain rfl := List.prefix_nil.1 h
    rfl
  | case3 c cs ih =>
    have ih := ih h
    simp only [List.cons_append, textRun, ih, Scan.cons]
  | case4 => exact textRun_of_endsText hd
  | case5 => exact textRun_of_endsText hd
  | case6 c cs hlast hescape hcomment hc ih =>
    have ih := ih h
    have hback := ne_backslash hlast hescape
    -- the next character is the one that stood there before
    have hprefix : (textRun cs).taken ++ ds <+: cs := by
      have happ := (List.prefix_append_right_inj (textRun cs).taken).2 h
      rwa [Scan.cons_rest, textRun_append] at happ
    have hstar : c = '/' → ((textRun cs).taken ++ ds).head? ≠ some '*' := by
      intro hslash hhead
      have hcs := head?_of_isPrefix hprefix '*' hhead
      obtain ⟨es, rfl⟩ : ∃ es, cs = '*' :: es := by cases cs <;> simp_all
      exact hcomment es hslash rfl
    rw [Scan.cons_taken, List.cons_append, textRun_cons hback hstar, if_neg hc, ih]
    rfl

/-- A comment ends at its end mark, whatever follows. -/
theorem commentBody_cut (h : ds <+: (commentBody cs).rest) :
    commentBody ((commentBody cs).taken ++ ds) =
      ⟨(commentBody cs).kind, (commentBody cs).taken, ds⟩ := by
  fun_induction commentBody cs with
  | case1 =>
    obtain rfl := List.prefix_nil.1 h
    rfl
  | case2 => rfl
  | case3 c cs hmark ih =>
    have ih := ih h
    have hprefix : (commentBody cs).taken ++ ds <+: cs := by
      have happ := (List.prefix_append_right_inj (commentBody cs).taken).2 h
      rwa [Scan.cons_rest, commentBody_append] at happ
    -- no end mark comes up where the text is cut
    have hnext : ∀ es, c = '*' → (commentBody cs).taken ++ ds ≠ '/' :: es := by
      rintro es rfl he
      have hcs := head?_of_isPrefix hprefix '/' (by rw [he]; rfl)
      obtain ⟨fs, rfl⟩ : ∃ fs, cs = '/' :: fs := by cases cs <;> simp_all
      exact hmark fs rfl rfl
    rw [Scan.cons_taken, List.cons_append, commentBody.eq_def]
    split
    · rename_i he
      cases he
    · rename_i es he
      exact absurd (List.cons.inj he).2 (hnext es (List.cons.inj he).1)
    · rename_i he
      obtain ⟨rfl, rfl⟩ := List.cons.inj he
      rw [ih]
      rfl

theorem stringBody_cons {quote : Char} (hback : c ≠ '\\') :
    stringBody quote (c :: cs) =
      if c == quote then ⟨.string, [c], cs⟩ else (stringBody quote cs).cons c := by
  rw [stringBody.eq_def]
  split
  · rename_i he
    cases he
  · rename_i he
    exact absurd (List.cons.inj he).1 hback
  · rename_i he
    exact absurd (List.cons.inj he).1 hback
  · rename_i he
    obtain ⟨rfl, rfl⟩ := List.cons.inj he
    rfl

/-- A string ends at its closing quote, whatever follows. -/
theorem stringBody_cut {quote : Char} (h : ds <+: (stringBody quote cs).rest) :
    stringBody quote ((stringBody quote cs).taken ++ ds) =
      ⟨(stringBody quote cs).kind, (stringBody quote cs).taken, ds⟩ := by
  fun_induction stringBody quote cs with
  | case1 =>
    obtain rfl := List.prefix_nil.1 h
    rfl
  | case2 =>
    obtain rfl := List.prefix_nil.1 h
    rfl
  | case3 c cs ih =>
    have ih := ih h
    simp only [List.cons_append, stringBody, ih, Scan.cons]
  | case4 c cs hlast hescape hc =>
    rw [List.singleton_append, stringBody_cons (ne_backslash hlast hescape), if_pos hc]
  | case5 c cs hlast hescape hc ih =>
    rw [Scan.cons_taken, List.cons_append, stringBody_cons (ne_backslash hlast hescape),
      if_neg hc, ih h]
    rfl

/-! ### Lexemes -/

theorem scan_blank (h : isBlank c) (cs : List Char) :
    scan c cs = ⟨.space, c :: cs.takeWhile isBlank, cs.dropWhile isBlank⟩ := by
  have hslash : c ≠ '/' := by
    rintro rfl
    exact absurd h (by decide)
  rw [scan, if_neg (by simp [hslash]), if_pos h]

theorem scan_quote (h : isQuote c) (cs : List Char) : scan c cs = (stringBody c cs).cons c := by
  have hslash : c ≠ '/' := by
    rintro rfl
    exact absurd h (by decide)
  have hblank : ¬isBlank c := by
    intro hb
    simp only [isQuote, Bool.or_eq_true, beq_iff_eq] at h
    rcases h with rfl | rfl <;> exact absurd hb (by decide)
  rw [scan, if_neg (by simp [hslash]), if_neg hblank, if_pos h]

theorem scan_delimiter {k : TokenKind} (h : TokenKind.ofDelimiter? c = some k) (cs : List Char) :
    scan c cs = ⟨k, [c], cs⟩ := by
  unfold TokenKind.ofDelimiter? at h
  split at h <;> cases h <;> rfl

theorem commentBody_kind_ne_text (cs : List Char) : (commentBody cs).kind ≠ .text := by
  fun_induction commentBody cs <;> simp_all

theorem stringBody_kind_ne_text (quote : Char) (cs : List Char) :
    (stringBody quote cs).kind ≠ .text := by
  fun_induction stringBody quote cs <;> simp_all

theorem scan_text (hb : breaksText c = false) (hmark : c = '/' → cs.head? ≠ some '*') :
    scan c cs = textRun (c :: cs) := by
  simp only [breaksText, Bool.or_eq_false_iff, Option.isSome_eq_false_iff,
    Option.isNone_iff_eq_none] at hb
  have hslash : (c == '/' && cs.head? == some '*') = false := by
    by_cases hc : c = '/'
    · simpa [hc] using hmark hc
    · simp [hc]
  simp [scan, hslash, hb]

/-- What a lexeme takes starts with the first character. -/
theorem exists_scan_taken (c : Char) (cs : List Char) :
    ∃ t, (scan c cs).taken = c :: t ∧ t ++ (scan c cs).rest = cs := by
  have happ := scan_append c cs
  obtain ⟨d, t, ht⟩ := List.exists_cons_of_ne_nil (scan_taken_ne_nil c cs)
  rw [ht, List.cons_append, List.cons.injEq] at happ
  obtain ⟨rfl, happ⟩ := happ
  exact ⟨t, ht, happ⟩

/-- **A lexeme stays the same when the text is cut behind it**, unless a run of text loses what
ends it. -/
theorem scan_cut (h : ds <+: (scan c cs).rest) (hd : (scan c cs).kind = .text → EndsText ds)
    {t : List Char} (ht : (scan c cs).taken = c :: t) :
    scan c (t ++ ds) = ⟨(scan c cs).kind, c :: t, ds⟩ := by
  have hcs : t ++ (scan c cs).rest = cs := by
    have happ := scan_append c cs
    rw [ht, List.cons_append, List.cons.injEq] at happ
    exact happ.2
  by_cases hb : isBlank c
  · rw [scan_blank hb] at h ht hcs ⊢
    obtain rfl := (List.cons.inj ht).2
    obtain ⟨es, hds⟩ := h
    have hes : cs.takeWhile isBlank ++ ds ++ es = cs := by rw [List.append_assoc, hds, hcs]
    have hrest : (cs.takeWhile isBlank ++ ds ++ es).dropWhile isBlank = ds ++ es := by
      rw [hes, hds]
    obtain ⟨htake, hdrop⟩ := takeWhile_cut hrest
    rw [hes] at htake
    rw [scan_blank hb, htake, hdrop]
  by_cases hq : isQuote c
  · rw [scan_quote hq] at h ht ⊢
    obtain rfl := (List.cons.inj ht).2
    rw [scan_quote hq, stringBody_cut h]
    rfl
  cases hk : TokenKind.ofDelimiter? c with
  | some k =>
    rw [scan_delimiter hk cs] at ht ⊢
    obtain rfl := (List.cons.inj ht).2
    exact scan_delimiter hk ds
  | none =>
    have htext : breaksText c = false := by simp [breaksText, hb, hq, hk]
    by_cases hmark : c = '/' ∧ cs.head? = some '*'
    · obtain ⟨rfl, hstar⟩ := hmark
      obtain ⟨es, rfl⟩ : ∃ es, cs = '*' :: es := by cases cs <;> simp_all
      obtain rfl := (List.cons.inj ht).2
      have hbody : ds <+: (commentBody es).rest := h
      change ((commentBody ((commentBody es).taken ++ ds)).cons '*').cons '/' = _
      rw [commentBody_cut hbody]
      rfl
    · have hprefix : t ++ ds <+: cs := by
        rw [← hcs]
        exact (List.prefix_append_right_inj t).2 h
      rw [scan_text htext fun hc hstar => hmark ⟨hc, hstar⟩] at h hd ht ⊢
      rw [scan_text htext fun hc hstar => hmark ⟨hc, head?_of_isPrefix hprefix '*' hstar⟩,
        ← List.cons_append, ← ht, textRun_cut h (hd (textRun_kind _)), textRun_kind]

/-- What stands behind a run of text ends it. -/
theorem endsText_rest_scan (h : (scan c cs).kind = .text) : EndsText (scan c cs).rest := by
  by_cases hb : isBlank c
  · rw [scan_blank hb] at h
    cases h
  by_cases hq : isQuote c
  · rw [scan_quote hq] at h
    exact absurd h (stringBody_kind_ne_text c cs)
  cases hk : TokenKind.ofDelimiter? c with
  | some k =>
    rw [scan_delimiter hk] at h
    obtain rfl : k = .text := h
    exact absurd hk (by unfold TokenKind.ofDelimiter?; split <;> simp)
  | none =>
    by_cases hmark : c = '/' ∧ cs.head? = some '*'
    · obtain ⟨rfl, hstar⟩ := hmark
      obtain ⟨es, rfl⟩ : ∃ es, cs = '*' :: es := by cases cs <;> simp_all
      exact absurd h (commentBody_kind_ne_text es)
    · rw [scan_text (by simp [breaksText, hb, hq, hk]) fun hc hstar => hmark ⟨hc, hstar⟩]
      exact endsText_rest_textRun (c :: cs)

/-- What ends a run of text still does when the text is cut behind the next lexeme. -/
theorem endsText_taken (h : EndsText (c :: cs)) (ds : List Char) :
    EndsText ((scan c cs).taken ++ ds) := by
  rcases h with h | ⟨rfl, hstar⟩
  · obtain ⟨t, ht, -⟩ := exists_scan_taken c cs
    rw [ht]
    exact .inl h
  · obtain ⟨es, rfl⟩ : ∃ es, cs = '*' :: es := by cases cs <;> simp_all
    exact .inr ⟨rfl, rfl⟩

end Lexer

/-! ### Lexemes of slices -/

/-- The characters of lexemes. -/
def Lexeme.chars (ls : List Lexeme) : List Char := ls.flatMap (·.text.toList)

theorem Lexeme.chars_lexemes (cs : List Char) : chars (lexemes cs) = cs := by
  fun_induction lexemes cs with
  | case1 => rfl
  | case2 c cs ih =>
    rw [chars, List.flatMap_cons, String.toList_ofList]
    exact (congrArg _ ih).trans (Lexer.scan_append c cs)

open Lexer in
/-- **A slice between two lexemes has just the lexemes between them.** -/
theorem lexemes_chars {cs : List Char} {ls ms : List Lexeme} (h : lexemes cs = ls ++ ms) :
    lexemes (Lexeme.chars ls) = ls ∧ lexemes (Lexeme.chars ms) = ms := by
  induction ls generalizing cs with
  | nil =>
    obtain rfl : lexemes cs = ms := h
    exact ⟨by simp [Lexeme.chars, lexemes], by rw [Lexeme.chars_lexemes]⟩
  | cons l ls ih =>
    cases cs with
    | nil => simp [lexemes] at h
    | cons c cs =>
      rw [lexemes, List.cons_append, List.cons.injEq] at h
      obtain ⟨rfl, hrest⟩ := h
      obtain ⟨hls, hms⟩ := ih hrest
      refine ⟨?_, hms⟩
      have hprefix : Lexeme.chars ls <+: (scan c cs).rest := by
        have hchars := Lexeme.chars_lexemes (scan c cs).rest
        rw [hrest, Lexeme.chars, List.flatMap_append] at hchars
        exact ⟨_, hchars⟩
      have hends : (scan c cs).kind = .text → EndsText (Lexeme.chars ls) := by
        intro hk
        have hend := endsText_rest_scan hk
        cases ls with
        | nil => trivial
        | cons m ls =>
          cases hds : (scan c cs).rest with
          | nil => simp [hds, lexemes] at hrest
          | cons d ds =>
            rw [hds, lexemes, List.cons_append, List.cons.injEq] at hrest
            rw [hds] at hend
            obtain ⟨rfl, -⟩ := hrest
            rw [Lexeme.chars, List.flatMap_cons, String.toList_ofList]
            exact endsText_taken hend _
      obtain ⟨t, ht, -⟩ := exists_scan_taken c cs
      have hchars : Lexeme.chars (⟨(scan c cs).kind, String.ofList (scan c cs).taken⟩ :: ls) =
          c :: (t ++ Lexeme.chars ls) := by
        rw [Lexeme.chars, List.flatMap_cons, String.toList_ofList, ht]
        rfl
      rw [hchars, lexemes, scan_cut hprefix hends ht, hls, ht]

/-! ### Tokens of slices -/

namespace Token

/-- The tokens are those of the text that they cover, from `p` on. -/
def Lexed (p : Nat) (ts : List Token) : Prop := tokenize (join ts) p = ts

theorem lexed_tokenize (source : String) (offset : Nat) :
    Lexed offset (tokenize source offset) := by
  rw [Lexed, join_tokenize]

variable {p : Nat} {us vs : List Token}

theorem Lexed.covering {ts : List Token} (h : Lexed p ts) : Covering p ts := by
  rw [← h]
  exact covering_tokenize _ _

theorem toList_join_place (p : Nat) (ls : List Lexeme) :
    (join (place p ls)).toList = Lexeme.chars ls := by
  induction ls generalizing p with
  | nil => rfl
  | cons l ls ih =>
    rw [place, join, String.toList_append, ih]
    rfl

/-- Tokens stand for lexemes, those in front for the lexemes in front. -/
theorem exists_of_place_eq_append {ls : List Lexeme} (h : place p ls = us ++ vs) :
    ∃ ls₁ ls₂, ls = ls₁ ++ ls₂ ∧ place p ls₁ = us ∧
      place (p + (join us).utf8ByteSize) ls₂ = vs := by
  induction us generalizing p ls with
  | nil => exact ⟨[], ls, rfl, rfl, by simpa [join] using h⟩
  | cons u us ih =>
    cases ls with
    | nil => cases h
    | cons l ls =>
      rw [place, List.cons_append, List.cons.injEq] at h
      obtain ⟨rfl, h⟩ := h
      obtain ⟨ls₁, ls₂, rfl, h₁, h₂⟩ := ih h
      refine ⟨l :: ls₁, ls₂, rfl, by rw [place, h₁], ?_⟩
      rwa [join, String.utf8ByteSize_append, ← Nat.add_assoc]

/-- **A slice between two tokens has just the tokens between them.** -/
theorem lexed_append (h : Lexed p (us ++ vs)) :
    Lexed p us ∧ Lexed (p + (join us).utf8ByteSize) vs := by
  obtain ⟨ls₁, ls₂, hls, rfl, rfl⟩ := exists_of_place_eq_append h
  obtain ⟨h₁, h₂⟩ := lexemes_chars hls
  simp only [Lexed, tokenize, toList_join_place, h₁, h₂, and_self]

theorem Lexed.tail {t : Token} {ts : List Token} (h : Lexed p (t :: ts)) :
    Lexed t.span.stop ts := by
  rw [← List.singleton_append] at h
  have htail := (lexed_append h).2
  rw [h.covering.head_span, Span.stop_ofText]
  simpa [join] using htail

theorem Lexed.suffix {ts : List Token} (h : Lexed p ts) (hs : us <:+ ts) : ∃ q, Lexed q us := by
  obtain ⟨vs, rfl⟩ := hs
  exact ⟨_, (lexed_append h).2⟩

end Token

end Selectors
