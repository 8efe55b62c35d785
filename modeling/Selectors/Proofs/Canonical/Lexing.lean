import Selectors.Proofs.Canonical.Tree
import Selectors.Proofs.Tokens

/-!
# Cutting printed pieces

Each piece that a canonical tree prints is cut back into its own lexemes, whatever follows it, as
long as that can not run on: a name needs a character that ends text after it, blanks need no
further blank.  What is inside an attribute is cut the same way with and without the bracket.
-/

namespace Selectors

namespace Lexer

variable {c : Char} {cs rest : List Char}

/-- The scan with more text left. -/
def Scan.extend (rest : List Char) (s : Scan) : Scan := { s with rest := s.rest ++ rest }

/-- A run of text ends at these characters, or with the text. -/
def Breaks (cs : List Char) : Prop := ∀ c ∈ cs.head?, breaksText c

theorem breaks_cons (h : breaksText c) : Breaks (c :: cs) := by
  rintro d hd
  obtain rfl := Option.some.inj hd
  exact h

theorem textRun_of_breaks (h : Breaks cs) : textRun cs = ⟨.text, [], cs⟩ := by
  cases cs with
  | nil => rfl
  | cons c cs =>
    have hc : breaksText c = true := h c rfl
    have hback : c ≠ '\\' := by
      rintro rfl
      exact absurd hc (by decide)
    have hslash : c ≠ '/' := by
      rintro rfl
      exact absurd hc (by decide)
    rw [textRun_cons hback fun he => absurd he hslash, if_pos hc]

/-- A run of text takes a name where it takes nothing after it. -/
theorem textRun_name (hcs : ∀ c ∈ cs, breaksText c = false ∧ c ≠ '\\' ∧ c ≠ '/')
    (h : textRun rest = ⟨.text, [], rest⟩) : textRun (cs ++ rest) = ⟨.text, cs, rest⟩ := by
  induction cs with
  | nil => exact h
  | cons c cs ih =>
    obtain ⟨hb, hback, hslash⟩ := hcs c (List.mem_cons_self ..)
    have ih := ih fun d hd => hcs d (List.mem_cons_of_mem c hd)
    rw [List.cons_append, textRun_cons hback fun he => absurd he hslash, hb, ih]
    rfl

end Lexer

open Lexer

/-! ### Pieces -/

variable {c : Char} {cs rest : List Char} {k : TokenKind}

theorem lexemes_of_scan {s : Scan} (h : scan c cs = s) :
    lexemes (c :: cs) = ⟨s.kind, String.ofList s.taken⟩ :: lexemes s.rest := by
  rw [lexemes, h]

/-- A delimiter is a lexeme, whatever follows it. -/
theorem lexemes_delimiter (h : TokenKind.ofDelimiter? c = some k) :
    lexemes (c :: rest) = ⟨k, String.ofList [c]⟩ :: lexemes rest := by
  refine lexemes_of_scan (s := ⟨k, [c], rest⟩) ?_
  unfold TokenKind.ofDelimiter? at h
  split at h <;> cases h <;> rfl

/-- A name is a lexeme where text ends after it. -/
theorem lexemes_name {s : String} (hs : IsName s) (h : textRun rest = ⟨.text, [], rest⟩) :
    lexemes (s.toList ++ rest) = ⟨.text, s⟩ :: lexemes rest := by
  obtain ⟨hne, hcs⟩ := hs
  obtain ⟨c, cs, hc⟩ := List.exists_cons_of_ne_nil (l := s.toList) (by simpa using hne)
  have hrun := textRun_name hcs h
  obtain ⟨hb, hback, hslash⟩ := hcs c (by rw [hc]; exact List.mem_cons_self ..)
  simp only [breaksText, Bool.or_eq_false_iff, Option.isSome_eq_false_iff,
    Option.isNone_iff_eq_none] at hb
  rw [hc, List.cons_append] at hrun ⊢
  have hscan : scan c (cs ++ rest) = ⟨.text, c :: cs, rest⟩ := by
    rw [scan, if_neg (by simp [hslash]), if_neg (by simp [hb]), if_neg (by simp [hb])]
    simp only [hb]
    exact hrun
  rw [lexemes_of_scan hscan, ← hc, String.ofList_toList]

/-- Blanks are a lexeme before any other character. -/
theorem lexemes_blanks {s : String} (hne : s ≠ "") (hs : IsBlanks s)
    (h : ∀ c ∈ rest.head?, isBlank c = false) :
    lexemes (s.toList ++ rest) = ⟨.space, s⟩ :: lexemes rest := by
  obtain ⟨c, cs, hc⟩ := List.exists_cons_of_ne_nil (l := s.toList) (by simpa using hne)
  unfold IsBlanks at hs
  rw [hc] at hs
  have hcs : ∀ d ∈ cs, isBlank d := fun d hd => hs d (List.mem_cons_of_mem c hd)
  have hstop : rest.takeWhile isBlank = [] ∧ rest.dropWhile isBlank = rest := by
    cases rest with
    | nil => exact ⟨rfl, rfl⟩
    | cons d ds => simp [h d rfl]
  have hslash : c ≠ '/' := by
    rintro rfl
    exact absurd (hs '/' (List.mem_cons_self ..)) (by decide)
  have hscan : scan c (cs ++ rest) = ⟨.space, c :: cs, rest⟩ := by
    rw [scan, if_neg (by simp [hslash]), if_pos (hs c (List.mem_cons_self ..)),
      List.takeWhile_append_of_pos hcs, List.dropWhile_append_of_pos hcs, hstop.1, hstop.2,
      List.append_nil]
  rw [hc, List.cons_append, lexemes_of_scan hscan, ← hc, String.ofList_toList]

/-! ### Inside attributes -/

theorem IsAttributeText.of_suffix {ds : List Char} (h : IsAttributeText cs) (hd : ds <:+ cs) :
    IsAttributeText ds :=
  ⟨fun d hm => h.1 d (hd.subset hm), fun hi => h.2 (hi.trans hd.isInfix)⟩

theorem IsAttributeText.tail (h : IsAttributeText (c :: cs)) : IsAttributeText cs :=
  h.of_suffix (List.suffix_cons c cs)

/-- No comment starts in the text. -/
theorem IsAttributeText.head?_ne (h : IsAttributeText (c :: cs)) (hc : c = '/') :
    cs.head? ≠ some '*' := by
  subst hc
  cases cs with
  | nil => simp
  | cons d ds =>
    intro hd
    cases hd
    exact h.2 ⟨[], ds, rfl⟩

/-- No comment starts with the bracket after the text. -/
theorem IsAttributeText.head?_append_ne (h : IsAttributeText (c :: cs)) (hc : c = '/') :
    (cs ++ ']' :: rest).head? ≠ some '*' := by
  cases cs with
  | nil => simp
  | cons d ds => exact h.head?_ne hc

theorem textRun_bracket (h : IsAttributeText cs) :
    textRun (cs ++ ']' :: rest) = (textRun cs).extend (']' :: rest) := by
  induction cs with
  | nil => exact textRun_of_breaks (breaks_cons rfl)
  | cons c cs ih =>
    have hback := (h.1 c (List.mem_cons_self ..)).2.2.2
    rw [List.cons_append, textRun_cons hback fun hc => h.head?_append_ne hc,
      textRun_cons hback fun hc => h.head?_ne hc, ih h.tail]
    split <;> rfl

theorem blanks_bracket (cs rest : List Char) :
    (cs ++ ']' :: rest).takeWhile isBlank = cs.takeWhile isBlank ∧
      (cs ++ ']' :: rest).dropWhile isBlank = cs.dropWhile isBlank ++ ']' :: rest := by
  induction cs with
  | nil => exact ⟨rfl, rfl⟩
  | cons c cs ih =>
    by_cases hc : isBlank c <;> simp [hc, ih]

theorem scan_bracket (h : IsAttributeText (c :: cs)) :
    scan c (cs ++ ']' :: rest) = (scan c cs).extend (']' :: rest) := by
  obtain ⟨-, -, hquote, -⟩ := h.1 c (List.mem_cons_self ..)
  have hcomment : ∀ ds : List Char, (c = '/' → ds.head? ≠ some '*') →
      (c == '/' && ds.head? == some '*') = false := by
    intro ds hds
    by_cases hc : c = '/'
    · simpa [hc] using hds hc
    · simp [hc]
  rw [scan, scan, hcomment _ fun hc => h.head?_append_ne hc, hcomment cs fun hc => h.head?_ne hc]
  by_cases hb : isBlank c
  · obtain ⟨htake, hdrop⟩ := blanks_bracket cs rest
    simp only [hb, htake, hdrop]
    rfl
  · simp only [hb, hquote]
    cases hd : TokenKind.ofDelimiter? c with
    | some k => rfl
    | none => exact textRun_bracket h

/-- What is inside an attribute is cut the same way with and without the bracket after it. -/
theorem lexemes_bracket (h : IsAttributeText cs) :
    lexemes (cs ++ ']' :: rest) = lexemes cs ++ lexemes (']' :: rest) := by
  -- what is left after a lexeme is a suffix of the text, so no comment starts there either
  fun_induction lexemes cs with
  | case1 => rfl
  | case2 c cs ih =>
    have hsuffix : (scan c cs).rest <:+ c :: cs := ⟨_, scan_append c cs⟩
    rw [List.cons_append, lexemes_of_scan (scan_bracket h), List.cons_append]
    exact congrArg _ (ih (h.of_suffix hsuffix))

/-- No lexeme inside an attribute is a bracket. -/
theorem kind_of_mem_lexemes (h : IsAttributeText cs) :
    ∀ l ∈ lexemes cs, l.kind ≠ .openBracket ∧ l.kind ≠ .closeBracket := by
  fun_induction lexemes cs with
  | case1 => simp
  | case2 c cs ih =>
    have hsuffix : (scan c cs).rest <:+ c :: cs := ⟨_, scan_append c cs⟩
    have htaken : ∀ d, (scan c cs).kind.delimiter? = some d → d ∈ c :: cs := by
      intro d hd
      rw [← scan_append c cs, scan_taken_of_delimiter hd]
      exact List.mem_cons_self ..
    intro l hl
    rcases List.mem_cons.1 hl with rfl | hl
    · constructor
      · intro hk
        exact (h.1 _ (htaken '[' (congrArg _ hk))).1 rfl
      · intro hk
        exact (h.1 _ (htaken ']' (congrArg _ hk))).2.1 rfl
    · exact ih (h.of_suffix hsuffix) l hl

end Selectors
