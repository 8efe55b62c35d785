import Mathlib.Data.List.Infix
import Selectors.Parser
import Selectors.Proofs.Slices.Lexing

/-!
# The language of each kind of token

A token of a kind is a word of that kind's language, cut as long as the text after it allows.
`TokenKind.Describes` gives the languages by positions in the word and by what stands behind it:
blanks up to the first character that is none, a comment up to its first end mark, a string up to
the first of its quotes that no backslash takes along, and text up to the first place, not taken by
a backslash either, where a blank, a quote, a delimiter or a comment starts.

Whether a backslash takes a character along is not a matter of how the text is read: it does when
the backslashes right before the character are odd in number (`Escaped`).

* `Lexer.describes_scan`: what is cut off the front of a text is described by its kind.
* `Token.described`: this holds of every token, with the tokens after it as what stands behind.
-/

namespace Selectors

/-! ### Escapes -/

/-- The number of backslashes in the end. -/
def backslashes (cs : List Char) : Nat := (cs.reverse.takeWhile (· == '\\')).length

/-- A backslash takes the character at an index along. -/
def Escaped (cs : List Char) (i : Nat) : Prop := backslashes (cs.take i) % 2 = 1

/-- Nothing that stands in `cs`, in front of `ds`, starts what is forbidden, unless a backslash
takes its first character along. -/
def Avoids (forbidden : List Char → Prop) (cs ds : List Char) : Prop :=
  ∀ i < cs.length, ¬Escaped cs i → ¬forbidden ((cs ++ ds).drop i)

section

variable {c : Char} {cs ds : List Char} {i : Nat} {forbidden : List Char → Prop}

theorem backslashes_le (cs : List Char) : backslashes cs ≤ cs.length := by
  have hle := (List.takeWhile_sublist (· == '\\') (l := cs.reverse)).length_le
  rwa [List.length_reverse] at hle

theorem backslashes_cons (c : Char) (cs : List Char) :
    backslashes (c :: cs) =
      if backslashes cs = cs.length ∧ c = '\\' then cs.length + 1 else backslashes cs := by
  simp only [backslashes, List.reverse_cons, List.takeWhile_append, List.length_reverse]
  by_cases hall : (cs.reverse.takeWhile (· == '\\')).length = cs.length
  · by_cases hc : c = '\\'
    · simp [hall, hc]
    · simp [hall, hc]
  · simp [hall]

theorem not_escaped_zero (cs : List Char) : ¬Escaped cs 0 := by
  simp [Escaped, backslashes]

theorem escaped_one (cs : List Char) : Escaped ('\\' :: cs) 1 := by
  simp [Escaped, backslashes]

/-- Only backslashes take characters along. -/
theorem escaped_succ (hc : c ≠ '\\') : Escaped (c :: cs) (i + 1) ↔ Escaped cs i := by
  rw [Escaped, Escaped, List.take_succ_cons, backslashes_cons, if_neg fun h => hc h.2]

/-- A backslash and the character that it takes along do not matter for those behind them. -/
theorem escaped_add_two : Escaped ('\\' :: c :: cs) (i + 2) ↔ Escaped cs i := by
  have hle := backslashes_le (cs.take i)
  rw [Escaped, Escaped, List.take_succ_cons, List.take_succ_cons, backslashes_cons,
    backslashes_cons, List.length_cons]
  by_cases hall : backslashes (cs.take i) = (cs.take i).length ∧ c = '\\'
  · rw [if_pos hall, if_pos ⟨rfl, rfl⟩, hall.1]
    omega
  · rw [if_neg hall, if_neg fun h => by omega]

theorem avoids_nil : Avoids forbidden [] ds := by simp [Avoids]

theorem avoids_cons (hc : c ≠ '\\') :
    Avoids forbidden (c :: cs) ds ↔ ¬forbidden (c :: (cs ++ ds)) ∧ Avoids forbidden cs ds := by
  constructor
  · intro h
    refine ⟨h 0 (Nat.succ_pos _) (not_escaped_zero _), fun i hi he => ?_⟩
    exact h (i + 1) (Nat.succ_lt_succ hi) fun h' => he ((escaped_succ hc).1 h')
  · rintro ⟨hhead, htail⟩ i hi he
    cases i with
    | zero => exact hhead
    | succ i => exact htail i (Nat.lt_of_succ_lt_succ hi) fun h' => he ((escaped_succ hc).2 h')

theorem avoids_escape :
    Avoids forbidden ('\\' :: c :: cs) ds ↔
      ¬forbidden ('\\' :: c :: (cs ++ ds)) ∧ Avoids forbidden cs ds := by
  constructor
  · intro h
    refine ⟨h 0 (Nat.succ_pos _) (not_escaped_zero _), fun i hi he => ?_⟩
    exact h (i + 2) (Nat.add_lt_add_right hi 2) fun h' => he (escaped_add_two.1 h')
  · rintro ⟨hhead, htail⟩ i hi he
    match i with
    | 0 => exact hhead
    | 1 => exact absurd (escaped_one _) he
    | i + 2 => exact htail i (by simpa using hi) fun h' => he (escaped_add_two.2 h')

theorem avoids_backslash : Avoids forbidden ['\\'] ds ↔ ¬forbidden ('\\' :: ds) := by
  constructor
  · intro h
    exact h 0 (Nat.succ_pos _) (not_escaped_zero _)
  · intro h i hi _
    obtain rfl : i = 0 := by simpa using hi
    exact h

end

/-! ### Languages -/

/-- The characters `cs` in front of `ds` are cut off as one token of the kind. -/
def TokenKind.Describes : TokenKind → List Char → List Char → Prop
  | space, cs, ds => (∀ c ∈ cs, isBlank c) ∧ ∀ d ∈ ds.head?, ¬isBlank d
  | comment, cs, _ =>
    ∃ body, cs = '/' :: '*' :: (body ++ ['*', '/']) ∧ ¬['*', '/'] <:+: body ++ ['*']
  | unclosedComment, cs, ds => (∃ body, cs = '/' :: '*' :: body ∧ ¬['*', '/'] <:+: body) ∧ ds = []
  | string, cs, _ =>
    ∃ quote body, isQuote quote ∧ cs = quote :: (body ++ [quote]) ∧
      Avoids (·.head? = some quote) body [] ∧ ¬Escaped body body.length
  | unclosedString, cs, ds =>
    (∃ quote body, isQuote quote ∧ cs = quote :: body ∧ Avoids (·.head? = some quote) body []) ∧
      ds = []
  | text, cs, ds =>
    Avoids Lexer.EndsText cs ds ∧ Lexer.EndsText ds ∧ (ds ≠ [] → ¬Escaped cs cs.length)
  | eof, _, _ => False
  | kind, cs, _ => ∃ c, kind.delimiter? = some c ∧ cs = [c]

namespace Lexer

variable {c : Char} {cs ds : List Char}

/-! ### Cutting -/

/-- No end mark comes up where a character is put in front. -/
theorem not_mark_cons (hc : c = '*' → cs.head? ≠ some '/') (h : ¬['*', '/'] <:+: cs) :
    ¬['*', '/'] <:+: c :: cs := by
  rw [List.infix_cons_iff]
  rintro (hmark | hmark)
  · obtain ⟨rfl, hslash⟩ := List.cons_prefix_cons.1 hmark
    exact hc rfl (head?_of_isPrefix hslash '/' rfl)
  · exact h hmark

/-- The inside of a comment has its first end mark in the end, or has none and takes all. -/
theorem commentBody_describes (cs : List Char) :
    ((commentBody cs).kind = .comment ∧ ∃ body, (commentBody cs).taken = body ++ ['*', '/'] ∧
        ¬['*', '/'] <:+: body ++ ['*']) ∨
      ((commentBody cs).kind = .unclosedComment ∧ ¬['*', '/'] <:+: (commentBody cs).taken ∧
        (commentBody cs).rest = []) := by
  fun_induction commentBody cs with
  | case1 => exact .inr ⟨rfl, by simp, rfl⟩
  | case2 cs => exact .inl ⟨rfl, [], rfl, by decide⟩
  | case3 c cs hmark ih =>
    have happ := commentBody_append cs
    -- what is taken starts like the characters that it is taken from
    have hnext : ∀ ds, ds <+: cs → c = '*' → ds.head? ≠ some '/' := by
      rintro ds hds rfl hhead
      have hcs := head?_of_isPrefix hds '/' hhead
      obtain ⟨es, rfl⟩ : ∃ es, cs = '/' :: es := by cases cs <;> simp_all
      exact hmark es rfl rfl
    rcases ih with ⟨hk, body, htaken, hbody⟩ | ⟨hk, htaken, hrest⟩
    · refine .inl ⟨hk, c :: body, by rw [Scan.cons_taken, htaken, List.cons_append], ?_⟩
      rw [htaken] at happ
      exact not_mark_cons (hnext _ ⟨'/' :: (commentBody cs).rest, by simpa using happ⟩) hbody
    · refine .inr ⟨hk, not_mark_cons (hnext _ ⟨_, happ⟩) htaken, hrest⟩

/-- The inside of a string has the first of its quotes that is not escaped in the end, or has none
and takes all. -/
theorem stringBody_describes {quote : Char} (hquote : isQuote quote) (cs : List Char) :
    ((stringBody quote cs).kind = .string ∧ ∃ body, (stringBody quote cs).taken = body ++ [quote] ∧
        Avoids (·.head? = some quote) body [] ∧ ¬Escaped body body.length) ∨
      ((stringBody quote cs).kind = .unclosedString ∧
        Avoids (·.head? = some quote) (stringBody quote cs).taken [] ∧
        (stringBody quote cs).rest = []) := by
  have hback : quote ≠ '\\' := by
    rintro rfl
    exact absurd hquote (by decide)
  fun_induction stringBody quote cs with
  | case1 => exact .inr ⟨rfl, avoids_nil, rfl⟩
  | case2 => exact .inr ⟨rfl, avoids_backslash.2 (by simp [hback.symm]), rfl⟩
  | case3 c cs ih =>
    rcases ih with ⟨hk, body, htaken, hbody, hend⟩ | ⟨hk, htaken, hrest⟩
    · refine .inl ⟨hk, '\\' :: c :: body, ?_, avoids_escape.2 ⟨by simp [hback.symm], hbody⟩, ?_⟩
      · rw [Scan.cons_taken, Scan.cons_taken, htaken, List.cons_append, List.cons_append]
      · exact fun he => hend (escaped_add_two.1 he)
    · exact .inr ⟨hk, avoids_escape.2 ⟨by simp [hback.symm], htaken⟩, hrest⟩
  | case4 c cs hlast hescape hc =>
    obtain rfl : c = quote := by simpa using hc
    exact .inl ⟨rfl, [], rfl, avoids_nil, not_escaped_zero _⟩
  | case5 c cs hlast hescape hc ih =>
    have hne : c ≠ '\\' := ne_backslash hlast hescape
    have hhead : ¬c = quote := by simpa using hc
    rcases ih with ⟨hk, body, htaken, hbody, hend⟩ | ⟨hk, htaken, hrest⟩
    · refine .inl ⟨hk, c :: body, by rw [Scan.cons_taken, htaken, List.cons_append],
        (avoids_cons hne).2 ⟨by simpa using hhead, hbody⟩, ?_⟩
      exact fun he => hend ((escaped_succ hne).1 he)
    · exact .inr ⟨hk, (avoids_cons hne).2 ⟨by simpa using hhead, htaken⟩, hrest⟩

/-- A run of text avoids all that ends text, and no backslash takes along what is behind it. -/
theorem textRun_describes (cs : List Char) :
    Avoids EndsText (textRun cs).taken (textRun cs).rest ∧
      ((textRun cs).rest ≠ [] → ¬Escaped (textRun cs).taken (textRun cs).taken.length) := by
  have hescape : ∀ ds, ¬EndsText ('\\' :: ds) := by
    have hback : breaksText '\\' = false := by decide
    simp [EndsText, hback]
  fun_induction textRun cs with
  | case1 => exact ⟨avoids_nil, fun _ => not_escaped_zero _⟩
  | case2 => exact ⟨avoids_backslash.2 (hescape _), by simp⟩
  | case3 c cs ih =>
    obtain ⟨havoids, hend⟩ := ih
    exact ⟨avoids_escape.2 ⟨hescape _, havoids⟩, fun hne he => hend hne (escaped_add_two.1 he)⟩
  | case4 => exact ⟨avoids_nil, fun _ => not_escaped_zero _⟩
  | case5 => exact ⟨avoids_nil, fun _ => not_escaped_zero _⟩
  | case6 c cs hlast hescaped hcomment hc ih =>
    obtain ⟨havoids, hend⟩ := ih
    have hne : c ≠ '\\' := ne_backslash hlast hescaped
    refine ⟨(avoids_cons hne).2 ⟨?_, havoids⟩, fun hr he => hend hr ((escaped_succ hne).1 he)⟩
    rw [Scan.cons_rest, textRun_append]
    rintro (hbreaks | ⟨rfl, hstar⟩)
    · exact hc hbreaks
    · obtain ⟨es, rfl⟩ : ∃ es, cs = '*' :: es := by cases cs <;> simp_all
      exact hcomment es rfl rfl

/-- **What is cut off the front of a text is described by its kind.** -/
theorem describes_scan (c : Char) (cs : List Char) :
    (scan c cs).kind.Describes (scan c cs).taken (scan c cs).rest := by
  by_cases hb : isBlank c
  · rw [scan_blank hb]
    have hnext := List.head?_dropWhile_not isBlank cs
    refine ⟨List.forall_mem_cons.2 ⟨hb, fun d hd => List.mem_takeWhile_imp hd⟩, fun d hd => ?_⟩
    rw [Option.mem_def.1 hd] at hnext
    simpa using hnext
  by_cases hq : isQuote c
  · rw [scan_quote hq, Scan.cons_kind, Scan.cons_taken, Scan.cons_rest]
    rcases stringBody_describes hq cs with ⟨hk, body, htaken, hbody⟩ | ⟨hk, hbody, hrest⟩
    · rw [hk, htaken]
      exact ⟨c, body, hq, rfl, hbody⟩
    · rw [hk]
      exact ⟨⟨c, _, hq, rfl, hbody⟩, hrest⟩
  cases hk : TokenKind.ofDelimiter? c with
  | some k =>
    rw [scan_delimiter hk]
    have hd := TokenKind.delimiter?_eq_some hk
    cases k with
    | text | space | string | unclosedString | comment | unclosedComment | eof => cases hd
    | _ => exact ⟨c, hd, rfl⟩
  | none =>
    by_cases hmark : c = '/' ∧ cs.head? = some '*'
    · obtain ⟨rfl, hstar⟩ := hmark
      obtain ⟨es, rfl⟩ : ∃ es, cs = '*' :: es := by cases cs <;> simp_all
      change (commentBody es).kind.Describes ('/' :: '*' :: (commentBody es).taken) _
      rcases commentBody_describes es with ⟨hk, body, htaken, hbody⟩ | ⟨hk, hbody, hrest⟩
      · rw [hk, htaken]
        exact ⟨body, rfl, hbody⟩
      · rw [hk]
        exact ⟨⟨_, rfl, hbody⟩, hrest⟩
    · rw [scan_text (by simp [breaksText, hb, hq, hk]) fun hc hstar => hmark ⟨hc, hstar⟩,
        textRun_kind]
      obtain ⟨havoids, hend⟩ := textRun_describes (c :: cs)
      exact ⟨havoids, endsText_rest_textRun _, hend⟩

end Lexer

/-! ### Tokens -/

namespace Token

/-- The token is a word of its kind in front of the tokens `vs`; what is not closed is the last
token. -/
structure Described (vs : List Token) (t : Token) : Prop where
  nonempty : t.text ≠ ""
  describes : t.kind.Describes t.text.toList (join vs).toList
  last : t.kind = .unclosedString ∨ t.kind = .unclosedComment → vs = []

variable {p : Nat} {t : Token} {ts vs : List Token}

/-- The first token is what is cut off the front of the text. -/
theorem Lexed.exists_scan (h : Lexed p (t :: vs)) :
    ∃ c cs, t.kind = (Lexer.scan c cs).kind ∧ t.text.toList = (Lexer.scan c cs).taken ∧
      (join vs).toList = (Lexer.scan c cs).rest := by
  unfold Lexed tokenize at h
  generalize (join (t :: vs)).toList = cs at h
  cases cs with
  | nil =>
    rw [lexemes] at h
    cases h
  | cons c cs =>
    rw [lexemes, place, List.cons.injEq] at h
    obtain ⟨rfl, rfl⟩ := h
    refine ⟨c, cs, rfl, String.toList_ofList, ?_⟩
    rw [toList_join_place, Lexeme.chars_lexemes]

theorem Lexed.text_ne_empty (h : Lexed p (t :: vs)) : t.text ≠ "" := by
  obtain ⟨c, cs, -, htext, -⟩ := h.exists_scan
  rintro hempty
  rw [hempty] at htext
  exact Lexer.scan_taken_ne_nil c cs htext.symm

theorem Lexed.described (h : Lexed p (t :: vs)) : t.Described vs := by
  have hdescribes : t.kind.Describes t.text.toList (join vs).toList := by
    obtain ⟨c, cs, hkind, htext, hrest⟩ := h.exists_scan
    rw [hkind, htext, hrest]
    exact Lexer.describes_scan c cs
  refine ⟨h.text_ne_empty, hdescribes, fun hk => ?_⟩
  have hrest : (join vs).toList = [] := by
    rcases hk with hk | hk
    · rw [hk] at hdescribes
      exact hdescribes.2
    · rw [hk] at hdescribes
      exact hdescribes.2
  cases vs with
  | nil => rfl
  | cons u vs =>
    rw [join, String.toList_append, List.append_eq_nil_iff, String.toList_eq_nil_iff] at hrest
    exact absurd hrest.1 h.tail.text_ne_empty

theorem Described.ne_eof (h : t.Described vs) : t.kind ≠ .eof := by
  intro ht
  have hdescribes := h.describes
  rw [ht] at hdescribes
  exact hdescribes

/-- No token of a text is an end token. -/
theorem Lexed.ne_eof (h : Lexed p ts) : ∀ t ∈ ts, t.kind ≠ .eof := by
  induction ts generalizing p with
  | nil => exact nofun
  | cons t ts ih => exact List.forall_mem_cons.2 ⟨h.described.ne_eof, ih h.tail⟩

/-- Text does not go on after text, nor blanks after blanks. -/
theorem Described.ne_kind {u : Token} (ht : t.Described (u :: vs)) (hu : u.Described vs) :
    ¬(t.kind = .text ∧ u.kind = .text) ∧ ¬(t.kind = .space ∧ u.kind = .space) := by
  have hnext := ht.describes
  have hword := hu.describes
  rw [join, String.toList_append] at hnext
  obtain ⟨c, cs, hc⟩ := List.exists_cons_of_ne_nil fun hnil =>
    hu.nonempty (String.toList_eq_nil_iff.1 hnil)
  rw [hc] at hnext hword
  constructor
  · rintro ⟨htk, huk⟩
    rw [htk] at hnext
    rw [huk] at hword
    -- text ends right there, where text is said to start
    exact hword.1 0 (Nat.succ_pos _) (not_escaped_zero _) hnext.2.1
  · rintro ⟨htk, huk⟩
    rw [htk] at hnext
    rw [huk] at hword
    exact hnext.2 c rfl (hword.1 c (List.mem_cons_self ..))

theorem Lexed.chain (h : Lexed p ts) :
    ts.IsChain fun t u =>
      ¬(t.kind = .text ∧ u.kind = .text) ∧ ¬(t.kind = .space ∧ u.kind = .space) := by
  induction ts generalizing p with
  | nil => exact .nil
  | cons t ts ih =>
    have htail := ih h.tail
    cases ts with
    | nil => exact .singleton t
    | cons u ts => exact List.isChain_cons_cons.2 ⟨h.described.ne_kind h.tail.described, htail⟩

end Token

theorem tokenize?_of_fits {source : String} {offset : Nat}
    (h : offset + source.utf8ByteSize < UInt64.size) :
    tokenize? source offset = .ok (tokenize source offset) := by
  have hfits : offsetFits source offset = true := by simp [offsetFits, h]
  rw [tokenize?, if_pos hfits]

/-- **Cutting a text gives the tokens that their kinds describe.**  They cover the text without
gaps, none of them is empty, each is a word of its kind that goes on as long as it can, what is
not closed comes last, and neither two texts nor two runs of blanks stand side by side. -/
theorem tokenize_described (source : String) (offset : Nat)
    (h : offset + source.utf8ByteSize < UInt64.size) :
    ∃ ts, tokenize? source offset = .ok ts ∧ Token.join ts = source ∧
      Tiles 0 offset (offset + source.utf8ByteSize) (ts.map Token.span) ∧
      (∀ us t vs, ts = us ++ t :: vs →
        t.span = .ofText (offset + (Token.join us).utf8ByteSize) t.text ∧ t.Described vs) ∧
      ts.IsChain fun t u =>
        ¬(t.kind = .text ∧ u.kind = .text) ∧ ¬(t.kind = .space ∧ u.kind = .space) := by
  have hlexed := Token.lexed_tokenize source offset
  have hjoin := join_tokenize source offset
  refine ⟨tokenize source offset, tokenize?_of_fits h, hjoin, ?_, ?_, hlexed.chain⟩
  · refine hlexed.covering.laid.tiles ?_
    rw [Token.extent_eq, hjoin, Nat.add_zero]
  · intro us t vs hts
    rw [hts] at hlexed
    obtain ⟨-, hrest⟩ := Token.lexed_append hlexed
    exact ⟨hrest.covering.head_span, hrest.described⟩

/-- A comment start that is none because a backslash takes its slash along, a lone slash, and a
string that ends in an escape and is never closed. -/
theorem tokenize_described_escapes :
    3 + "\\/*a/ \"b\\".utf8ByteSize < UInt64.size ∧
      ∃ ts, tokenize? "\\/*a/ \"b\\" 3 = .ok ts ∧ Token.join ts = "\\/*a/ \"b\\" ∧
        Tiles 0 3 (3 + "\\/*a/ \"b\\".utf8ByteSize) (ts.map Token.span) ∧
        (∀ us t vs, ts = us ++ t :: vs →
          t.span = .ofText (3 + (Token.join us).utf8ByteSize) t.text ∧ t.Described vs) ∧
        ts.IsChain fun t u =>
          ¬(t.kind = .text ∧ u.kind = .text) ∧ ¬(t.kind = .space ∧ u.kind = .space) :=
  ⟨by decide, tokenize_described _ 3 (by decide)⟩

end Selectors
