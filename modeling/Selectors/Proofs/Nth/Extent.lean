import Selectors.Proofs.Coverage.Nth
import Selectors.Proofs.Nth.Words
import Selectors.Proofs.Slices.Locality

/-!
# How far an expression reaches

An `An+B` expression takes blanks, comments, texts and pluses, until it is complete: then it takes
blanks and comments only.  So it ends at the first token of another kind, or at the first text or
plus after its `of`, and what it takes is printed back.

* `NthDraft.Consumes`: what is said of the tokens that are taken.
* `NthDraft.read_stops`: why reading stops.
* `NthDraft.print_read`: an expression in a text prints what it takes.
* `NthDraft.read_start`: an expression reaches as far as it can, and its parts are in order and
  flagged as they must be.
-/

namespace Selectors

namespace TokenKind

/-- The kinds that make words. -/
def isNthWord : TokenKind → Bool
  | text | plus => true
  | _ => false

/-- The kinds that may stand in an expression. -/
def isNthToken : TokenKind → Bool
  | space | comment => true
  | k => k.isNthWord

theorem isNthWord_iff (k : TokenKind) : k.isNthWord ↔ k ∈ [text, plus] := by cases k <;> decide

theorem isNthToken_iff (k : TokenKind) : k.isNthToken ↔ k ∈ [space, comment, text, plus] := by
  cases k <;> decide

end TokenKind

/-- A text right after a plus, which is one word with it. -/
def Token.Glued (before : List Token) (t : Token) : Prop :=
  t.kind = .text ∧ ∃ u ∈ before.getLast?, u.kind = .plus

theorem Token.Glued.cons {us : List Token} {t : Token} (h : Glued us t) (u : Token) :
    Glued (u :: us) t := by
  obtain ⟨ht, v, hv, hk⟩ := h
  exact ⟨ht, v, by rw [List.getLast?_cons, hv]; rfl, hk⟩

namespace NthDraft

variable {d d' : NthDraft} {t u : Token} {ts taken : List Token}

/-! ### Printing -/

theorem print_start (p : Nat) : (start p).finish.print = "" := by
  simp [start, finish, Nth.print, NthNode.printAll]

theorem print_push (d : NthDraft) (n : NthNode) :
    (d.push n).finish.print = d.finish.print ++ n.print := by
  simp [push, finish, Nth.print, NthNode.printAll, String.append_assoc]

theorem print_pushBlanks (d : NthDraft) (t : Token) :
    (d.pushBlanks t).finish.print = d.finish.print ++ t.text := by
  unfold pushBlanks
  split
  · rename_i n ns hn
    simp [finish, Nth.print, hn, NthNode.printAll, NthNode.print_appendBlanks, String.append_assoc]
  · rename_i hn
    simp [finish, Nth.print, hn, NthNode.printAll]

theorem print_pushComment (d : NthDraft) (t : Token) :
    (d.push (.comment (.ofToken t))).finish.print = d.finish.print ++ t.text := by
  rw [print_push]
  simp [NthNode.print, Comment.print, Comment.ofToken]

/-- The text that is taken for words is printed. -/
theorem Takes.print {text : String} (h : d.Takes text d') :
    d'.finish.print = d.finish.print ++ text := by
  induction h with
  | @word d w span p next fair =>
    have hprint := print_push d (.part w.role ⟨span, w.text, "", "", w.invalid⟩)
    rw [show NthNode.print (.part w.role ⟨span, w.text, "", "", w.invalid⟩) = w.text by
      simp [NthNode.print]] at hprint
    exact hprint
  | append first second ih ih' => rw [ih', ih, String.append_assoc]

/-! ### What is taken -/

/-- The tokens may stand in an expression; where a word is taken, the expression is not complete
yet; and the tokens are printed. -/
structure Consumes (d : NthDraft) (taken : List Token) (d' : NthDraft) : Prop where
  kinds : ∀ t ∈ taken, t.kind.isNthToken
  incomplete : ∀ us t vs, taken = us ++ t :: vs → t.kind.isNthWord → ¬Token.Glued us t →
    (d.read us).draft.phase ≠ .selector
  print : (∀ t ∈ taken, t.kind = .plus → t.text = "+") →
    d'.finish.print = d.finish.print ++ Token.join taken

theorem consumes_nil (d : NthDraft) : d.Consumes [] d where
  kinds := nofun
  incomplete us t vs h := by simp at h
  print _ := (String.append_empty).symm

/-- A token is taken before others, when reading it comes before reading those. -/
theorem Consumes.cons {e : NthDraft} (h : d.Consumes taken d') (hkind : t.kind.isNthToken)
    (hphase : t.kind.isNthWord → e.phase ≠ .selector)
    (hread : ∀ us, us <+: taken → (e.read (t :: us)).draft = (d.read us).draft)
    (hprint : (t.kind = .plus → t.text = "+") → d.finish.print = e.finish.print ++ t.text) :
    e.Consumes (t :: taken) d' where
  kinds := List.forall_mem_cons.2 ⟨hkind, h.kinds⟩
  incomplete us x vs hsplit hword hglued := by
    cases us with
    | nil =>
      obtain ⟨rfl, -⟩ := List.cons.inj hsplit
      exact hphase hword
    | cons u us =>
      obtain ⟨rfl, rfl⟩ := List.cons.inj hsplit
      rw [hread us (List.prefix_append _ _)]
      exact h.incomplete us x vs rfl hword fun hg => hglued (hg.cons t)
  print hplus := by
    rw [List.forall_mem_cons] at hplus
    rw [h.print hplus.2, hprint hplus.1, Token.join, String.append_assoc]

/-- A plus and the text after it are taken together. -/
theorem Consumes.glued {e : NthDraft} (h : d.Consumes taken d') (ht : t.kind = .plus)
    (hu : u.kind = .text) (hphase : e.phase ≠ .selector)
    (hread : ∀ us, (e.read (t :: u :: us)).draft = (d.read us).draft)
    (hprint : d.finish.print = e.finish.print ++ ("+" ++ u.text)) :
    e.Consumes (t :: u :: taken) d' where
  kinds := by
    simp only [List.forall_mem_cons, ht, hu]
    exact ⟨rfl, rfl, h.kinds⟩
  incomplete us x vs hsplit hword hglued := by
    match us with
    | [] => exact hphase
    | [v] =>
      -- the text is no word of its own
      simp only [List.cons_append, List.nil_append, List.cons.injEq] at hsplit
      obtain ⟨rfl, rfl, -⟩ := hsplit
      exact absurd ⟨hu, t, rfl, ht⟩ hglued
    | v :: w :: us =>
      simp only [List.cons_append, List.cons.injEq] at hsplit
      obtain ⟨rfl, rfl, rfl⟩ := hsplit
      rw [hread us]
      exact h.incomplete us x vs rfl hword fun hg => hglued ((hg.cons u).cons t)
  print hplus := by
    simp only [List.forall_mem_cons] at hplus
    rw [h.print hplus.2.2, hprint, Token.join, Token.join, hplus.1 ht, String.append_assoc,
      String.append_assoc]

/-- Reading takes tokens from the front. -/
theorem read_consumes (h : d.Regular) (ts : List Token) :
    ∃ taken, ts = taken ++ (d.read ts).rest ∧ d.Consumes taken (d.read ts).draft := by
  have hwith {d : NthDraft} (h : d.Regular) (hp : d.phase ≠ .selector) (text : String)
      (span : Span) : (d.accept text span).1.finish.print = d.finish.print ++ text :=
    (accept_takes hp h.afterDash_eq_false text span).print
  fun_induction read d ts with
  | case1 d | case4 d | case6 d | case10 d => exact ⟨[], rfl, d.consumes_nil⟩
  | case2 d t ts hk ih =>
    obtain ⟨taken, hts, hc⟩ := ih (h.pushBlanks t)
    refine ⟨t :: taken, congrArg (t :: ·) hts, hc.cons (by rw [hk]; rfl) ?_ ?_ ?_⟩
    · intro hword
      rw [hk] at hword
      cases hword
    · intro us _
      rw [read.eq_def]
      simp only [hk]
    · exact fun _ => d.print_pushBlanks t
  | case3 d t ts hk ih =>
    obtain ⟨taken, hts, hc⟩ := ih (h.pushComment t)
    refine ⟨t :: taken, congrArg (t :: ·) hts, hc.cons (by rw [hk]; rfl) ?_ ?_ ?_⟩
    · intro hword
      rw [hk] at hword
      cases hword
    · intro us _
      rw [read.eq_def]
      simp only [hk]
    · exact fun _ => d.print_pushComment t
  | case5 d t ts hk hp a ih =>
    obtain ⟨taken, hts, hc⟩ := ih (h.accept hp _ _)
    refine ⟨t :: taken, congrArg (t :: ·) hts, hc.cons (by rw [hk]; rfl) (fun _ => hp) ?_ ?_⟩
    · intro us _
      rw [read.eq_def]
      simp only [hk, if_neg hp, NthReading.after_draft]
      rfl
    · exact fun _ => hwith h hp _ _
  | case7 d t hk hp u us hu a ih =>
    obtain ⟨taken, hts, hc⟩ := ih (h.accept hp _ _)
    refine ⟨t :: u :: taken, congrArg (t :: u :: ·) hts, hc.glued hk hu hp ?_ (hwith h hp _ _)⟩
    intro us
    rw [read.eq_def]
    simp only [hk, if_neg hp, if_pos hu, NthReading.after_draft]
    rfl
  | case8 d t hk hp u us hu a ih =>
    obtain ⟨taken, hts, hc⟩ := ih (h.accept hp _ _)
    refine ⟨t :: taken, congrArg (t :: ·) hts, hc.cons (by rw [hk]; rfl) (fun _ => hp) ?_ ?_⟩
    · intro vs hvs
      rw [read_plus hk hp, NthReading.after_draft]
      -- no text follows in a shorter list either
      intro v hv
      have hprefix : vs <+: u :: us := hvs.trans ⟨_, hts.symm⟩
      obtain rfl : v = u := by
        obtain ⟨ws, hws⟩ := hprefix
        cases vs with
        | nil => cases hv
        | cons w vs =>
          obtain rfl := Option.some.inj hv
          exact (List.cons.inj hws).1
      exact hu
    · exact fun _ => hwith h hp _ _
  | case9 d t hk hp =>
    rename_i a
    refine ⟨[t], rfl, (consumes_nil a.1).cons (by rw [hk]; rfl) (fun _ => hp) ?_ ?_⟩
    · intro us hus
      obtain rfl := List.prefix_nil.1 hus
      rw [read_plus hk hp (by simp), NthReading.after_draft]
    · exact fun _ => hwith h hp _ _

/-- Reading stops at a token that can not stand in an expression, or at a word after the last. -/
theorem read_stops (d : NthDraft) (ts : List Token) : ∀ t ∈ (d.read ts).rest.head?,
    t.kind.isNthToken = false ∨ t.kind.isNthWord ∧ (d.read ts).draft.phase = .selector := by
  fun_induction read d ts with
  | case1 | case9 =>
    intro t ht
    cases ht
  | case2 d t ts hk ih | case3 d t ts hk ih => exact ih
  | case4 d t ts hk hp | case6 d t ts hk hp =>
    rintro _ ⟨⟩
    exact .inr ⟨by rw [hk]; rfl, hp⟩
  | case5 d t ts hk hp a ih => exact ih
  | case7 d t hk hp u us hu a ih | case8 d t hk hp u us hu a ih => exact ih
  | case10 d t ts hspace hcomment htext hplus =>
    rintro _ ⟨⟩
    left
    cases hk : t.kind with
    | space => exact absurd hk hspace
    | comment => exact absurd hk hcomment
    | text => exact absurd hk htext
    | plus => exact absurd hk hplus
    | _ => rfl

/-! ### Whole expressions -/

theorem Regular.selector_iff (h : d.Regular) :
    d.phase = .selector ↔ ∃ w ∈ d.finish.words, w.role = .of :=
  h.path.selector_iff nofun

/-- **An expression in a text prints what it takes.**  Tokens of a text that are pluses read "+". -/
theorem print_read {source : String} {offset : Nat} (hts : ts <:+ tokenize source offset) (p : Nat) :
    ∃ taken, ts = taken ++ ((start p).read ts).rest ∧
      ((start p).read ts).draft.finish.print = Token.join taken := by
  obtain ⟨taken, htaken, hc⟩ := read_consumes (regular_start p) ts
  have hplus : ∀ t ∈ taken, t.kind = .plus → t.text = "+" := by
    intro t ht hk
    have hmem : t ∈ ts := by
      rw [htaken]
      exact List.mem_append_left _ ht
    exact (Token.covering_tokenize source offset).spelled t (hts.subset hmem) '+' (by rw [hk]; rfl)
  have hprint := hc.print hplus
  rw [print_start, String.empty_append] at hprint
  exact ⟨taken, htaken, hprint⟩

/-- **An expression reaches as far as it can, and its parts obey one grammar.**  It takes blanks,
comments, texts and pluses, and of the last two none after its `of`; it stops at the first token
that it may not take, and prints what it took.  Its parts come in order, with blanks only after
them, and a part is flagged if and only if its form asks for it. -/
theorem read_start (p : Nat) (ts : List Token) :
    let r := (start p).read ts
    let nth := r.draft.finish
    (∃ taken, ts = taken ++ r.rest ∧
      (∀ t ∈ taken, t.kind ∈ [.space, .comment, .text, .plus]) ∧
      (∀ us t vs, taken = us ++ t :: vs → t.kind ∈ [.text, .plus] → ¬Token.Glued us t →
        ∀ w ∈ ((start p).read us).draft.finish.words, w.role ≠ .of) ∧
      ((∀ t ∈ taken, t.kind = .plus → t.text = "+") → nth.print = Token.join taken)) ∧
    (∀ t ∈ r.rest.head?, t.kind ∉ [.space, .comment, .text, .plus] ∨
      t.kind ∈ [.text, .plus] ∧ ∃ w ∈ nth.words, w.role = .of) ∧
    (nth.words = [] ∨
      (∃ l, nth.words.map NthWord.role = .step :: l ∧ l.Sublist [.dash, .offset, .of]) ∨
      ∃ l, nth.words.map NthWord.role = .offset :: l ∧ l.Sublist [.of]) ∧
    nth.after = "" ∧ (∀ n ∈ nth.nodes, n.before = "") ∧
    ∀ us w vs, nth.words = us ++ w :: vs →
      (w.invalid ↔ w.role.Flagged (∃ u ∈ us, u.role = .dash) w.text.toList) ∧
        (w.role = .dash → w.text = "+" ∨ w.text = "-") := by
  intro r nth
  have hregular : r.draft.Regular := (regular_start p).read ts
  obtain ⟨taken, hts, hc⟩ := read_consumes (regular_start p) ts
  refine ⟨⟨taken, hts, ?_, ?_, ?_⟩, ?_, hregular.path.roles, rfl, ?_, ?_⟩
  · exact fun t ht => t.kind.isNthToken_iff.1 (hc.kinds t ht)
  · intro us t vs hsplit hkind hglued w hw hrole
    have hopen := hc.incomplete us t vs hsplit (t.kind.isNthWord_iff.2 hkind) hglued
    exact hopen (((regular_start p).read us).selector_iff.2 ⟨w, hw, hrole⟩)
  · intro hplus
    have hprint := hc.print hplus
    rwa [print_start, String.empty_append] at hprint
  · intro t ht
    rw [← TokenKind.isNthToken_iff, ← TokenKind.isNthWord_iff, Bool.not_eq_true,
      ← hregular.selector_iff]
    exact read_stops _ ts t ht
  · intro n hn
    exact hregular.before n (List.mem_reverse.1 hn)
  · intro us w vs hwords
    have hfair := hregular.fair us w vs hwords
    refine ⟨hfair.flag, fun hrole => ?_⟩
    simpa [NthForm.SpellsSign, ← String.toList_inj] using hfair.sign hrole

end NthDraft

end Selectors
