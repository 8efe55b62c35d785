import Selectors.Proofs.Nth.Fillers
import Selectors.Proofs.Nth.Words
import Selectors.Proofs.Slices.Locality

/-!
# Reading an expression piece by piece

What an expression becomes depends on the text only by its words: fillers between them change
nothing but blanks and places.  `NthProgress` is what the words so far make of an expression, and
`NthProgress.Reads` says that reading a piece of text makes one progress of another, whatever stands
behind the piece.  Pieces are read one after the other (`NthProgress.Reads.append`): a filler
(`reads_filler`), a word (`reads_chunk`) or a sign on its own (`reads_sign`).
-/

namespace Selectors

open Lexer NthForm

/-- The words of an expression being read, and what is expected next. -/
structure NthProgress where
  words : List NthWord := []
  phase : NthPhase := .step
  afterDash : Bool := false
  deriving DecidableEq, Repr

/-- One word more, after which the phase is `p`. -/
def NthProgress.push (s : NthProgress) (w : NthWord) (p : NthPhase) : NthProgress where
  words := s.words ++ [w]
  phase := p
  afterDash := match w.role with
    | .dash => true
    | _ => s.afterDash

namespace NthDraft

/-- What the words so far make of an expression. -/
def progress (d : NthDraft) : NthProgress := ⟨d.words, d.phase, d.afterDash⟩

variable {d d' d'' : NthDraft} {t u : Token} {ts us vs : List Token}

theorem progress_pushWord (d : NthDraft) (w : NthWord) (span : Span) (p : NthPhase) :
    (d.pushWord w span p).progress = d.progress.push w p := by
  rw [progress, words_pushWord]
  rfl

/-! ### Tokens -/

/-- Reading comes from one expression to another over the tokens before `us`. -/
def Leads (d : NthDraft) (ts : List Token) (d' : NthDraft) (us : List Token) : Prop :=
  ∃ es, d.read ts = (d'.read us).after es

namespace Leads

theorem refl (d : NthDraft) (ts : List Token) : d.Leads ts d ts := ⟨[], rfl⟩

theorem trans (h : d.Leads ts d' us) (h' : d'.Leads us d'' vs) : d.Leads ts d'' vs := by
  obtain ⟨es, hes⟩ := h
  obtain ⟨fs, hfs⟩ := h'
  refine ⟨es ++ fs, ?_⟩
  rw [hes, hfs, NthReading.after, NthReading.after, NthReading.after, List.append_assoc]

theorem word (hk : t.kind = .text) (hp : d.phase ≠ .selector) :
    d.Leads (t :: ts) (d.accept t.text t.span).1 ts := by
  refine ⟨(d.accept t.text t.span).2, ?_⟩
  rw [read.eq_def]
  simp only [hk, if_neg hp]

/-- A plus and the text after it are one word. -/
theorem glued (hk : t.kind = .plus) (hu : u.kind = .text) (hp : d.phase ≠ .selector) :
    d.Leads (t :: u :: ts) (d.accept ("+" ++ u.text) ⟨t.span.start, u.span.stop⟩).1 ts := by
  refine ⟨(d.accept ("+" ++ u.text) ⟨t.span.start, u.span.stop⟩).2, ?_⟩
  rw [read.eq_def]
  simp only [hk, if_neg hp, if_pos hu]

theorem plus (hk : t.kind = .plus) (hp : d.phase ≠ .selector)
    (hts : ∀ u ∈ ts.head?, u.kind ≠ .text) : d.Leads (t :: ts) (d.accept t.text t.span).1 ts :=
  ⟨_, read_plus hk hp hts⟩

/-- Blanks and comments change no word. -/
theorem fillers {fs : List Token} (hfs : ∀ t ∈ fs, t.kind = .space ∨ t.kind = .comment)
    (d : NthDraft) (ts : List Token) :
    ∃ d', d.Leads (fs ++ ts) d' ts ∧ d'.progress = d.progress := by
  induction fs generalizing d with
  | nil => exact ⟨d, refl d ts, rfl⟩
  | cons t fs ih =>
    obtain ⟨ht, hfs⟩ := List.forall_mem_cons.1 hfs
    have hstep : ∃ e, d.Leads (t :: (fs ++ ts)) e (fs ++ ts) ∧ e.progress = d.progress := by
      rcases ht with hk | hk
      · refine ⟨d.pushBlanks t, ⟨[], ?_⟩, by simp [progress]⟩
        rw [read.eq_def]
        simp only [hk]
        rfl
      · refine ⟨d.push (.comment (.ofToken t)), ⟨[], ?_⟩, by simp [progress]⟩
        rw [read.eq_def]
        simp only [hk]
        rfl
    obtain ⟨e, hlead, he⟩ := hstep
    obtain ⟨d', hlead', hd'⟩ := ih hfs e
    exact ⟨d', hlead.trans hlead', hd'.trans he⟩

end Leads

end NthDraft

/-! ### Pieces of text -/

namespace NthProgress

/-- Reading the piece `cs` before `rest` makes one progress of another. -/
def Reads (s : NthProgress) (cs rest : List Char) (s' : NthProgress) : Prop :=
  ∀ (d : NthDraft) (p : Nat), d.progress = s →
    ∃ d' q, d.Leads (cut p (cs ++ rest)) d' (cut q rest) ∧ d'.progress = s'

variable {s s' s'' : NthProgress} {cs ds f rest sign : List Char}

theorem Reads.append (h : s.Reads cs (ds ++ rest) s') (h' : s'.Reads ds rest s'') :
    s.Reads (cs ++ ds) rest s'' := by
  intro d p hd
  obtain ⟨d', q, hlead, hd'⟩ := h d p hd
  obtain ⟨d'', q', hlead', hd''⟩ := h' d' q hd'
  rw [List.append_assoc]
  exact ⟨d'', q', hlead.trans hlead', hd''⟩

/-- A filler changes nothing. -/
theorem reads_filler (hf : IsFiller f) (hrest : ∀ c ∈ rest.head?, isBlank c = false) :
    s.Reads f rest s := by
  intro d p hd
  obtain ⟨fs, q, hcut, hkinds⟩ := cut_filler p hf hrest
  obtain ⟨d', hlead, hd'⟩ := NthDraft.Leads.fillers hkinds d (cut q rest)
  rw [hcut]
  exact ⟨d', q, hlead, hd'.trans hd⟩

/-- The characters are read as one word: a name, or a plus and a name. -/
def IsChunk (cs : List Char) : Prop :=
  IsName (String.ofList cs) ∨ ∃ w, cs = '+' :: w ∧ IsName (String.ofList w)

theorem IsChunk.head_not_blank (h : IsChunk cs) (rest : List Char) :
    ∀ c ∈ (cs ++ rest).head?, isBlank c = false := by
  rcases h with ⟨hne, hcs⟩ | ⟨w, rfl, -⟩
  · obtain ⟨c, cs, rfl⟩ := List.exists_cons_of_ne_nil
      (show cs ≠ [] by rintro rfl; exact hne rfl)
    rintro _ ⟨⟩
    have hbreaks := (hcs c (by simp)).1
    simp only [breaksText, Bool.or_eq_false_iff] at hbreaks
    exact hbreaks.1.1
  · rintro _ ⟨⟩
    rfl

/-- A word is taken as the phase has it. -/
theorem reads_chunk (hcs : IsChunk cs) (hrest : EndsText rest) (hp : s.phase ≠ .selector)
    (haccept : ∀ (d : NthDraft) (span : Span), d.progress = s →
      (d.accept (String.ofList cs) span).1.progress = s') : s.Reads cs rest s' := by
  intro d p hd
  have hphase : d.phase ≠ .selector := by
    rw [← hd] at hp
    exact hp
  rcases hcs with hname | ⟨w, rfl, hname⟩
  · obtain ⟨t, q, hcut, hk, htext⟩ := cut_name p hname (textRun_of_endsText hrest)
    rw [String.toList_ofList] at hcut
    rw [hcut]
    exact ⟨_, q, .word hk hphase, htext ▸ haccept d t.span hd⟩
  · obtain ⟨t, q, hcut, hk, -⟩ :=
      cut_delimiter p (w ++ rest) (rfl : TokenKind.ofDelimiter? '+' = some .plus)
    obtain ⟨u, q', hcut', hu, htext⟩ := cut_name q hname (textRun_of_endsText hrest)
    rw [String.toList_ofList] at hcut'
    rw [List.cons_append, hcut, hcut']
    refine ⟨_, q', .glued hk hu hphase, ?_⟩
    have htext' : "+" ++ u.text = String.ofList ('+' :: w) := by
      rw [htext, ← String.toList_inj]
      simp
    rw [htext']
    exact haccept d _ hd

/-- A sign before a filler is a word of its own. -/
theorem reads_sign (hsign : SpellsSign sign) (hf : IsFiller f) (hne : f ≠ [])
    (hp : s.phase ≠ .selector)
    (haccept : ∀ (d : NthDraft) (span : Span), d.progress = s →
      (d.accept (String.ofList sign) span).1.progress = s') : s.Reads sign (f ++ rest) s' := by
  obtain rfl | rfl := hsign
  · intro d p hd
    have hphase : d.phase ≠ .selector := by
      rw [← hd] at hp
      exact hp
    obtain ⟨t, q, hcut, hk, htext⟩ :=
      cut_delimiter p (f ++ rest) (rfl : TokenKind.ofDelimiter? '+' = some .plus)
    rw [List.singleton_append, hcut]
    exact ⟨_, q, .plus hk hphase (hf.head_ne_text hne q rest), htext ▸ haccept d t.span hd⟩
  · exact reads_chunk (.inl (by decide)) (hf.endsText fun h => absurd h hne) hp haccept

end NthProgress

/-! ### Words in each phase -/

namespace NthDraft

variable {d : NthDraft} {s : NthProgress} {a b cs : List Char} (hd : d.progress = s)

include hd

theorem progress_accept_keyword (hp : s.phase = .step) (hcs : SpellsKeyword cs) (span : Span) :
    (d.accept (String.ofList cs) span).1.progress =
      s.push { role := .step, text := String.ofList cs } .of := by
  subst hd
  have hphase : d.phase = .step := hp
  rw [← progress_pushWord _ _ span]
  simp only [accept, hphase, acceptFirst, String.toList_ofList, hcs.isKeyword, hcs.not_isSigned,
    if_true]
  rfl

theorem progress_accept_integer (hp : s.phase = .step) (hcs : isInteger cs) (span : Span) :
    (d.accept (String.ofList cs) span).1.progress =
      s.push { role := .offset, text := String.ofList cs } .of := by
  subst hd
  have hphase : d.phase = .step := hp
  have hkeyword : isKeyword cs = false := by
    rw [Bool.eq_false_iff]
    intro hk
    rw [not_isInteger_of_isKeyword hk] at hcs
    cases hcs
  rw [← progress_pushWord _ _ span]
  simp only [accept, hphase, acceptFirst, String.toList_ofList, hkeyword, hcs, if_true]
  rfl

/-- A step is cut off after its `n`; it may be followed by a sign or by a signed integer. -/
theorem progress_accept_step (hp : s.phase = .step) (ha : SpellsStep isDecimalDigit a)
    (span : Span) :
    (d.accept (String.ofList (a ++ b)) span).1.progress =
      let s' := s.push { role := .step, text := String.ofList a } .dash
      if b = [] then s'
      else if b = ['-'] then s'.push { role := .dash, text := "-" } .offset
      else if isSignedInteger b then s'.push { role := .offset, text := String.ofList b } .of
      else s.push ⟨.step, String.ofList (a ++ b), true⟩ .dash := by
  subst hd
  have hphase : d.phase = .step := hp
  have hpushed (w : NthWord) (span span' : Span) (p : NthPhase) :
      ((d.pushWord { role := .step, text := String.ofList a } span .dash).pushWord w span'
          p).progress =
        (d.progress.push { role := .step, text := String.ofList a } .dash).push w p := by
    rw [progress_pushWord, progress_pushWord]
  simp only [accept, hphase, acceptFirst, acceptStep?, String.toList_ofList, ha.not_isKeyword b,
    ha.not_isInteger b, ha.splitAtN_append b, isStep_iff.2 ha, Bool.false_eq_true, if_false,
    if_true]
  split_ifs
  · exact progress_pushWord d { role := .step, text := String.ofList a } _ .dash
  · exact hpushed { role := .dash, text := "-" } _ _ _
  · exact hpushed { role := .offset, text := String.ofList b } _ _ _
  · exact progress_pushWord d ⟨.step, String.ofList (a ++ b), true⟩ span .dash

theorem progress_accept_sign (hp : s.phase = .dash) (hcs : SpellsSign cs) (span : Span) :
    (d.accept (String.ofList cs) span).1.progress =
      s.push { role := .dash, text := String.ofList cs } .offset := by
  subst hd
  have hphase : d.phase = .dash := hp
  have htext : String.ofList cs = "+" ∨ String.ofList cs = "-" := by
    obtain rfl | rfl := hcs
    · exact .inl rfl
    · exact .inr rfl
  rw [← progress_pushWord _ _ span]
  simp only [accept, hphase, htext, if_true]
  rfl

/-- After a lone sign, an offset has none of its own. -/
theorem progress_accept_offset (hp : s.phase = .dash ∨ s.phase = .offset) (hcs : isInteger cs)
    (hdash : s.afterDash → isSigned cs = false) (span : Span) :
    (d.accept (String.ofList cs) span).1.progress =
      s.push { role := .offset, text := String.ofList cs } .of := by
  subst hd
  have hphase : d.phase = .dash ∨ d.phase = .offset := hp
  have hsign : ¬(String.ofList cs = "+" ∨ String.ofList cs = "-") := by
    rintro (h | h) <;> rw [← String.toList_inj, String.toList_ofList] at h <;> subst h <;> cases hcs
  have hof : ¬String.ofList cs = "of" := by
    intro h
    rw [← String.toList_inj, String.toList_ofList] at h
    subst h
    exact absurd hcs (by decide)
  have hflag : (!isInteger cs || (d.afterDash && isSigned cs)) = false := by
    cases hlone : d.afterDash with
    | false => simp [hcs]
    | true => simp [hcs, hdash hlone]
  rw [← progress_pushWord _ _ span]
  rcases hphase with hphase | hphase <;>
    simp only [accept, hphase, if_neg hsign, acceptOffset, if_neg hof, String.toList_ofList,
      hflag] <;>
    rfl

theorem progress_accept_of (hp : s.phase = .dash ∨ s.phase = .of) (span : Span) :
    (d.accept "of" span).1.progress = s.push { role := .of, text := "of" } .selector := by
  subst hd
  have hphase : d.phase = .dash ∨ d.phase = .of := hp
  rw [← progress_pushWord _ _ span]
  rcases hphase with hphase | hphase
  · have hsign : ¬("of" = "+" ∨ "of" = "-") := by decide
    simp only [accept, hphase, if_neg hsign, acceptOffset, if_true]
    rfl
  · simp only [accept, hphase]
    rfl

end NthDraft

end Selectors
