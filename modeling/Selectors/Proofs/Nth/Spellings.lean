import Selectors.Proofs.Canonical.Parse
import Selectors.Proofs.Nth.Progress

/-!
# Spellings of expressions

A formula of the style sheet language may be spelled in many ways: blanks and comments may stand
around the sign between its step and its offset, and around the whole.  The tokens differ from
spelling to spelling: `2n-3` is one text, `2n- 3` two, and `2n+3` a text, a plus and a text.  The
parts that are read do not, but that a sign is a part of its own when it does not touch the offset.

* `NthSpelling`: the spellings of a formula, with its parts.
* `NthArgument`: what may stand between the parentheses.
* `parse_nthArgument`: every spelling is read as its parts, and no problem is found.
-/

namespace Selectors

open Lexer NthForm NthProgress

/-! ### The grammar -/

/-- The spellings of a formula, with the parts that they spell. -/
inductive NthSpelling : List Char → List NthWord → Prop where
  | keyword {k : List Char} (hk : SpellsKeyword k) :
    NthSpelling k [{ role := .step, text := String.ofList k }]
  | integer {b : List Char} (hb : SpellsInteger Char.isDigit b) :
    NthSpelling b [{ role := .offset, text := String.ofList b }]
  | step {a : List Char} (ha : SpellsStep Char.isDigit a) :
    NthSpelling a [{ role := .step, text := String.ofList a }]
  /-- The sign touches the offset. -/
  | signed {a f sign b : List Char} (ha : SpellsStep Char.isDigit a) (hf : IsFiller f)
    (hsign : SpellsSign sign) (hne : b ≠ []) (hb : ∀ c ∈ b, c.isDigit) :
    NthSpelling (a ++ (f ++ (sign ++ b)))
      [{ role := .step, text := String.ofList a },
        { role := .offset, text := String.ofList (sign ++ b) }]
  /-- The sign stands alone. -/
  | apart {a f sign g b : List Char} (ha : SpellsStep Char.isDigit a) (hf : IsFiller f)
    (hsign : SpellsSign sign) (hg : IsFiller g) (hgne : g ≠ []) (hne : b ≠ [])
    (hb : ∀ c ∈ b, c.isDigit) :
    NthSpelling (a ++ (f ++ (sign ++ (g ++ b))))
      [{ role := .step, text := String.ofList a },
        { role := .dash, text := String.ofList sign },
        { role := .offset, text := String.ofList b }]

/-- A formula with fillers around it, and an `of` that does not touch it. -/
inductive NthArgument : List Char → List NthWord → Prop where
  | formula {f e g : List Char} {ws : List NthWord} (hf : IsFiller f) (he : NthSpelling e ws)
    (hg : IsFiller g) : NthArgument (f ++ (e ++ g)) ws
  | of {f e g h : List Char} {ws : List NthWord} (hf : IsFiller f) (he : NthSpelling e ws)
    (hg : IsFiller g) (hne : g ≠ []) (hh : IsFiller h) :
    NthArgument (f ++ (e ++ (g ++ ("of".toList ++ h)))) (ws ++ [{ role := .of, text := "of" }])

/-! ### Characters of names -/

/-- A character that may stand in a name. -/
def IsNameChar (c : Char) : Prop := breaksText c = false ∧ c ≠ '\\' ∧ c ≠ '/'

instance (c : Char) : Decidable (IsNameChar c) :=
  inferInstanceAs (Decidable (breaksText c = false ∧ c ≠ '\\' ∧ c ≠ '/'))

variable {c : Char} {a b e f rest sign text : List Char} {ws : List NthWord}

theorem isName_ofList : IsName (String.ofList a) ↔ a ≠ [] ∧ ∀ c ∈ a, IsNameChar c := by
  rw [IsName, String.toList_ofList, ne_eq, ne_eq, ← String.ofList_nil, String.ofList_inj]
  rfl

/-- Digits and capital letters may stand in names. -/
theorem isNameChar_of_range
    (h : 48 ≤ c.toNat ∧ c.toNat ≤ 57 ∨ 65 ≤ c.toNat ∧ c.toNat ≤ 90) : IsNameChar c := by
  have hall : ∀ n < 91, 48 ≤ n ∧ n ≤ 57 ∨ 65 ≤ n ∧ n ≤ 90 → IsNameChar (Char.ofNat n) := by
    decide
  rw [← Char.ofNat_toNat c]
  exact hall c.toNat (by omega) h

theorem isNameChar_of_isDigit (h : c.isDigit) : IsNameChar c := by
  simp only [Char.isDigit, Bool.and_eq_true, decide_eq_true_eq, UInt32.le_iff_toNat_le] at h
  exact isNameChar_of_range (.inl h)

/-- Letter case does not matter. -/
theorem isNameChar_of_toLower (h : IsNameChar c.toLower) : IsNameChar c := by
  by_cases hupper : 65 ≤ c.toNat ∧ c.toNat ≤ 90
  · exact isNameChar_of_range (.inr hupper)
  · have hlower : c.toLower = c := dif_neg hupper
    rwa [hlower] at h

/-- The names of pseudo-classes with an expression are names. -/
theorem isName_of_isNthName {name : String} (h : isNthName name) : IsName name := by
  obtain ⟨n, hn, heq⟩ := List.any_eq_true.1 h
  have hnames : nthNames.all fun n => decide (IsName n) := by decide
  obtain ⟨hne, hchars⟩ : IsName n := of_decide_eq_true (List.all_eq_true.1 hnames n hn)
  have hlower : n.toList = name.toList.map Char.toLower := eq_of_beq heq
  refine ⟨?_, fun c hc => isNameChar_of_toLower (hchars _ ?_)⟩
  · rintro rfl
    exact hne (String.toList_inj.1 hlower)
  · rw [hlower]
    exact List.mem_map_of_mem hc

/-! ### Words -/

/-- A sign and a name are read as one word. -/
theorem isChunk_sign_append (hsign : sign = [] ∨ SpellsSign sign) (hne : a ≠ [])
    (ha : ∀ c ∈ a, IsNameChar c) : IsChunk (sign ++ a) := by
  obtain rfl | rfl | rfl := hsign
  · exact .inl (isName_ofList.2 ⟨hne, ha⟩)
  · exact .inr ⟨a, rfl, isName_ofList.2 ⟨hne, ha⟩⟩
  · refine .inl (isName_ofList.2 ⟨List.cons_ne_nil _ _, List.forall_mem_cons.2 ⟨?_, ha⟩⟩)
    decide

theorem NthForm.SpellsStep.isChunk_append (ha : SpellsStep Char.isDigit a)
    (hb : ∀ c ∈ b, IsNameChar c) : IsChunk (a ++ b) := by
  obtain ⟨sign, ds, n, hsign, hds, hn, rfl⟩ := ha
  rw [List.append_assoc, List.append_assoc]
  refine isChunk_sign_append hsign (by simp) ?_
  simp only [List.forall_mem_append]
  refine ⟨fun c hc => isNameChar_of_isDigit (hds c hc), List.forall_mem_singleton.2 ?_, hb⟩
  obtain rfl | rfl := isN_iff.1 hn <;> decide

theorem NthForm.SpellsInteger.isChunk (hb : SpellsInteger Char.isDigit b) : IsChunk b := by
  obtain ⟨sign, ds, hsign, hne, hds, rfl⟩ := hb
  exact isChunk_sign_append hsign hne fun c hc => isNameChar_of_isDigit (hds c hc)

theorem digits_spellsInteger (hne : b ≠ []) (hb : ∀ c ∈ b, c.isDigit)
    (hsign : sign = [] ∨ SpellsSign sign) : SpellsInteger Char.isDigit (sign ++ b) :=
  ⟨sign, b, hsign, hne, hb, rfl⟩

theorem NthForm.SpellsKeyword.isChunk (hk : SpellsKeyword a) : IsChunk a := by
  have hodd : IsName "odd" := by decide
  have heven : IsName "even" := by decide
  refine .inl (isName_ofList.2 ⟨?_, fun c hc => isNameChar_of_toLower ?_⟩)
  · rintro rfl
    rcases hk with hk | hk <;> cases hk
  · have hlower : c.toLower ∈ a.map Char.toLower := List.mem_map_of_mem hc
    rcases hk with hk | hk <;> rw [hk] at hlower
    · exact hodd.2 _ hlower
    · exact heven.2 _ hlower

/-! ### Formulas -/

theorem NthForm.SpellsSign.head_not_blank (hsign : SpellsSign sign) (rest : List Char) :
    ∀ c ∈ (sign ++ rest).head?, isBlank c = false := by
  obtain rfl | rfl := hsign <;>
    · rintro _ ⟨⟩
      rfl

/-- A step ends before a sign, unless that is the rest of the same text. -/
theorem endsText_sign (hf : IsFiller f) (hsign : SpellsSign sign)
    (hsplit : ¬(f = [] ∧ sign = ['-'])) (rest : List Char) : EndsText (f ++ (sign ++ rest)) := by
  refine hf.endsText fun hnil => ?_
  obtain rfl | rfl := hsign
  · exact .inl rfl
  · exact absurd ⟨hnil, rfl⟩ hsplit

namespace NthProgress

variable {s : NthProgress}

theorem reads_step (hs : s.phase = .step) (ha : SpellsStep Char.isDigit a)
    (hrest : EndsText rest) :
    s.Reads a rest (s.push { role := .step, text := String.ofList a } .dash) := by
  have hchunk := ha.isChunk_append (b := []) nofun
  rw [List.append_nil] at hchunk
  refine reads_chunk hchunk hrest (by simp [hs]) fun d span hd => ?_
  simpa using NthDraft.progress_accept_step (b := []) hd hs ha.decimal span

theorem reads_offset (hs : s.phase = .dash ∨ s.phase = .offset)
    (hb : SpellsInteger Char.isDigit b) (hdash : s.afterDash → isSigned b = false)
    (hrest : EndsText rest) :
    s.Reads b rest (s.push { role := .offset, text := String.ofList b } .of) := by
  refine reads_chunk hb.isChunk hrest (by rcases hs with hs | hs <;> simp [hs]) fun d span hd => ?_
  exact NthDraft.progress_accept_offset hd hs hb.isInteger hdash span

/-- A step and a signed offset, which are one text when a minus touches both. -/
theorem reads_step_offset (hs : s.phase = .step) (hdash : s.afterDash = false)
    (ha : SpellsStep Char.isDigit a) (hf : IsFiller f) (hsign : SpellsSign sign) (hne : b ≠ [])
    (hb : ∀ c ∈ b, c.isDigit) (hrest : EndsText rest) :
    s.Reads (a ++ (f ++ (sign ++ b))) rest
      ((s.push { role := .step, text := String.ofList a } .dash).push
        { role := .offset, text := String.ofList (sign ++ b) } .of) := by
  have hoffset := digits_spellsInteger hne hb (.inr hsign)
  by_cases hsplit : f = [] ∧ sign = ['-']
  · obtain ⟨rfl, rfl⟩ := hsplit
    have hsigned : isSignedInteger ('-' :: b) := isSignedInteger_iff.2 ⟨rfl, hoffset.decimal⟩
    have hchars : ∀ c ∈ '-' :: b, IsNameChar c :=
      List.forall_mem_cons.2 ⟨by decide, fun c hc => isNameChar_of_isDigit (hb c hc)⟩
    refine reads_chunk (ha.isChunk_append hchars) hrest (by simp [hs]) fun d span hd => ?_
    simpa [hne, hsigned] using
      NthDraft.progress_accept_step (b := '-' :: b) hd hs ha.decimal span
  · have hends := endsText_sign hf hsign hsplit (b ++ rest)
    rw [← List.append_assoc sign, ← List.append_assoc f] at hends
    have hunsigned : (s.push { role := .step, text := String.ofList a } .dash).afterDash = false :=
      hdash
    exact (reads_step hs ha hends).append
      ((reads_filler hf (hoffset.isChunk.head_not_blank rest)).append
        (reads_offset (.inl rfl) hoffset (by simp [hunsigned]) hrest))

/-- A step and a sign on its own, which are one text when it is a minus that touches the step. -/
theorem reads_step_sign {g : List Char} (hs : s.phase = .step) (ha : SpellsStep Char.isDigit a)
    (hf : IsFiller f) (hsign : SpellsSign sign) (hg : IsFiller g) (hgne : g ≠ [])
    (rest : List Char) : s.Reads (a ++ (f ++ sign)) (g ++ rest)
      ((s.push { role := .step, text := String.ofList a } .dash).push
        { role := .dash, text := String.ofList sign } .offset) := by
  by_cases hsplit : f = [] ∧ sign = ['-']
  · obtain ⟨rfl, rfl⟩ := hsplit
    have hends : EndsText (g ++ rest) := hg.endsText fun hnil => absurd hnil hgne
    have hchars : ∀ c ∈ ['-'], IsNameChar c := List.forall_mem_singleton.2 (by decide)
    refine reads_chunk (ha.isChunk_append hchars) hends (by simp [hs]) fun d span hd => ?_
    simpa using NthDraft.progress_accept_step (b := ['-']) hd hs ha.decimal span
  · have hends := endsText_sign hf hsign hsplit (g ++ rest)
    rw [← List.append_assoc f] at hends
    refine (reads_step hs ha hends).append
      ((reads_filler hf (hsign.head_not_blank (g ++ rest))).append ?_)
    refine reads_sign hsign hg hgne nofun fun d span hd => ?_
    exact NthDraft.progress_accept_sign hd rfl hsign span

end NthProgress

/-- **A formula is read as its parts, however it is spelled.** -/
theorem NthSpelling.reads (h : NthSpelling e ws) (hrest : EndsText rest) :
    ∃ s : NthProgress, s.words = ws ∧ (s.phase = .dash ∨ s.phase = .of) ∧
      NthProgress.Reads {} e rest s := by
  cases h with
  | keyword hk =>
    refine ⟨⟨_, .of, false⟩, rfl, .inr rfl, reads_chunk hk.isChunk hrest nofun fun d span hd => ?_⟩
    exact NthDraft.progress_accept_keyword hd rfl hk span
  | integer hb =>
    refine ⟨⟨_, .of, false⟩, rfl, .inr rfl, reads_chunk hb.isChunk hrest nofun fun d span hd => ?_⟩
    exact NthDraft.progress_accept_integer hd rfl hb.isInteger span
  | step ha => exact ⟨_, rfl, .inl rfl, reads_step rfl ha hrest⟩
  | signed ha hf hsign hne hb =>
    exact ⟨_, rfl, .inr rfl, reads_step_offset rfl rfl ha hf hsign hne hb hrest⟩
  | @apart a f sign g b ha hf hsign hg hgne hne hb =>
    have hoffset := digits_spellsInteger hne hb (.inl rfl)
    have hdigits : ∀ c ∈ b, isDecimalDigit c := fun c hc => isDecimalDigit_of_isDigit (hb c hc)
    have hunsigned : isSigned b = false := by
      simpa using not_isSigned_of_digits (b := []) hne hdigits
    refine ⟨⟨_, .of, true⟩, rfl, .inr rfl, ?_⟩
    have hfront := reads_step_sign (s := {}) rfl ha hf hsign hg hgne (b ++ rest)
    rw [← List.append_assoc g] at hfront
    have hall := hfront.append ((reads_filler hg (hoffset.isChunk.head_not_blank rest)).append
      (reads_offset (.inr rfl) hoffset (fun _ => hunsigned) hrest))
    simp only [List.append_assoc] at hall
    exact hall

theorem NthSpelling.head_not_blank (h : NthSpelling e ws) (rest : List Char) :
    ∀ c ∈ (e ++ rest).head?, isBlank c = false := by
  have hstep {a : List Char} (ha : SpellsStep Char.isDigit a) (rest : List Char) :
      ∀ c ∈ (a ++ rest).head?, isBlank c = false := by
    have hchunk := ha.isChunk_append (b := []) nofun
    rw [List.append_nil] at hchunk
    exact hchunk.head_not_blank rest
  cases h with
  | keyword hk => exact hk.isChunk.head_not_blank rest
  | integer hb => exact hb.isChunk.head_not_blank rest
  | step ha => exact hstep ha rest
  | signed ha | apart ha =>
    rw [List.append_assoc]
    exact hstep ha _

/-! ### Arguments -/

/-- **An expression is read up to the parenthesis behind it.** -/
theorem NthArgument.reads (h : NthArgument text ws) (rest : List Char) :
    ∃ s : NthProgress, s.words = ws ∧ NthProgress.Reads {} text (')' :: rest) s := by
  have hclose {g : List Char} (hg : IsFiller g) : EndsText (g ++ ')' :: rest) :=
    hg.endsText fun _ => .inl rfl
  have hfiller {s : NthProgress} {g : List Char} (hg : IsFiller g) : s.Reads g (')' :: rest) s :=
    reads_filler hg fun c hc => by
      obtain rfl := Option.some.inj hc
      rfl
  cases h with
  | @formula f e g ws hf he hg =>
    obtain ⟨s, hwords, -, hreads⟩ := he.reads (hclose hg)
    have hstart := he.head_not_blank (g ++ ')' :: rest)
    rw [← List.append_assoc] at hstart
    exact ⟨s, hwords, (reads_filler hf hstart).append (hreads.append (hfiller hg))⟩
  | @of f e g h ws hf he hg hne hh =>
    have hends : EndsText (g ++ ("of".toList ++ h) ++ ')' :: rest) := by
      rw [List.append_assoc]
      exact hg.endsText fun hnil => absurd hnil hne
    obtain ⟨s, rfl, hphase, hreads⟩ := he.reads hends
    have hof : s.Reads ("of".toList ++ h) (')' :: rest)
        (s.push { role := .of, text := "of" } .selector) := by
      refine NthProgress.Reads.append (reads_chunk (.inl (by decide)) (hclose hh)
        (by rcases hphase with hp | hp <;> simp [hp]) fun d span hd => ?_) (hfiller hh)
      exact NthDraft.progress_accept_of hd hphase span
    have hword : ∀ c ∈ ("of".toList ++ h ++ ')' :: rest).head?, isBlank c = false := by
      rintro _ ⟨⟩
      rfl
    have hstart := he.head_not_blank (g ++ ("of".toList ++ h) ++ ')' :: rest)
    rw [← List.append_assoc] at hstart
    exact ⟨_, rfl, (reads_filler hf hstart).append
      (hreads.append ((reads_filler hg hword).append hof))⟩

/-! ### Arguments in a text -/

theorem NthSpelling.words_ne_nil (h : NthSpelling e ws) : ws ≠ [] := by cases h <;> nofun

theorem NthArgument.words_ne_nil (h : NthArgument text ws) : ws ≠ [] := by
  cases h with
  | formula _ he => exact he.words_ne_nil
  | of => simp

theorem NthSpelling.clean (h : NthSpelling e ws) : ∀ w ∈ ws, w.invalid = false := by
  cases h <;> simp

/-- No part that is spelled right is flagged. -/
theorem NthArgument.clean (h : NthArgument text ws) : ∀ w ∈ ws, w.invalid = false := by
  cases h with
  | formula _ he => exact he.clean
  | of _ he => exact List.forall_mem_append.2 ⟨he.clean, by simp⟩

/-- A parenthesis ends an expression. -/
theorem NthDraft.read_closeParen {t : Token} (hk : t.kind = .closeParen) (d : NthDraft)
    (ts : List Token) : d.read (t :: ts) = ⟨d, t :: ts, []⟩ := by
  rw [NthDraft.read.eq_def]
  simp only [hk]

theorem NthDraft.items_ne_nil {d : NthDraft} (h : d.words ≠ []) : d.items ≠ [] := by
  intro hnil
  simp [NthDraft.words, NthDraft.finish, Nth.words, hnil] at h

/-- Parentheses with nothing but an expression in them become the argument of the pseudo-class
before them. -/
theorem Leads.expression (stop : Nat) {depth : Nat} (b : Builder) (d : Draft) (span : Span)
    (comments : List Comment) {t c : Token} {ts us : List Token} {name : String} {x : NthDraft}
    {es : List Event} (hk : t.kind = .openParen) (hdepth : depth < maxDepth)
    (hname : isNthName name) (hread : (NthDraft.start t.span.stop).read ts = ⟨x, c :: us, es⟩)
    (hwords : x.words ≠ []) (hc : c.kind = .closeParen) :
    Leads stop depth (b.set (d.push (.functional span (.colon comments) name none))) (t :: ts)
      (b.set (d.push (.functional ⟨span.start, c.span.stop⟩ (.colon comments) name
        (some [⟨⟨t.span.stop, c.span.start⟩, "", "", [.nth x.finish]⟩])))) us := by
  intro r hr
  have htakes : (d.push (.functional span (.colon comments) name none)).takesNth ts := by
    have hhead : ts.head?.map (·.kind) ≠ some .closeParen := by
      -- an expression that ended at once would have no words
      intro hclose
      cases ts with
      | nil => cases hclose
      | cons u us' =>
        rw [NthDraft.read_closeParen (Option.some.inj hclose)] at hread
        cases hread
        exact hwords rfl
    simpa [Draft.takesNth, Draft.push, hname] using hhead
  have hnodes : x.finish.nodes ≠ [] := by
    simpa [NthDraft.finish] using NthDraft.items_ne_nil hwords
  have hopen : (d.push (.functional span (.colon comments) name none)).openParens t ts =
      ⟨{ draft := some { start := t.span.stop, nodes := [.nth x.finish] } }, c :: us,
        es ++ [.nthRead x.finish.nodes.length x.phase]⟩ := by
    simp only [Draft.openParens, if_pos htakes, hread, hnodes, false_and, if_false]
  exact ⟨_, .parens hk hdepth hopen.symm (.close hc (Nat.succ_pos depth)) rfl hr⟩

/-- An item in which no part is flagged has no problem. -/
theorem Nth.every_clean {n : Nth} (h : ∀ w ∈ n.words, w.invalid = false) :
    (NodeRef.node (.nth n)).Every NodeRef.Clean := by
  refine NodeRef.every_nth.2 ⟨rfl, fun m hm => ?_⟩
  cases m with
  | comment c => rfl
  | part role p =>
    have hclean := h ⟨role, p.text, p.invalid⟩ (List.mem_filterMap.2 ⟨_, hm, rfl⟩)
    simp only at hclean
    simp [NodeRef.Clean, NodeRef.diagnostic?, hclean]

/-- An argument is read as an expression and nothing else. -/
theorem NthArgument.exists_parse_eq {name text : String} (hname : isNthName name)
    (h : NthArgument text.toList ws) (offset : Nat) :
    ∃ span span' span'' d, parse (":" ++ name ++ "(" ++ text ++ ")") offset =
        [⟨span, "", "", [.functional span' (.colon []) name
          (some [⟨span'', "", "", [.nth (NthDraft.finish d)]⟩])]⟩] ∧
      d.words = ws := by
  generalize hsource : ":" ++ name ++ "(" ++ text ++ ")" = source
  generalize hstop : offset + source.utf8ByteSize = stop
  have hchars : source.toList = ':' :: (name.toList ++ '(' :: (text.toList ++ [')'])) := by
    simp [← hsource]
  -- the pseudo-class up to its name
  obtain ⟨t, q, hcut, hk, -⟩ := cut_delimiter offset
    (name.toList ++ '(' :: (text.toList ++ [')'])) (rfl : TokenKind.ofDelimiter? ':' = some .colon)
  have hopen : Breaks ('(' :: (text.toList ++ [')'])) := breaks_cons rfl
  have hfits : (Sigil.colon []).Fits name := ⟨rfl, isName_of_isNthName hname⟩
  obtain ⟨span, q, hmark⟩ := leads_mark stop 0 offset {} (Builder.current {} t) hfits hopen
  -- the expression in parentheses
  obtain ⟨u, q, hcut', hu, -⟩ :=
    cut_delimiter q (text.toList ++ [')']) (rfl : TokenKind.ofDelimiter? '(' = some .openParen)
  obtain ⟨s, hwords, hreads⟩ := h.reads []
  obtain ⟨x, q, ⟨es, hread⟩, hx⟩ := hreads (.start u.span.stop) q rfl
  obtain ⟨c, q, hcut'', hc, -⟩ :=
    cut_delimiter q [] (rfl : TokenKind.ofDelimiter? ')' = some .closeParen)
  rw [hcut'', NthDraft.read_closeParen hc] at hread
  have hxwords : x.words = ws := (congrArg NthProgress.words hx).trans hwords
  have hexpression := Leads.expression stop {} (Builder.current {} t) span [] hu (by decide : 0 < _)
    hname hread (hxwords ▸ h.words_ne_nil) hc
  -- the whole is what the reader reads
  have hsplit : ((Sigil.colon []).opening ++ name ++ (Sigil.colon []).closing).toList ++
      '(' :: (text.toList ++ [')']) = source.toList := by
    simp [hchars, Sigil.opening, Sigil.closing, Comment.printAll]
  rw [hsplit, hchars, hcut, hcut'] at hmark
  rw [cut_nil] at hexpression
  obtain ⟨fs, hdone⟩ :=
    ((Leads.start (by simp [hk])).trans (hmark.trans hexpression)) _ .done
  refine ⟨⟨t.span.start, stop⟩, ⟨span.start, c.span.stop⟩, ⟨u.span.stop, c.span.start⟩, x, ?_,
    hxwords⟩
  have hparse := congrArg (fun r => r.builder.finish stop) hdone.eq_readList
  rw [← hcut, ← hchars, ← hstop] at hparse
  rw [← hstop]
  exact hparse.symm

/-- Nothing is wrong with a pseudo-class whose argument is an expression without a flag. -/
theorem diagnostics_expression {span span' span'' : Span} {name : String} {n : Nth}
    (h : ∀ w ∈ n.words, w.invalid = false) :
    diagnostics [.selector ⟨span, "", "", [.functional span' (.colon []) name
      (some [⟨span'', "", "", [.nth n]⟩])]⟩] = [] := by
  refine diagnostics_eq_nil.2 fun r hr => ?_
  obtain ⟨x, hx, hr⟩ := NodeRef.mem_preorder.1 hr
  obtain rfl := List.mem_singleton.1 hx
  have hevery : (NodeRef.selector ⟨span, "", "", [.functional span' (.colon []) name
      (some [⟨span'', "", "", [.nth n]⟩])]⟩).Every NodeRef.Clean := by
    refine NodeRef.every_selector.2 ⟨rfl, List.forall_mem_singleton.2 ?_⟩
    refine NodeRef.every_functional.2 ⟨rfl, List.forall_mem_singleton.2 ?_⟩
    exact NodeRef.every_selector.2 ⟨rfl, List.forall_mem_singleton.2 (Nth.every_clean h)⟩
  exact hevery r hr

/-- **Every spelling of an expression is read as its parts, and no problem is found.**  Blanks and
comments may stand wherever the style sheet language has them.  Of a program whose tokens have
lengths of 32 bits, this speaks if the text is shorter than 4 GiB. -/
theorem parse_nthArgument {name text : String} {ws : List NthWord} (hname : isNthName name)
    (h : NthArgument text.toList ws) (offset : Nat) :
    ∃ span span' span'' n,
      parse (":" ++ name ++ "(" ++ text ++ ")") offset =
          [⟨span, "", "", [.functional span' (.colon []) name
            (some [⟨span'', "", "", [.nth n]⟩])]⟩] ∧
        n.words = ws ∧ (∀ w ∈ n.words, w.invalid = false) ∧
        diagnostics ((parse (":" ++ name ++ "(" ++ text ++ ")") offset).map .selector) = [] := by
  obtain ⟨span, span', span'', d, hparse, hwords⟩ := h.exists_parse_eq hname offset
  have hclean : ∀ w ∈ d.finish.words, w.invalid = false := by
    rw [show d.finish.words = ws from hwords]
    exact h.clean
  refine ⟨span, span', span'', d.finish, hparse, hwords, hclean, ?_⟩
  rw [hparse]
  exact diagnostics_expression hclean

/-- A sign that the step is glued to, in `:NTH-Child( /*a*/2N- /**/3\tof/*b*/)`. -/
theorem parse_nthArgument_glued :
    ∃ span span' span'' n,
      parse (":" ++ "NTH-Child" ++ "(" ++ " /*a*/2N- /**/3\tof/*b*/" ++ ")") 0 =
          [⟨span, "", "", [.functional span' (.colon []) "NTH-Child"
            (some [⟨span'', "", "", [.nth n]⟩])]⟩] ∧
        n.words = [{ role := .step, text := "2N" }, { role := .dash, text := "-" },
          { role := .offset, text := "3" }, { role := .of, text := "of" }] ∧
        (∀ w ∈ n.words, w.invalid = false) ∧
        diagnostics ((parse (":" ++ "NTH-Child" ++ "(" ++ " /*a*/2N- /**/3\tof/*b*/" ++ ")")
          0).map .selector) = [] := by
  have hcomment {body : List Char} (hbody : ¬['*', '/'] <:+: body) :
      IsFiller ('/' :: '*' :: (body ++ ['*', '/'])) := .comment hbody .nil
  have hbefore : IsFiller " /*a*/".toList := .blank rfl (hcomment (by decide : ¬_ <:+: ['a']))
  have hbetween : IsFiller " /**/".toList := .blank rfl (hcomment (by decide : ¬_ <:+: []))
  have hafter : IsFiller "/*b*/".toList := hcomment (by decide : ¬_ <:+: ['b'])
  have hstep : SpellsStep Char.isDigit "2N".toList :=
    ⟨[], ['2'], 'N', .inl rfl, List.forall_mem_singleton.2 rfl, rfl, rfl⟩
  have hformula := NthSpelling.apart hstep .nil (.inr rfl : SpellsSign "-".toList) hbetween
    (by decide) (by decide : "3".toList ≠ []) (List.forall_mem_singleton.2 rfl)
  have hargument : NthArgument " /*a*/2N- /**/3\tof/*b*/".toList _ :=
    .of hbefore hformula (.blank (c := '\t') rfl .nil) (by decide) hafter
  exact parse_nthArgument (by decide) hargument 0

end Selectors
