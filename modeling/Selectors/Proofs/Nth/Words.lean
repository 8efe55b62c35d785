import Selectors.Nth.Reader
import Selectors.Proofs.Nth.Forms

/-!
# The words of an expression

A word is a part of an `An+B` expression without its place and the blanks around it.  Reading adds
words one after another, and the phase says which may come next: `NthPhase.Takes` is that step, and
`NthPhase.Path` a run of steps.  A token's text makes one word, or two when it is cut after its `n`
(`NthDraft.Takes`, `NthDraft.accept_takes`).

What reading keeps is `NthDraft.Regular`: the words so far are a path from the first phase to the
present one, each is flagged exactly as its form asks for (`NthWord.Fair`), and no item has blanks
in front.

* `NthPhase.Path.roles`: the order in which parts may come.
* `NthPhase.Path.selector_iff`: an expression is complete when it has its `of`.
* `NthDraft.Regular.read`: reading keeps expressions regular.
-/

namespace Selectors

open NthForm

/-- A part of an expression without its place and the blanks around it. -/
structure NthWord where
  role : NthRole
  text : String
  invalid : Bool := false
  deriving DecidableEq, Repr

/-- When a part is to be flagged; `afterDash` tells whether a sign stands alone before it. -/
def NthRole.Flagged (afterDash : Prop) (text : List Char) : NthRole → Prop
  | step => ¬SpellsKeyword text ∧ ¬SpellsStep isDecimalDigit text
  | dash => False
  | offset => ¬SpellsInteger isDecimalDigit text ∨ isSigned text ∧ afterDash
  | of => text ≠ "of".toList

/-- The word is flagged if and only if it must be, and a lone sign is one. -/
structure NthWord.Fair (w : NthWord) (afterDash : Prop) : Prop where
  flag : w.invalid ↔ w.role.Flagged afterDash w.text.toList
  sign : w.role = .dash → SpellsSign w.text.toList

namespace NthNode

/-- The word that an item is, if it is a part. -/
def word? : NthNode → Option NthWord
  | part role p => some ⟨role, p.text, p.invalid⟩
  | comment _ => none

/-- The blanks in front of an item. -/
def before : NthNode → String
  | part _ p => p.before
  | comment c => c.before

@[simp] theorem word?_appendBlanks (n : NthNode) (t : Token) :
    (n.appendBlanks t).word? = n.word? := by
  cases n <;> rfl

@[simp] theorem before_appendBlanks (n : NthNode) (t : Token) :
    (n.appendBlanks t).before = n.before := by
  cases n <;> rfl

end NthNode

/-- The words of an expression, in order. -/
def Nth.words (n : Nth) : List NthWord := n.nodes.filterMap NthNode.word?

namespace NthPhase

/-! ### Phases -/

/-- A word that may come next, and the phase after it. -/
inductive Takes : NthPhase → NthWord → NthPhase → Prop where
  | keyword {w : NthWord} (hrole : w.role = .step) (hkeyword : isKeyword w.text.toList) :
    Takes step w of
  | step {w : NthWord} (hrole : w.role = .step) (hkeyword : isKeyword w.text.toList = false) :
    Takes step w dash
  | number {w : NthWord} (hrole : w.role = .offset) : Takes step w of
  | dash {w : NthWord} (hrole : w.role = .dash) : Takes dash w offset
  | offset {p : NthPhase} {w : NthWord} (hp : p = .dash ∨ p = .offset) (hrole : w.role = .offset) :
    Takes p w of
  | of {p : NthPhase} {w : NthWord} (hp : p = .dash ∨ p = .offset ∨ p = .of)
    (hrole : w.role = .of) : Takes p w selector

/-- Words that may come one after another, and the phase after them. -/
inductive Path : NthPhase → List NthWord → NthPhase → Prop where
  | nil {p : NthPhase} : Path p [] p
  | cons {p q r : NthPhase} {w : NthWord} {ws : List NthWord} (head : Takes p w q)
    (tail : Path q ws r) : Path p (w :: ws) r

theorem Path.concat {p q r : NthPhase} {ws : List NthWord} {w : NthWord} (h : Path p ws q)
    (hw : Takes q w r) : Path p (ws ++ [w]) r := by
  induction h with
  | nil => exact .cons hw .nil
  | cons head tail ih => exact .cons head (ih hw)

/-- The roles that may follow the first word, in their order. -/
def later : NthPhase → List NthRole
  | dash => [.dash, .offset, .of]
  | offset => [.offset, .of]
  | of => [.of]
  | step | selector => []

/-- A word and what may follow it stand in the order of the phase before. -/
theorem Takes.later_sublist {p q : NthPhase} {w : NthWord} (h : Takes p w q) (hp : p ≠ .step) :
    (w.role :: q.later).Sublist p.later := by
  cases h with
  | keyword | step | number => exact absurd rfl hp
  | dash hrole =>
    rw [hrole]
    decide
  | offset hp hrole =>
    rw [hrole]
    rcases hp with rfl | rfl <;> decide
  | of hp hrole =>
    rw [hrole]
    rcases hp with rfl | rfl | rfl <;> decide

theorem Takes.ne_step {p q : NthPhase} {w : NthWord} (h : Takes p w q) : q ≠ .step := by
  cases h <;> nofun

theorem Path.ne_step {p q : NthPhase} {ws : List NthWord} (h : Path p ws q) (hp : p ≠ .step) :
    q ≠ .step := by
  induction h with
  | nil => exact hp
  | cons head tail ih => exact ih head.ne_step

/-- Once begun, an expression goes on in order. -/
theorem Path.roles_sublist {p q : NthPhase} {ws : List NthWord} (h : Path p ws q)
    (hp : p ≠ .step) : (ws.map NthWord.role).Sublist p.later := by
  induction h with
  | nil => exact List.nil_sublist _
  | cons head tail ih => exact ((ih head.ne_step).cons_cons _).trans (head.later_sublist hp)

/-- **The parts of an expression come in order**: a step, or an offset alone, starts it. -/
theorem Path.roles {q : NthPhase} {ws : List NthWord} (h : Path .step ws q) :
    ws = [] ∨
      (∃ l, ws.map NthWord.role = .step :: l ∧ l.Sublist [.dash, .offset, .of]) ∨
      ∃ l, ws.map NthWord.role = .offset :: l ∧ l.Sublist [.of] := by
  cases h with
  | nil => exact .inl rfl
  | cons head tail =>
    right
    rw [List.map_cons]
    cases head with
    | keyword hrole =>
      have htail := tail.roles_sublist nofun
      exact .inl ⟨_, by rw [hrole], (htail.cons .offset).cons .dash⟩
    | step hrole => exact .inl ⟨_, by rw [hrole], tail.roles_sublist nofun⟩
    | number hrole => exact .inr ⟨_, by rw [hrole], tail.roles_sublist nofun⟩
    | offset hp => simp at hp
    | of hp => simp at hp

/-- **An expression is complete when it has its `of`.** -/
theorem Path.selector_iff {p q : NthPhase} {ws : List NthWord} (h : Path p ws q)
    (hp : p ≠ .selector) : q = .selector ↔ ∃ w ∈ ws, w.role = .of := by
  induction h with
  | nil => simp [hp]
  | @cons p q r w ws head tail ih =>
    rw [List.exists_mem_cons_iff]
    cases head with
    | of _ hrole =>
      cases tail with
      | nil => simp [hrole]
      | cons head => cases head <;> simp_all
    | _ hrole => simp_all

end NthPhase

/-! ### Drafts -/

namespace NthDraft

variable {d : NthDraft}

/-- The words so far. -/
def words (d : NthDraft) : List NthWord := d.finish.words

theorem words_push (d : NthDraft) (n : NthNode) : (d.push n).words = d.words ++ n.word?.toList := by
  cases h : n.word? <;> simp [words, finish, push, Nth.words, List.filterMap_append, h]

@[simp] theorem words_pushBlanks (d : NthDraft) (t : Token) : (d.pushBlanks t).words = d.words := by
  unfold pushBlanks
  split
  · rename_i n ns hn
    simp only [words, finish, Nth.words, hn, List.reverse_cons, List.filterMap_append,
      List.filterMap_cons, NthNode.word?_appendBlanks]
  · rename_i hn
    simp only [words, finish, Nth.words, hn]

@[simp] theorem words_pushComment (d : NthDraft) (c : Comment) :
    (d.push (.comment c)).words = d.words := by
  rw [words_push]
  exact List.append_nil _

@[simp] theorem phase_push (d : NthDraft) (n : NthNode) : (d.push n).phase = d.phase := rfl
@[simp] theorem afterDash_push (d : NthDraft) (n : NthNode) :
    (d.push n).afterDash = d.afterDash := rfl

@[simp] theorem phase_pushBlanks (d : NthDraft) (t : Token) :
    (d.pushBlanks t).phase = d.phase := by
  unfold pushBlanks
  split <;> rfl

@[simp] theorem afterDash_pushBlanks (d : NthDraft) (t : Token) :
    (d.pushBlanks t).afterDash = d.afterDash := by
  unfold pushBlanks
  split <;> rfl

/-- Adds a word, after which the phase is `p`; a lone sign is remembered. -/
def pushWord (d : NthDraft) (w : NthWord) (span : Span) (p : NthPhase) : NthDraft :=
  { d.pushPart w.role w.text span w.invalid with
    phase := p
    afterDash := match w.role with
      | .dash => true
      | _ => d.afterDash }

theorem words_pushWord (d : NthDraft) (w : NthWord) (span : Span) (p : NthPhase) :
    (d.pushWord w span p).words = d.words ++ [w] :=
  words_push d _

/-- What a text adds to an expression: a word that may come next and is flagged as it must be, or
several of them. -/
inductive Takes : NthDraft → String → NthDraft → Prop where
  | word {d : NthDraft} (w : NthWord) (span : Span) (p : NthPhase) (next : d.phase.Takes w p)
    (fair : w.Fair d.afterDash) : Takes d w.text (d.pushWord w span p)
  | append {d d' d'' : NthDraft} {text text' : String} (first : Takes d text d')
    (second : Takes d' text' d'') : Takes d (text ++ text') d''

/-! ### Taking one text -/

variable {text : String} {span : Span}

theorem takes_acceptOf (hp : d.phase = .dash ∨ d.phase = .offset ∨ d.phase = .of) (text : String)
    (span : Span) : d.Takes text (d.acceptOf text span) := by
  refine .word ⟨.of, text, text != "of"⟩ span .selector (.of hp rfl) ⟨?_, nofun⟩
  simp [NthRole.Flagged, ← String.toList_inj]

theorem takes_acceptOffset (hp : d.phase = .dash ∨ d.phase = .offset) (text : String)
    (span : Span) : d.Takes text (d.acceptOffset text span) := by
  unfold acceptOffset
  split
  · exact takes_acceptOf (hp.imp_right .inl) text span
  · let invalid := !isInteger text.toList || (d.afterDash && isSigned text.toList)
    refine .word ⟨.offset, text, invalid⟩ span .of (.offset hp rfl) ⟨?_, nofun⟩
    simp [invalid, NthRole.Flagged, ← isInteger_iff, and_comm]

theorem takes_acceptDash (hp : d.phase = .dash) (htext : SpellsSign text.toList) (span : Span) :
    d.Takes text (d.acceptDash text span) :=
  .word ⟨.dash, text, false⟩ span .offset (hp ▸ .dash rfl)
    ⟨by simp [NthRole.Flagged], fun _ => htext⟩

/-- A step, and what is cut off after its `n`. -/
theorem takes_acceptStep? {d' : NthDraft} (hp : d.phase = .step) (hdash : d.afterDash = false)
    (h : d.acceptStep? text span = some d') : d.Takes text d' := by
  unfold acceptStep? at h
  split at h
  · cases h
  · rename_i step rest hsplit
    have htext : text = String.ofList step ++ String.ofList rest := by
      rw [← String.ofList_append, splitAtN_append hsplit, String.ofList_toList]
    split at h
    · rename_i hstep
      have hspells := isStep_iff.1 hstep
      have hkeyword : isKeyword step = false := by simpa using hspells.not_isKeyword []
      have htakes (mid : Span) : d.Takes (String.ofList step)
          { d.pushPart .step (String.ofList step) mid false with phase := .dash } :=
        .word ⟨.step, String.ofList step, false⟩ mid .dash
          (hp ▸ .step rfl (by simpa using hkeyword))
          ⟨by simp [NthRole.Flagged, hspells], nofun⟩
      simp only at h
      split at h
      · rename_i hrest
        cases h
        rw [htext, hrest, String.ofList_nil, String.append_empty]
        exact htakes _
      · split at h
        · rename_i hrest
          cases h
          rw [htext, hrest]
          exact (htakes _).append (takes_acceptDash rfl (.inr rfl) _)
        · split at h
          · rename_i hrest
            cases h
            rw [htext]
            refine (htakes _).append (.word ⟨.offset, String.ofList rest, false⟩ _ .of
              (.offset (.inl rfl) rfl) ⟨?_, nofun⟩)
            simp [NthRole.Flagged, (isSignedInteger_iff.1 hrest).2]
            exact fun _ => hdash
          · cases h
    · cases h

theorem takes_acceptFirst (hp : d.phase = .step) (hdash : d.afterDash = false) (text : String)
    (span : Span) : d.Takes text (d.acceptFirst text span).1 := by
  simp only [acceptFirst]
  split
  · rename_i hkeyword
    refine .word ⟨.step, text, isSigned text.toList⟩ span .of (hp ▸ .keyword rfl hkeyword)
      ⟨?_, nofun⟩
    simp [NthRole.Flagged, ← isKeyword_iff, hkeyword, not_spellsStep_of_isKeyword hkeyword]
  · rename_i hkeyword
    split
    · rename_i hinteger
      refine .word ⟨.offset, text, false⟩ span .of (hp ▸ .number rfl) ⟨?_, nofun⟩
      simp [NthRole.Flagged, ← isInteger_iff, hinteger, hdash]
    · split
      · rename_i d' hd
        exact takes_acceptStep? hp hdash hd
      · rename_i hnone
        refine .word ⟨.step, text, true⟩ span .dash (hp ▸ .step rfl (by simpa using hkeyword))
          ⟨?_, nofun⟩
        -- a step would have been taken for one
        have hstep : ¬SpellsStep isDecimalDigit text.toList := by
          intro hstep
          have hsplit := hstep.splitAtN_append []
          rw [List.append_nil] at hsplit
          simp [acceptStep?, hsplit, isStep_iff.2 hstep] at hnone
        simp [NthRole.Flagged, ← isKeyword_iff, hkeyword, hstep]

/-- **A text adds words to an expression that is not complete.** -/
theorem accept_takes (hp : d.phase ≠ .selector) (hdash : d.phase = .step → d.afterDash = false)
    (text : String) (span : Span) : d.Takes text (d.accept text span).1 := by
  unfold accept
  split
  · rename_i hphase
    exact takes_acceptFirst hphase (hdash hphase) text span
  · rename_i hphase
    split
    · rename_i hsign
      refine takes_acceptDash hphase ?_ span
      rcases hsign with rfl | rfl
      · exact .inl rfl
      · exact .inr rfl
    · exact takes_acceptOffset (.inl hphase) text span
  · rename_i hphase
    exact takes_acceptOffset (.inr hphase) text span
  · rename_i hphase
    exact takes_acceptOf (.inr (.inr hphase)) text span
  · rename_i hphase
    exact absurd hphase hp

/-! ### What reading keeps -/

/-- The words are a path to the phase, each is flagged exactly as it must be, a lone sign is
remembered, and no item has blanks in front. -/
structure Regular (d : NthDraft) : Prop where
  path : NthPhase.Path .step d.words d.phase
  fair : ∀ us w vs, d.words = us ++ w :: vs → w.Fair (∃ u ∈ us, u.role = .dash)
  afterDash : d.afterDash ↔ ∃ w ∈ d.words, w.role = .dash
  before : ∀ n ∈ d.items, n.before = ""

theorem regular_start (p : Nat) : (start p).Regular where
  path := .nil
  fair us w vs h := by simp [words, start, finish, Nth.words] at h
  afterDash := by simp [words, start, finish, Nth.words]
  before := nofun

namespace Regular

variable (h : d.Regular)

include h

/-- An expression that is not begun has no sign. -/
theorem afterDash_eq_false (hp : d.phase = .step) : d.afterDash = false := by
  have hpath := h.path
  rw [hp] at hpath
  have hwords : d.words = [] := by
    cases hw : d.words with
    | nil => rfl
    | cons w ws =>
      rw [hw] at hpath
      cases hpath with
      | cons head tail => exact absurd rfl (tail.ne_step head.ne_step)
  simpa [hwords] using h.afterDash

theorem pushBlanks (t : Token) : (d.pushBlanks t).Regular where
  path := by simpa using h.path
  fair := by simpa using h.fair
  afterDash := by simpa using h.afterDash
  before := by
    have hitems := h.before
    unfold NthDraft.pushBlanks
    split
    · rename_i n ns hn
      rw [hn, List.forall_mem_cons] at hitems
      exact List.forall_mem_cons.2 ⟨by simpa using hitems.1, hitems.2⟩
    · exact hitems

theorem pushComment (t : Token) : (d.push (.comment (.ofToken t))).Regular where
  path := by simpa using h.path
  fair := by simpa using h.fair
  afterDash := by simpa using h.afterDash
  before := List.forall_mem_cons.2 ⟨rfl, h.before⟩

theorem pushWord {w : NthWord} {p : NthPhase} (next : d.phase.Takes w p)
    (fair : w.Fair d.afterDash) (span : Span) : (d.pushWord w span p).Regular where
  path := by
    rw [words_pushWord]
    exact h.path.concat next
  fair us x vs hwords := by
    rw [words_pushWord] at hwords
    rcases List.eq_nil_or_concat vs with rfl | ⟨vs, v, rfl⟩
    · obtain ⟨rfl, hw⟩ := List.append_inj' hwords rfl
      obtain rfl := List.singleton_inj.1 hw
      rwa [← propext h.afterDash]
    · rw [List.concat_eq_append, ← List.cons_append, ← List.append_assoc] at hwords
      exact h.fair us x vs (List.append_inj' hwords rfl).1
  afterDash := by
    rw [words_pushWord]
    have hdash := h.afterDash
    cases hrole : w.role <;> simp [NthDraft.pushWord, hrole, hdash]
  before := List.forall_mem_cons.2 ⟨rfl, h.before⟩

theorem takes {text : String} {d' : NthDraft} (ht : d.Takes text d') : d'.Regular := by
  induction ht with
  | word w span p next fair => exact h.pushWord next fair span
  | append first second ih ih' => exact ih' (ih h)

theorem accept (hp : d.phase ≠ .selector) (text : String) (span : Span) :
    (d.accept text span).1.Regular :=
  h.takes (accept_takes hp h.afterDash_eq_false text span)

/-- **Reading keeps expressions regular.** -/
theorem read (ts : List Token) : (d.read ts).draft.Regular := by
  fun_induction NthDraft.read d ts with
  | case1 | case4 | case6 | case10 => exact h
  | case2 d t ts hk ih => exact ih (h.pushBlanks t)
  | case3 d t ts hk ih => exact ih (h.pushComment t)
  | case5 d t ts hk hp a ih => exact ih (h.accept hp _ _)
  | case7 d t hk hp u us hu a ih | case8 d t hk hp u us hu a ih => exact ih (h.accept hp _ _)
  | case9 d t hk hp => exact h.accept hp _ _

end Regular

end NthDraft

end Selectors
