import Mathlib.Data.List.Basic
import Selectors.Nth.Form

/-!
# What the forms of words spell

The checks of `NthForm` take a word apart from its front.  Here the forms are said by what they are
put together from: an optional sign, digits, and the letter `n`.  Which characters are digits is
left open, as a word may be checked for digits of any script or for ASCII ones only.

* `NthForm.isStep_iff`, `isInteger_iff`, `isSignedInteger_iff`, `isKeyword_iff`: the checks accept
  exactly the forms.
* `NthForm.SpellsStep.splitAtN_append`: a word that starts with a step is cut after it.
-/

namespace Selectors

namespace NthForm

/-- One of the two signs. -/
def SpellsSign (cs : List Char) : Prop := cs = ['+'] ∨ cs = ['-']

/-- The keywords `odd` and `even`, in any letter case. -/
def SpellsKeyword (cs : List Char) : Prop :=
  cs.map Char.toLower = "odd".toList ∨ cs.map Char.toLower = "even".toList

/-- Digits after an optional sign. -/
def SpellsInteger (digit : Char → Bool) (cs : List Char) : Prop :=
  ∃ sign ds, (sign = [] ∨ SpellsSign sign) ∧ ds ≠ [] ∧ (∀ c ∈ ds, digit c) ∧ cs = sign ++ ds

/-- Digits, possibly none, after an optional sign and before the letter `n`. -/
def SpellsStep (digit : Char → Bool) (cs : List Char) : Prop :=
  ∃ sign ds n, (sign = [] ∨ SpellsSign sign) ∧ (∀ c ∈ ds, digit c) ∧ isN n ∧
    cs = sign ++ ds ++ [n]

variable {cs ds a b : List Char} {c n : Char}

/-! ### Signs, digits and letters -/

theorem spellsSign_iff : SpellsSign cs ↔ ∃ c, isSign c ∧ cs = [c] := by
  simp [SpellsSign, isSign]

theorem isN_iff : isN n ↔ n = 'n' ∨ n = 'N' := by simp [isN]

theorem not_isSign_of_isDecimalDigit (h : isDecimalDigit c) : isSign c = false := by
  rw [Bool.eq_false_iff]
  intro hsign
  obtain rfl | rfl : c = '+' ∨ c = '-' := by simpa [isSign] using hsign
  · exact absurd h (by decide)
  · exact absurd h (by decide)

theorem not_isN_of_isDecimalDigit (h : isDecimalDigit c) : isN c = false := by
  rw [Bool.eq_false_iff]
  intro hn
  obtain rfl | rfl := isN_iff.1 hn
  · exact absurd h (by decide)
  · exact absurd h (by decide)

theorem not_isSign_of_isN (h : isN n) : isSign n = false := by
  obtain rfl | rfl := isN_iff.1 h <;> rfl

/-- Digits have no letter case. -/
theorem toLower_of_isDecimalDigit (h : isDecimalDigit c) : c.toLower = c := by
  refine dif_neg ?_
  rintro ⟨hlow, hhigh⟩
  have hlow : 65 ≤ c.toNat := hlow
  have hhigh : c.toNat ≤ 90 := hhigh
  obtain ⟨z, hz, hc⟩ := List.any_eq_true.1 h
  have hfar : ∀ z ∈ decimalZeros, z + 10 ≤ 65 ∨ 90 < z := by decide
  have := hfar z hz
  simp only [Bool.and_eq_true, decide_eq_true_eq] at hc
  omega

/-! ### Signs in front -/

theorem isSigned_append (h : SpellsSign a) : isSigned (a ++ b) := by
  obtain ⟨c, hc, rfl⟩ := spellsSign_iff.1 h
  exact hc

theorem unsigned_of_not_isSigned (h : isSigned cs = false) : unsigned cs = cs := by
  cases cs with
  | nil => rfl
  | cons c cs => exact if_neg (Bool.eq_false_iff.1 h)

theorem unsigned_append (ha : a = [] ∨ SpellsSign a) (hb : isSigned b = false) :
    unsigned (a ++ b) = b := by
  obtain rfl | ha := ha
  · exact unsigned_of_not_isSigned hb
  · obtain ⟨c, hc, rfl⟩ := spellsSign_iff.1 ha
    exact if_pos hc

/-- A word is an optional sign and the rest of it. -/
theorem exists_sign_append (cs : List Char) :
    ∃ sign, (sign = [] ∨ SpellsSign sign) ∧ cs = sign ++ unsigned cs := by
  cases cs with
  | nil => exact ⟨[], .inl rfl, rfl⟩
  | cons c cs =>
    by_cases hc : isSign c
    · exact ⟨[c], .inr (spellsSign_iff.2 ⟨c, hc, rfl⟩), by simp [unsigned, hc]⟩
    · exact ⟨[], .inl rfl, by simp [unsigned, hc]⟩

theorem not_isSigned_of_digits (hne : ds ≠ []) (h : ∀ c ∈ ds, isDecimalDigit c) :
    isSigned (ds ++ b) = false := by
  obtain ⟨c, ds, rfl⟩ := List.exists_cons_of_ne_nil hne
  exact not_isSign_of_isDecimalDigit (h c List.mem_cons_self)

theorem not_isSigned_of_step (h : ∀ c ∈ ds, isDecimalDigit c) (hn : isN n) :
    isSigned (ds ++ n :: b) = false := by
  cases ds with
  | nil => exact not_isSign_of_isN hn
  | cons c ds => exact not_isSigned_of_digits (List.cons_ne_nil c ds) h

/-! ### Integers -/

theorem isDigits_iff : isDigits ds ↔ ds ≠ [] ∧ ∀ c ∈ ds, isDecimalDigit c := by
  simp [isDigits]

theorem isInteger_iff : isInteger cs ↔ SpellsInteger isDecimalDigit cs := by
  rw [isInteger, isDigits_iff]
  refine ⟨fun ⟨hne, hds⟩ => ?_, ?_⟩
  · obtain ⟨sign, hsign, hcs⟩ := exists_sign_append cs
    exact ⟨sign, unsigned cs, hsign, hne, hds, hcs⟩
  · rintro ⟨sign, ds, hsign, hne, hds, rfl⟩
    have hunsigned : isSigned ds = false := by
      simpa using not_isSigned_of_digits (b := []) hne hds
    rw [unsigned_append hsign hunsigned]
    exact ⟨hne, hds⟩

theorem isSignedInteger_iff :
    isSignedInteger cs ↔ isSigned cs ∧ SpellsInteger isDecimalDigit cs := by
  rw [← isInteger_iff]
  cases cs with
  | nil => simp [isSignedInteger, isSigned]
  | cons c cs =>
    by_cases hc : isSign c <;> simp [isSignedInteger, isSigned, isInteger, unsigned, hc]

/-! ### Steps -/

/-- A word is cut after its first `n`. -/
theorem splitAtN_eq_some_iff :
    splitAtN cs = some (a, b) ↔
      ∃ front n, (∀ c ∈ front, isN c = false) ∧ isN n ∧ a = front ++ [n] ∧ cs = a ++ b := by
  induction cs generalizing a with
  | nil =>
    refine ⟨(fun h => by cases h), ?_⟩
    rintro ⟨front, n, -, -, rfl, hcs⟩
    simp at hcs
  | cons c cs ih =>
    rw [splitAtN]
    by_cases hc : isN c
    · rw [if_pos hc, Option.some.injEq, Prod.mk.injEq]
      refine ⟨?_, ?_⟩
      · rintro ⟨rfl, rfl⟩
        exact ⟨[], c, List.forall_mem_nil _, hc, rfl, rfl⟩
      · rintro ⟨front, n, hfront, hn, rfl, hcs⟩
        cases front with
        | nil => simpa using hcs
        | cons d front =>
          have hd : c = d := (List.cons.inj hcs).1
          have := hfront d List.mem_cons_self
          rw [← hd, hc] at this
          cases this
    · rw [if_neg hc, Option.map_eq_some_iff]
      refine ⟨?_, ?_⟩
      · rintro ⟨⟨a', b'⟩, hsplit, hab⟩
        obtain ⟨rfl, rfl⟩ := Prod.mk.inj hab
        obtain ⟨front, n, hfront, hn, rfl, rfl⟩ := ih.1 hsplit
        refine ⟨c :: front, n, ?_, hn, rfl, rfl⟩
        exact List.forall_mem_cons.2 ⟨Bool.eq_false_iff.2 hc, hfront⟩
      · rintro ⟨front, n, hfront, hn, rfl, hcs⟩
        cases front with
        | nil =>
          obtain ⟨rfl, -⟩ := List.cons.inj hcs
          exact absurd hn hc
        | cons d front =>
          obtain ⟨rfl, rfl⟩ := List.cons.inj hcs
          refine ⟨(front ++ [n], b), ih.2 ⟨front, n, ?_, hn, rfl, rfl⟩, rfl⟩
          exact (List.forall_mem_cons.1 hfront).2

theorem isStep_iff : isStep cs ↔ SpellsStep isDecimalDigit cs := by
  refine ⟨fun h => ?_, ?_⟩
  · rw [isStep] at h
    split at h
    · rename_i word hsplit
      obtain ⟨front, n, -, hn, rfl, hcs⟩ := splitAtN_eq_some_iff.1 hsplit
      obtain ⟨sign, hsign, hsplit⟩ := exists_sign_append cs
      refine ⟨sign, front, n, hsign, by simpa using h, hn, ?_⟩
      rw [List.append_assoc, hsplit, hcs, List.append_nil]
    · cases h
  · rintro ⟨sign, ds, n, hsign, hds, hn, rfl⟩
    have hcut : splitAtN (ds ++ [n]) = some (ds ++ [n], []) :=
      splitAtN_eq_some_iff.2 ⟨ds, n, fun c hc => not_isN_of_isDecimalDigit (hds c hc), hn, rfl,
        (List.append_nil _).symm⟩
    rw [isStep, List.append_assoc, unsigned_append hsign (not_isSigned_of_step hds hn), hcut]
    simpa using hds

theorem SpellsStep.ne_nil {digit : Char → Bool} (h : SpellsStep digit a) : a ≠ [] := by
  obtain ⟨sign, ds, n, -, -, -, rfl⟩ := h
  simp

section

variable (h : SpellsStep isDecimalDigit a)

include h

/-- What is cut off after the first `n` is all of a step. -/
theorem SpellsStep.splitAtN_append (b : List Char) : splitAtN (a ++ b) = some (a, b) := by
  obtain ⟨sign, ds, n, hsign, hds, hn, rfl⟩ := h
  refine splitAtN_eq_some_iff.2 ⟨sign ++ ds, n, ?_, hn, rfl, rfl⟩
  rw [List.forall_mem_append]
  refine ⟨fun c hc => ?_, fun c hc => not_isN_of_isDecimalDigit (hds c hc)⟩
  obtain rfl | rfl | rfl := hsign
  · cases hc
  all_goals
    obtain rfl := List.mem_singleton.1 hc
    rfl

/-- No word that starts with a step is an integer. -/
theorem SpellsStep.not_isInteger (b : List Char) : isInteger (a ++ b) = false := by
  obtain ⟨sign, ds, n, hsign, hds, hn, rfl⟩ := h
  rw [List.append_assoc, List.append_assoc, isInteger, List.singleton_append,
    unsigned_append hsign (not_isSigned_of_step hds hn), Bool.eq_false_iff, Ne, isDigits_iff]
  rintro ⟨-, hdigits⟩
  rw [not_isN_of_isDecimalDigit (hdigits n (by simp))] at hn
  cases hn

/-- No word that starts with a step is a keyword. -/
theorem SpellsStep.not_isKeyword (b : List Char) : isKeyword (a ++ b) = false := by
  obtain ⟨sign, ds, n, hsign, hds, hn, rfl⟩ := h
  rw [List.append_assoc, List.append_assoc, isKeyword, List.singleton_append,
    unsigned_append hsign (not_isSigned_of_step hds hn)]
  -- the first letter decides
  cases ds with
  | nil => obtain rfl | rfl := isN_iff.1 hn <;> rfl
  | cons c ds =>
    have hc := hds c List.mem_cons_self
    rw [List.cons_append, List.map_cons, toLower_of_isDecimalDigit hc]
    have ho : c ≠ 'o' := fun heq => absurd (heq ▸ hc) (by decide)
    have he : c ≠ 'e' := fun heq => absurd (heq ▸ hc) (by decide)
    simp [ho, he]

end

/-! ### Keywords -/

theorem isKeyword_iff_unsigned : isKeyword cs ↔ SpellsKeyword (unsigned cs) := by
  simp [isKeyword, SpellsKeyword]

theorem SpellsKeyword.not_isSigned (h : SpellsKeyword cs) : isSigned cs = false := by
  cases cs with
  | nil => rfl
  | cons c cs =>
    rw [isSigned, Bool.eq_false_iff]
    intro hc
    obtain rfl | rfl : c = '+' ∨ c = '-' := by simpa [isSign] using hc
    · rcases h with h | h <;> exact absurd (List.cons.inj h).1 (by decide)
    · rcases h with h | h <;> exact absurd (List.cons.inj h).1 (by decide)

theorem isKeyword_iff : isKeyword cs ∧ isSigned cs = false ↔ SpellsKeyword cs := by
  rw [isKeyword_iff_unsigned]
  refine ⟨fun ⟨hcs, hsigned⟩ => ?_, fun h => ⟨?_, h.not_isSigned⟩⟩
  · rwa [unsigned_of_not_isSigned hsigned] at hcs
  · rwa [unsigned_of_not_isSigned h.not_isSigned]

theorem SpellsKeyword.isKeyword (h : SpellsKeyword cs) : isKeyword cs := (isKeyword_iff.2 h).1

/-- No keyword is an integer. -/
theorem not_isInteger_of_isKeyword (h : isKeyword cs) : isInteger cs = false := by
  rw [Bool.eq_false_iff, isInteger, Ne, isDigits_iff]
  rintro ⟨hne, hdigits⟩
  rw [isKeyword_iff_unsigned] at h
  -- the first character decides
  obtain ⟨c, ds, hcs⟩ := List.exists_cons_of_ne_nil hne
  have hc := hdigits c (hcs ▸ List.mem_cons_self)
  rw [hcs] at h
  rcases h with h | h
  all_goals
    rw [List.map_cons, toLower_of_isDecimalDigit hc] at h
    rw [(List.cons.inj h).1] at hc
    exact absurd hc (by decide)

/-- No keyword is a step. -/
theorem not_spellsStep_of_isKeyword (h : isKeyword cs) : ¬SpellsStep isDecimalDigit cs := by
  intro hstep
  have := hstep.not_isKeyword []
  rw [List.append_nil, h] at this
  cases this

/-! ### ASCII digits -/

/-- ASCII digits are digits. -/
theorem SpellsInteger.decimal (h : SpellsInteger Char.isDigit cs) :
    SpellsInteger isDecimalDigit cs := by
  obtain ⟨sign, ds, hsign, hne, hds, rfl⟩ := h
  exact ⟨sign, ds, hsign, hne, fun c hc => isDecimalDigit_of_isDigit (hds c hc), rfl⟩

theorem SpellsInteger.isInteger (h : SpellsInteger Char.isDigit cs) : isInteger cs :=
  isInteger_iff.2 h.decimal

theorem SpellsStep.decimal (h : SpellsStep Char.isDigit cs) : SpellsStep isDecimalDigit cs := by
  obtain ⟨sign, ds, n, hsign, hds, hn, rfl⟩ := h
  exact ⟨sign, ds, n, hsign, fun c hc => isDecimalDigit_of_isDigit (hds c hc), hn, rfl⟩

end NthForm

end Selectors
