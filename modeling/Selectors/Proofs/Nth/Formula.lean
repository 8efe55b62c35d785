import Mathlib.Data.List.Sublists
import Selectors.Proofs.Nth.Words
import Selectors.Proofs.Preorder
import Selectors.Proofs.Shape.Edges
import Selectors.Proofs.Shape.Invariant
import Selectors.Tree.Equality

/-!
# Expressions without a flag

The parts of an expression before its `of` spell a formula.  Parts are checked one by one, and an
expression in which none is flagged is nearly always one of the style sheet language: a keyword, an
integer, a step, or a step and a signed integer.  What is not looked at is the sequence of parts,
and the script that digits belong to.

* `NthPhase.Path.exists_formula`: the sequences of parts that there are.
* `NthWord.Formula.spellsAnB_iff`: when a formula without a flag is one of the language.
* `parse_formula_iff`: the same for all expressions of a parsed tree.
-/

namespace Selectors

open NthForm

/-! ### The language of formulas -/

namespace NthForm

/-- A keyword, an integer, or a step, which a signed integer may follow; digits are ASCII. -/
def SpellsAnB (cs : List Char) : Prop :=
  SpellsKeyword cs ∨ SpellsInteger Char.isDigit cs ∨
    ∃ a b, SpellsStep Char.isDigit a ∧ (b = [] ∨ isSigned b ∧ SpellsInteger Char.isDigit b) ∧
      cs = a ++ b

/-- All digits in a word are ASCII. -/
def AsciiDigits (cs : List Char) : Prop := ∀ c ∈ cs, isDecimalDigit c → c.isDigit

instance (cs : List Char) : Decidable (AsciiDigits cs) :=
  List.decidableBAll (fun c => isDecimalDigit c → c.isDigit) cs

variable {a b cs sign : List Char}

theorem asciiDigits_append : AsciiDigits (a ++ b) ↔ AsciiDigits a ∧ AsciiDigits b :=
  List.forall_mem_append

theorem asciiDigits_of_sign (h : sign = [] ∨ SpellsSign sign) : AsciiDigits sign := by
  intro c hc hdigit
  have hsign := not_isSign_of_isDecimalDigit hdigit
  obtain rfl | h := h
  · cases hc
  · obtain ⟨d, hd, rfl⟩ := spellsSign_iff.1 h
    obtain rfl := List.mem_singleton.1 hc
    rw [hd] at hsign
    cases hsign

theorem spellsInteger_ascii_iff (h : SpellsInteger isDecimalDigit cs) :
    SpellsInteger Char.isDigit cs ↔ AsciiDigits cs := by
  refine ⟨?_, fun hascii => ?_⟩
  · rintro ⟨sign, ds, hsign, -, hds, rfl⟩
    exact asciiDigits_append.2 ⟨asciiDigits_of_sign hsign, fun c hc _ => hds c hc⟩
  · obtain ⟨sign, ds, hsign, hne, hds, rfl⟩ := h
    have hascii := (asciiDigits_append.1 hascii).2
    exact ⟨sign, ds, hsign, hne, fun c hc => hascii c hc (hds c hc), rfl⟩

theorem spellsStep_ascii_iff (h : SpellsStep isDecimalDigit cs) :
    SpellsStep Char.isDigit cs ↔ AsciiDigits cs := by
  refine ⟨?_, fun hascii => ?_⟩
  · rintro ⟨sign, ds, n, hsign, hds, hn, rfl⟩
    refine asciiDigits_append.2 ⟨asciiDigits_append.2
      ⟨asciiDigits_of_sign hsign, fun c hc _ => hds c hc⟩, fun c hc hdigit => ?_⟩
    obtain rfl := List.mem_singleton.1 hc
    rw [not_isN_of_isDecimalDigit hdigit] at hn
    cases hn
  · obtain ⟨sign, ds, n, hsign, hds, hn, rfl⟩ := h
    have hascii := (asciiDigits_append.1 (asciiDigits_append.1 hascii).1).2
    exact ⟨sign, ds, n, hsign, fun c hc => hascii c hc (hds c hc), hn, rfl⟩

theorem SpellsInteger.ne_nil {digit : Char → Bool} (h : SpellsInteger digit cs) : cs ≠ [] := by
  obtain ⟨sign, ds, -, hne, -, rfl⟩ := h
  exact fun hnil => hne (List.append_eq_nil_iff.1 hnil).2

theorem SpellsSign.ne_nil (h : SpellsSign cs) : cs ≠ [] := by
  obtain rfl | rfl := h <;> nofun

theorem SpellsSign.not_spellsInteger (h : SpellsSign cs) : ¬SpellsInteger Char.isDigit cs := by
  intro hinteger
  have := hinteger.isInteger
  obtain rfl | rfl := h <;> exact absurd this (by decide)

/-- An integer without a sign takes one. -/
theorem SpellsInteger.sign_append {digit : Char → Bool} (h : SpellsInteger digit b)
    (hb : isSigned b = false) (hsign : SpellsSign sign) : SpellsInteger digit (sign ++ b) := by
  obtain ⟨sign', ds, hsign', hne, hds, rfl⟩ := h
  obtain rfl | hsign' := hsign'
  · exact ⟨sign, ds, .inr hsign, hne, hds, rfl⟩
  · rw [isSigned_append hsign'] at hb
    cases hb

theorem SpellsKeyword.asciiDigits (h : SpellsKeyword cs) : AsciiDigits cs := by
  intro c hc hdigit
  have hlower : c ∈ cs.map Char.toLower :=
    List.mem_map.2 ⟨c, hc, toLower_of_isDecimalDigit hdigit⟩
  have hodd : "odd".toList.any isDecimalDigit = false := by decide
  have heven : "even".toList.any isDecimalDigit = false := by decide
  rcases h with h | h <;> rw [h] at hlower
  · exact absurd hdigit (List.any_eq_false.1 hodd c hlower)
  · exact absurd hdigit (List.any_eq_false.1 heven c hlower)

/-- What may stand after a step. -/
theorem spellsAnB_step_append_iff (h : SpellsStep isDecimalDigit a) :
    SpellsAnB (a ++ b) ↔
      AsciiDigits a ∧ (b = [] ∨ isSigned b ∧ SpellsInteger Char.isDigit b) := by
  rw [← spellsStep_ascii_iff h]
  refine ⟨?_, fun ⟨ha, hb⟩ => .inr (.inr ⟨a, b, ha, hb, rfl⟩)⟩
  rintro (hkeyword | hinteger | ⟨a', b', ha, hb, hab⟩)
  · have := hkeyword.isKeyword
    rw [h.not_isKeyword b] at this
    cases this
  · have := hinteger.isInteger
    rw [h.not_isInteger b] at this
    cases this
  · -- a word is cut after its first `n` in one way only
    have hcut := ha.decimal.splitAtN_append b'
    rw [← hab, h.splitAtN_append b, Option.some.injEq, Prod.mk.injEq] at hcut
    obtain ⟨rfl, rfl⟩ := hcut
    exact ⟨ha, hb⟩

theorem spellsAnB_integer_iff (h : SpellsInteger isDecimalDigit cs) :
    SpellsAnB cs ↔ AsciiDigits cs := by
  rw [← spellsInteger_ascii_iff h]
  refine ⟨?_, fun hinteger => .inr (.inl hinteger)⟩
  rintro (hkeyword | hinteger | ⟨a, b, ha, -, rfl⟩)
  · rw [← isInteger_iff, not_isInteger_of_isKeyword hkeyword.isKeyword] at h
    cases h
  · exact hinteger
  · rw [← isInteger_iff, ha.decimal.not_isInteger b] at h
    cases h

end NthForm

/-! ### The parts before an `of` -/

/-- The parts of an expression other than its `of`. -/
def Nth.parts (n : Nth) : List NthWord := n.words.filter fun w => w.role != .of

/-- The formula that an expression spells. -/
def Nth.formula (n : Nth) : List Char := n.parts.flatMap fun w => w.text.toList

/-- The parts that may stand before an `of`, one after another. -/
inductive NthWord.Formula : List NthWord → Prop where
  | keyword {s : NthWord} (hs : s.role = .step) (hkeyword : isKeyword s.text.toList) : Formula [s]
  | offset {b : NthWord} (hb : b.role = .offset) : Formula [b]
  | step {s : NthWord} {ws : List NthWord} (hs : s.role = .step)
    (hkeyword : isKeyword s.text.toList = false)
    (hws : (ws.map NthWord.role).Sublist [.dash, .offset]) : Formula (s :: ws)

/-- No part of a formula is an `of`. -/
theorem NthWord.Formula.role_ne_of {parts : List NthWord} (h : Formula parts) :
    ∀ w ∈ parts, w.role ≠ .of := by
  cases h with
  | keyword hs => simp [hs]
  | offset hb => simp [hb]
  | @step s ws hs _ hws =>
    refine List.forall_mem_cons.2 ⟨by simp [hs], fun w hw hrole => ?_⟩
    have hof : NthRole.of ∈ [.dash, .offset] := hws.subset (hrole ▸ List.mem_map_of_mem hw)
    exact absurd hof (by decide)

/-- **An expression is a formula, and an `of` may follow.** -/
theorem NthPhase.Path.exists_formula {q : NthPhase} {ws : List NthWord} (h : Path .step ws q)
    (hne : ws ≠ []) :
    ∃ parts ofs, ws = parts ++ ofs ∧ (∀ o ∈ ofs, o.role = .of) ∧ NthWord.Formula parts := by
  have hofs {ofs : List NthWord} (h : (ofs.map NthWord.role).Sublist [.of]) :
      ∀ o ∈ ofs, o.role = .of :=
    fun o ho => List.mem_singleton.1 (h.subset (List.mem_map_of_mem ho))
  cases h with
  | nil => exact absurd rfl hne
  | @cons _ _ _ w ws head tail =>
    have htail := tail.roles_sublist head.ne_step
    cases head with
    | keyword hrole hkeyword => exact ⟨[w], ws, rfl, hofs htail, .keyword hrole hkeyword⟩
    | step hrole hkeyword =>
      have hroles : (ws.map NthWord.role).Sublist ([.dash, .offset] ++ [.of]) := htail
      obtain ⟨l, l', hsplit, hl, hl'⟩ := List.sublist_append_iff.1 hroles
      obtain ⟨parts, ofs, rfl, rfl, rfl⟩ := List.map_eq_append_iff.1 hsplit
      exact ⟨w :: parts, ofs, rfl, hofs hl', .step hrole hkeyword hl⟩
    | number hrole => exact ⟨[w], ws, rfl, hofs htail, .offset hrole⟩
    | offset hp => simp at hp
    | of hp => simp at hp

/-! ### Words without a flag -/

namespace NthWord

variable {w : NthWord} {afterDash : Prop}

theorem Fair.not_flagged (h : w.Fair afterDash) (hclean : w.invalid = false) :
    ¬w.role.Flagged afterDash w.text.toList := by
  rw [← h.flag, hclean]
  exact Bool.false_ne_true

theorem Fair.spellsKeyword (h : w.Fair afterDash) (hclean : w.invalid = false)
    (hrole : w.role = .step) (hkeyword : isKeyword w.text.toList) :
    SpellsKeyword w.text.toList := by
  have hflag := h.not_flagged hclean
  rw [hrole] at hflag
  by_contra hspells
  exact hflag ⟨hspells, not_spellsStep_of_isKeyword hkeyword⟩

theorem Fair.spellsStep (h : w.Fair afterDash) (hclean : w.invalid = false)
    (hrole : w.role = .step) (hkeyword : isKeyword w.text.toList = false) :
    SpellsStep isDecimalDigit w.text.toList := by
  have hflag := h.not_flagged hclean
  rw [hrole] at hflag
  by_contra hspells
  refine hflag ⟨fun hk => ?_, hspells⟩
  rw [hk.isKeyword] at hkeyword
  cases hkeyword

theorem Fair.spellsInteger (h : w.Fair afterDash) (hclean : w.invalid = false)
    (hrole : w.role = .offset) :
    SpellsInteger isDecimalDigit w.text.toList ∧ (afterDash → isSigned w.text.toList = false) := by
  have hflag := h.not_flagged hclean
  rw [hrole] at hflag
  simp only [NthRole.Flagged, not_or, not_not, not_and] at hflag
  exact ⟨hflag.1, fun hdash => Bool.eq_false_iff.2 fun hsigned => hflag.2 hsigned hdash⟩

/-- No part is flagged, and none must be. -/
def Unflagged (parts : List NthWord) : Prop :=
  ∀ us w vs, parts = us ++ w :: vs → w.Fair (∃ u ∈ us, u.role = .dash) ∧ w.invalid = false

variable {s : NthWord} {ws parts : List NthWord}

/-- What stands after a step without a flag is a signed integer, unless it has a digit that is not
ASCII, or is one part other than a signed offset. -/
theorem Unflagged.after_step_iff (h : Unflagged (s :: ws))
    (hws : (ws.map NthWord.role).Sublist [.dash, .offset]) :
    (ws.flatMap (fun w => w.text.toList) = [] ∨ isSigned (ws.flatMap fun w => w.text.toList) ∧
        SpellsInteger Char.isDigit (ws.flatMap fun w => w.text.toList)) ↔
      AsciiDigits (ws.flatMap fun w => w.text.toList) ∧
        ∀ b, ws = [b] → b.role = .offset ∧ isSigned b.text.toList := by
  have hsublists : [NthRole.dash, .offset].sublists =
      [[], [.dash], [.offset], [.dash, .offset]] := rfl
  rw [← List.mem_sublists, hsublists] at hws
  simp only [List.mem_cons, List.not_mem_nil, or_false, List.map_eq_nil_iff,
    List.map_eq_cons_iff] at hws
  obtain rfl | ⟨x, _, rfl, hx, rfl⟩ | ⟨b, _, rfl, hb, rfl⟩ | ⟨x, _, rfl, hx, b, _, rfl, hb, rfl⟩ :=
    hws
  · -- nothing
    simp [AsciiDigits]
  · -- a lone sign
    have hsign := (h [s] x [] rfl).1.sign hx
    simp only [List.flatMap_singleton, hsign.ne_nil, hsign.not_spellsInteger, false_or, and_false,
      false_iff, not_and]
    intro _ hall
    have hoffset := (hall x rfl).1
    rw [hx] at hoffset
    cases hoffset
  · -- an offset
    obtain ⟨hbfair, hbclean⟩ := h [s] b [] rfl
    have hinteger := (hbfair.spellsInteger hbclean hb).1
    simp only [List.flatMap_singleton, hinteger.ne_nil, false_or, spellsInteger_ascii_iff hinteger]
    constructor
    · rintro ⟨hsigned, hascii⟩
      refine ⟨hascii, ?_⟩
      rintro _ ⟨⟩
      exact ⟨hb, hsigned⟩
    · rintro ⟨hascii, hall⟩
      exact ⟨(hall b rfl).2, hascii⟩
  · -- a lone sign and an offset
    have hsign := (h [s] x [b] rfl).1.sign hx
    obtain ⟨hbfair, hbclean⟩ := h [s, x] b [] rfl
    obtain ⟨hinteger, hunsigned⟩ := hbfair.spellsInteger hbclean hb
    have hsigned := hinteger.sign_append (hunsigned ⟨x, by simp, hx⟩) hsign
    simp only [List.flatMap_cons, List.flatMap_nil, List.append_nil, hsigned.ne_nil, false_or,
      isSigned_append hsign, true_and, spellsInteger_ascii_iff hsigned]
    simp

theorem Formula.spellsAnB_iff (h : Formula parts) (hparts : Unflagged parts) :
    SpellsAnB (parts.flatMap fun w => w.text.toList) ↔
      AsciiDigits (parts.flatMap fun w => w.text.toList) ∧
        ∀ s b, parts = [s, b] → b.role = .offset ∧ isSigned b.text.toList := by
  cases h with
  | @keyword s hs hkeyword =>
    obtain ⟨hsfair, hsclean⟩ := hparts [] s [] rfl
    have hspells := hsfair.spellsKeyword hsclean hs hkeyword
    simp only [List.flatMap_singleton]
    exact iff_of_true (.inl hspells) ⟨hspells.asciiDigits, by simp⟩
  | @offset b hb =>
    obtain ⟨hbfair, hbclean⟩ := hparts [] b [] rfl
    have hspells := (hbfair.spellsInteger hbclean hb).1
    simp only [List.flatMap_singleton, spellsAnB_integer_iff hspells]
    simp
  | @step s ws hs hkeyword hws =>
    obtain ⟨hsfair, hsclean⟩ := hparts [] s ws rfl
    have hspells := hsfair.spellsStep hsclean hs hkeyword
    have hpair : (∀ s' b, s :: ws = [s', b] → b.role = .offset ∧ isSigned b.text.toList) ↔
        ∀ b, ws = [b] → b.role = .offset ∧ isSigned b.text.toList :=
      ⟨fun hall b hb => hall s b (by rw [hb]), fun hall s' b hb => hall b (List.cons.inj hb).2⟩
    rw [List.flatMap_cons, spellsAnB_step_append_iff hspells, hparts.after_step_iff hws,
      asciiDigits_append, and_assoc, hpair]

end NthWord

/-- **A formula without a flag is one of the language**, unless it has a digit that is not ASCII,
or of two parts the second is not a signed offset: a sign that nothing follows, or an offset that
has no sign. -/
theorem NthDraft.Regular.spellsAnB_iff {d : NthDraft} (h : d.Regular) (hne : d.words ≠ [])
    (hclean : ∀ w ∈ d.words, w.invalid = false) :
    SpellsAnB d.finish.formula ↔ AsciiDigits d.finish.formula ∧
      ∀ s b, d.finish.parts = [s, b] → b.role = .offset ∧ isSigned b.text.toList := by
  obtain ⟨parts, ofs, hwords, hofs, hformula⟩ := h.path.exists_formula hne
  have hparts : d.finish.parts = parts := by
    have hkeep : parts.filter (fun w => w.role != .of) = parts :=
      List.filter_eq_self.2 fun w hw => by simpa using hformula.role_ne_of w hw
    have hdrop : ofs.filter (fun w => w.role != .of) = [] :=
      List.filter_eq_nil_iff.2 fun w hw => by simp [hofs w hw]
    rw [Nth.parts, show d.finish.words = parts ++ ofs from hwords, List.filter_append, hkeep, hdrop,
      List.append_nil]
  rw [Nth.formula, hparts]
  refine hformula.spellsAnB_iff fun us w vs hsplit => ?_
  have hsplit : d.words = us ++ w :: (vs ++ ofs) := by
    rw [hwords, hsplit, List.append_assoc, List.cons_append]
  exact ⟨h.fair us w _ hsplit, hclean w (hsplit ▸ List.mem_append_right us List.mem_cons_self)⟩

/-! ### Expressions in a tree -/

/-- An expression is one that was read. -/
def NodeRef.NthRead : NodeRef → Prop
  | node (.nth n) => ∃ d : NthDraft, d.Regular ∧ n = d.finish
  | _ => True

theorem NodeRef.every_nthRead_of_isFiller {n : Node} (hn : n.isFiller) :
    (node n).Every NthRead := by
  refine (every_of_isFiller hn).2 ?_
  cases n with
  | combinator | comment => trivial
  | _ => cases hn

/-- Every way of reading keeps the expressions as they were read. -/
theorem Reads.invariant_nthRead :
    Reads.Invariant (fun _ _ => ())
      (fun _ _ _ _ d => ∀ n ∈ d.nodes, (NodeRef.node n).Every NodeRef.NthRead)
      (fun _ _ _ s => (NodeRef.selector s).Every NodeRef.NthRead) where
  fresh _ _ := nofun
  plain h hn _ := by
    refine List.forall_mem_cons.2 ⟨?_, h⟩
    cases hn <;> exact (NodeRef.every_of_childless rfl).2 trivial
  comment h _ := List.forall_mem_cons.2 ⟨(NodeRef.every_of_isFiller rfl).2 trivial, h⟩
  bar h hd _ _ span kind name _ := by
    rw [hd, List.forall_mem_append] at h
    exact List.forall_mem_cons.2 ⟨(NodeRef.every_of_childless rfl).2 trivial, h.2⟩
  gap h _ _ := by
    refine List.forall_mem_append.2 ⟨fun n hn => ?_, h⟩
    exact NodeRef.every_nthRead_of_isFiller (Gap.isFiller_of_mem_read hn)
  expression p _ _ := by
    refine List.forall_mem_singleton.2 (NodeRef.every_nth.2 ⟨⟨_, ?_, rfl⟩, fun _ _ => trivial⟩)
    exact (NthDraft.regular_start p).read _
  owned h hd _ hlist stop _ := by
    rw [hd, List.forall_mem_cons] at h
    refine List.forall_mem_cons.2 ⟨NodeRef.every_functional.2 ⟨trivial, fun s hs => ?_⟩, h.2⟩
    obtain ⟨i, hi⟩ := List.mem_iff_getElem?.1 hs
    exact hlist i s hi
  close {_ _ _ d _} h stop := by
    obtain ⟨htrimmed, -⟩ := Selector.forall_trim
      (Q := fun n => (NodeRef.node n).Every NodeRef.NthRead)
      (s := ⟨⟨d.start, stop⟩, d.before, "", d.nodes.reverse⟩)
      (fun n hn => h n (List.mem_reverse.1 hn))
      (fun _ _ _ _ _ => NodeRef.every_nthRead_of_isFiller rfl)
      (fun _ _ _ _ _ => NodeRef.every_nthRead_of_isFiller rfl)
    exact NodeRef.every_selector.2 ⟨trivial, htrimmed⟩

/-- **Which expressions of a parsed tree are in the language.**  An expression in which no part is
flagged spells a formula of the language if and only if its digits are ASCII and, of two parts
before an `of`, the second is an offset with a sign.  So a sign that nothing follows, an offset
without a sign after a step, and digits of other scripts go without a flag.  Of a program whose
tokens have lengths of 32 bits, this speaks if the text is shorter than 4 GiB. -/
theorem parse_formula_iff {source : String} {offset : Nat} {s : Selector} {n : Nth}
    (hs : s ∈ parse source offset) (hn : NodeRef.Within (.node (.nth n)) (.selector s))
    (hne : n.words ≠ []) (hclean : ∀ w ∈ n.words, w.invalid = false) :
    SpellsAnB n.formula ↔ AsciiDigits n.formula ∧
      ∀ a b, n.parts = [a, b] → b.role = .offset ∧ isSigned b.text.toList := by
  obtain ⟨i, hi⟩ := List.mem_iff_getElem?.1 hs
  obtain ⟨d, hd, rfl⟩ := Reads.invariant_nthRead.parse () source offset i s hi _ hn
  exact hd.spellsAnB_iff hne hclean

/-- In `:nth-child(2n- 3 of a)`, a sign stands between the step and the offset. -/
theorem parse_formula_iff_lone_sign :
    let n : Nth := ⟨⟨11, 20⟩, "", "", [.part .step ⟨⟨11, 13⟩, "2n", "", "", false⟩,
      .part .dash ⟨⟨13, 15⟩, "-", "", " ", false⟩, .part .offset ⟨⟨15, 17⟩, "3", "", " ", false⟩,
      .part .of ⟨⟨17, 20⟩, "of", "", " ", false⟩]⟩
    let s : Selector := ⟨⟨0, 22⟩, "", "", [.functional ⟨0, 22⟩ (.colon []) "nth-child"
      (some [⟨⟨11, 21⟩, "", "", [.nth n, .element ⟨20, 21⟩ .type "a" none]⟩])]⟩
    s ∈ parse ":nth-child(2n- 3 of a)" 0 ∧
      NodeRef.Within (.node (.nth n)) (.selector s) ∧ n.words ≠ [] ∧
      (∀ w ∈ n.words, w.invalid = false) ∧ SpellsAnB n.formula := by
  intro n s
  have hs : s ∈ parse ":nth-child(2n- 3 of a)" 0 := by
    have hparse : parse ":nth-child(2n- 3 of a)" 0 = [s] := by decide +kernel
    rw [hparse]
    exact List.mem_singleton_self s
  have hn : NodeRef.Within (.node (.nth n)) (.selector s) := by
    refine .child (List.mem_singleton_self _) (.child (List.mem_singleton_self _) ?_)
    exact .child List.mem_cons_self .self
  have hne : n.words ≠ [] := by decide
  have hclean : ∀ w ∈ n.words, w.invalid = false := by decide
  refine ⟨hs, hn, hne, hclean, (parse_formula_iff hs hn hne hclean).2 ⟨by decide, ?_⟩⟩
  rintro _ _ ⟨⟩

/-- In `:nth-child(2n 3)`, no sign stands between the step and the offset, and neither is flagged.
So not every expression without a flag is in the language. -/
theorem parse_formula_no_sign :
    ¬∀ source offset, ∀ s ∈ parse source offset, ∀ n : Nth,
      NodeRef.Within (.node (.nth n)) (.selector s) → n.words ≠ [] →
        (∀ w ∈ n.words, w.invalid = false) → SpellsAnB n.formula := by
  intro hall
  let n : Nth := ⟨⟨11, 15⟩, "", "", [.part .step ⟨⟨11, 14⟩, "2n", "", " ", false⟩,
    .part .offset ⟨⟨14, 15⟩, "3", "", "", false⟩]⟩
  let s : Selector := ⟨⟨0, 16⟩, "", "", [.functional ⟨0, 16⟩ (.colon []) "nth-child"
    (some [⟨⟨11, 15⟩, "", "", [.nth n]⟩])]⟩
  have hs : s ∈ parse ":nth-child(2n 3)" 0 := by
    have hparse : parse ":nth-child(2n 3)" 0 = [s] := by decide +kernel
    rw [hparse]
    exact List.mem_singleton_self s
  have hn : NodeRef.Within (.node (.nth n)) (.selector s) := by
    refine .child (List.mem_singleton_self _) (.child (List.mem_singleton_self _) ?_)
    exact .child List.mem_cons_self .self
  have hspells : SpellsAnB ("2n".toList ++ "3".toList) :=
    hall ":nth-child(2n 3)" 0 s hs n hn (by decide) (by decide)
  rw [spellsAnB_step_append_iff (isStep_iff.1 (by decide))] at hspells
  obtain ⟨-, hnil | ⟨hsigned, -⟩⟩ := hspells
  · cases hnil
  · cases hsigned

end Selectors
