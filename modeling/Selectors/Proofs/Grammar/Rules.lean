import Selectors.Token

/-!
# The bracket grammar of selector lists

Which tokens may follow which hardly matters to the reader: it keeps what it can not make sense
of.  What it needs is that brackets close, and that a parenthesis opens right after a functional
selector that owns none yet.  `Derives n` states just that for a list of tokens, with at most `n`
parentheses inside one another.

* `Derives.head`: the first item of a list of tokens, and what follows it.
* `Derives.tail`: a token that is an item on its own may be dropped from the front.
-/

namespace Selectors

/-- The tokens that are items on their own. -/
def TokenKind.isPlain : TokenKind → Bool
  | text | star | pipe | comma | space | plus | greaterThan | tilde | comment => true
  | _ => false

namespace Grammar

variable {n : Nat} {t : Token} {ts us vs : List Token}

/-- Brackets in the tokens are closed; all other tokens may stand anywhere. -/
inductive Balanced : List Token → Prop where
  | nil : Balanced []
  | other {t : Token} {ts : List Token} (ho : t.kind ≠ .openBracket) (hc : t.kind ≠ .closeBracket)
      (h : Balanced ts) : Balanced (t :: ts)
  | block {o c : Token} {us ts : List Token} (ho : o.kind = .openBracket)
      (hc : c.kind = .closeBracket) (hu : Balanced us) (h : Balanced ts) :
      Balanced (o :: (us ++ c :: ts))

/-- The tokens of a functional selector, its parentheses apart. -/
inductive Functional : List Token → Prop where
  | dot {t : Token} {cs : List Token} {name : Option Token} (ht : t.kind = .dot)
      (hcs : ∀ c ∈ cs, c.kind = .comment) (hname : ∀ u ∈ name, u.kind = .text) :
      Functional (t :: (cs ++ name.toList))
  | colon {t : Token} {cs : List Token} {name : Option Token} (ht : t.kind = .colon)
      (hcs : ∀ c ∈ cs, c.kind = .comment) (hname : ∀ u ∈ name, u.kind = .text) :
      Functional (t :: (cs ++ name.toList))
  | colons {t u : Token} {cs ds : List Token} {name : Option Token} (ht : t.kind = .colon)
      (hcs : ∀ c ∈ cs, c.kind = .comment) (hu : u.kind = .colon)
      (hds : ∀ d ∈ ds, d.kind = .comment) (hname : ∀ v ∈ name, v.kind = .text) :
      Functional (t :: (cs ++ u :: (ds ++ name.toList)))
  | hash {t : Token} {name : Option Token} (ht : t.kind = .hash)
      (hname : ∀ u ∈ name, u.kind = .text) : Functional (t :: name.toList)
  | ampersand {t : Token} (ht : t.kind = .ampersand) : Functional [t]
  | brackets {o c : Token} {us : List Token} (ho : o.kind = .openBracket) (hu : Balanced us)
      (hc : c.kind = .closeBracket) : Functional (o :: (us ++ [c]))

/-- The tokens of a list of selectors in which at most `n` parentheses stand inside one another:
none, or such tokens and one more item. -/
inductive Derives : Nat → List Token → Prop where
  | empty {n : Nat} : Derives n []
  | plain {n : Nat} {ts : List Token} {t : Token} (h : Derives n ts) (ht : t.kind.isPlain) :
      Derives n (ts ++ [t])
  | functional {n : Nat} {ts us : List Token} (h : Derives n ts) (hu : Functional us) :
      Derives n (ts ++ us)
  | parens {n : Nat} {ts us vs : List Token} {o c : Token} (h : Derives (n + 1) ts)
      (hu : Functional us) (ho : o.kind = .openParen) (hv : Derives n vs)
      (hc : c.kind = .closeParen) : Derives (n + 1) (ts ++ (us ++ o :: (vs ++ [c])))

theorem Derives.append (ht : Derives n ts) (hu : Derives n us) : Derives n (ts ++ us) := by
  induction hu with
  | empty => rwa [List.append_nil]
  | plain _ hk ih =>
    rw [← List.append_assoc]
    exact .plain (ih ht) hk
  | functional _ hf ih =>
    rw [← List.append_assoc]
    exact .functional (ih ht) hf
  | parens _ hf ho hv hc ih =>
    rw [← List.append_assoc]
    exact .parens (ih ht) hf ho hv hc

theorem derives_singleton (ht : t.kind.isPlain) : Derives n [t] := by
  rw [← List.nil_append [t]]
  exact .plain .empty ht

theorem Functional.derives (hf : Functional us) : Derives n us := by
  rw [← List.nil_append us]
  exact .functional .empty hf

theorem Functional.derives_parens {o c : Token} (hf : Functional us) (ho : o.kind = .openParen)
    (hv : Derives n vs) (hc : c.kind = .closeParen) :
    Derives (n + 1) (us ++ o :: (vs ++ [c])) := by
  rw [← List.nil_append (us ++ o :: (vs ++ [c]))]
  exact .parens .empty hf ho hv hc

theorem derives_plain (h : ∀ u ∈ us, u.kind.isPlain) : Derives n us := by
  induction us with
  | nil => exact .empty
  | cons u us ih =>
    have hu : Derives n [u] := derives_singleton (h u (List.mem_cons_self ..))
    exact hu.append (ih fun v hv => h v (List.mem_cons_of_mem u hv))

/-! ### What may follow a functional selector -/

/-- What may follow a functional selector: any items, or its parentheses and then any items. -/
inductive Follows : Nat → List Token → Prop where
  | items {n : Nat} {ts : List Token} (h : Derives n ts) : Follows n ts
  | parens {n : Nat} {o c : Token} {us ts : List Token} (ho : o.kind = .openParen)
      (hu : Derives n us) (hc : c.kind = .closeParen) (h : Derives (n + 1) ts) :
      Follows (n + 1) (o :: (us ++ c :: ts))

theorem Follows.append (ht : Follows n ts) (hu : Derives n us) : Follows n (ts ++ us) := by
  cases ht with
  | items h => exact .items (h.append hu)
  | parens ho hv hc h =>
    rw [List.cons_append, List.append_assoc, List.cons_append]
    exact .parens ho hv hc (h.append hu)

/-- A functional selector and what may follow it. -/
theorem Functional.derives_append (hf : Functional us) (h : Follows n ts) :
    Derives n (us ++ ts) := by
  cases h with
  | items h => exact hf.derives.append h
  | @parens n o c vs ts ho hv hc h =>
    have := (hf.derives_parens ho hv hc).append h
    simpa using this

/-! ### The first item -/

/-- The first item of some tokens, and what follows it. -/
inductive Head : Nat → List Token → Prop where
  | plain {n : Nat} {t : Token} {ts : List Token} (ht : t.kind.isPlain) (h : Derives n ts) :
      Head n (t :: ts)
  | functional {n : Nat} {us ts : List Token} (hu : Functional us) (h : Follows n ts) :
      Head n (us ++ ts)

/-- **Tokens of a list start with an item**, and what follows it may follow it. -/
theorem Derives.head (h : Derives n ts) : ts = [] ∨ Head n ts := by
  -- an item added at the end is the first one or goes to what follows the first one
  have hadd : ∀ {m : Nat} {us vs : List Token}, Derives m vs → Head m us → Head m (us ++ vs) := by
    intro m us vs hv hu
    cases hu with
    | plain hk hd => exact .plain hk (hd.append hv)
    | functional hf hw =>
      rw [List.append_assoc]
      exact .functional hf (hw.append hv)
  induction h with
  | empty => exact .inl rfl
  | @plain n ts t _ hk ih =>
    right
    rcases ih with rfl | ih
    · exact .plain hk .empty
    · exact hadd (derives_singleton hk) ih
  | @functional n ts us _ hf ih =>
    right
    rcases ih with rfl | ih
    · have := Head.functional hf (.items (.empty (n := n)))
      rwa [List.append_nil] at this
    · exact hadd hf.derives ih
  | @parens n ts us vs o c _ hf ho hv hc ih =>
    right
    rcases ih with rfl | ih
    · rw [List.nil_append]
      exact .functional hf (.parens ho hv hc .empty)
    · exact hadd (hf.derives_parens ho hv hc) ih

/-- The kinds of the tokens that functional selectors start with. -/
def startsFunctional : TokenKind → Bool
  | .dot | .colon | .hash | .ampersand | .openBracket => true
  | _ => false

theorem Functional.head (h : Functional us) :
    ∃ t ts, us = t :: ts ∧ startsFunctional t.kind := by
  cases h <;> exact ⟨_, _, rfl, by simp_all [startsFunctional]⟩

/-- A first token that is an item on its own, or a functional selector in front. -/
theorem Derives.cons_cases (h : Derives n (t :: ts)) :
    t.kind.isPlain ∧ Derives n ts ∨
      startsFunctional t.kind ∧ ∃ us vs, Functional (t :: us) ∧ ts = us ++ vs ∧ Follows n vs := by
  rcases h.head with h | h
  · cases h
  · generalize hts : t :: ts = l at h
    cases h with
    | plain hk hd =>
      cases hts
      exact .inl ⟨hk, hd⟩
    | @functional us vs hf hv =>
      right
      obtain ⟨u, us, rfl, hu⟩ := hf.head
      cases hts
      exact ⟨hu, us, vs, hf, rfl, hv⟩

/-- No parenthesis starts the tokens of a list. -/
theorem Derives.ne_parens (h : Derives n (t :: ts)) :
    t.kind ≠ .openParen ∧ t.kind ≠ .closeParen := by
  have hstart : t.kind.isPlain ∨ startsFunctional t.kind := h.cons_cases.imp And.left And.left
  constructor
  · intro hk
    rw [hk] at hstart
    exact absurd hstart (by decide)
  · intro hk
    rw [hk] at hstart
    exact absurd hstart (by decide)

/-- What may follow a functional selector and does not start with a parenthesis are items. -/
theorem Follows.derives (h : Follows n (t :: ts)) (hk : t.kind ≠ .openParen) :
    Derives n (t :: ts) := by
  cases h with
  | items h => exact h
  | parens ho => exact absurd ho hk

/-- A parenthesis after a functional selector starts its list. -/
theorem Follows.list (h : Follows n (t :: ts)) (hk : t.kind = .openParen) :
    ∃ m us c vs, n = m + 1 ∧ ts = us ++ c :: vs ∧ Derives m us ∧ c.kind = .closeParen ∧
      Derives n vs := by
  cases h with
  | items h => exact absurd hk h.ne_parens.1
  | parens ho hu hc h => exact ⟨_, _, _, _, rfl, rfl, hu, hc, h⟩

/-- **A token that is an item on its own may be dropped from the front.** -/
theorem Derives.tail (h : Derives n (t :: ts)) (ht : t.kind.isPlain) : Derives n ts := by
  rcases h.cons_cases with ⟨-, h⟩ | ⟨hs, -⟩
  · exact h
  · cases hk : t.kind <;> simp_all [TokenKind.isPlain, startsFunctional]

theorem Derives.drop (h : Derives n (us ++ ts)) (hu : ∀ u ∈ us, u.kind.isPlain) :
    Derives n ts := by
  induction us with
  | nil => exact h
  | cons u us ih =>
    exact ih (h.tail (hu u (List.mem_cons_self ..))) fun v hv => hu v (List.mem_cons_of_mem u hv)

/-- What follows a functional selector may lose tokens that are items on their own. -/
theorem Follows.drop (h : Follows n (us ++ ts)) (hu : ∀ u ∈ us, u.kind.isPlain) :
    Follows n ts := by
  cases us with
  | nil => exact h
  | cons u us =>
    generalize hl : u :: us ++ ts = l at h
    cases h with
    | items h =>
      subst hl
      exact .items (h.drop hu)
    | parens ho =>
      have hk := hu u (List.mem_cons_self ..)
      rw [(List.cons.inj hl).1, ho] at hk
      cases hk

end Grammar

end Selectors
