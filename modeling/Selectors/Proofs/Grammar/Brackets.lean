import Mathlib.Data.List.TakeWhile
import Selectors.Proofs.Coverage.Step
import Selectors.Proofs.Grammar.Rules

/-!
# Blocks and names in the grammar

What the reader takes for a block in brackets is a block of the grammar, and the other way round
(`Block.closed?_iff`).  What it takes for a name may be longer than the name in a derivation, as
comments and text are items as well, but it never reaches beyond the tokens of the list
(`rest_name`).
-/

namespace Selectors

namespace Grammar

variable {n level : Nat} {t : Token} {ts us vs tail : List Token}

/-! ### Brackets -/

/-- The tokens close as many brackets as `level` says, and then all those they open. -/
def Closes : Nat → List Token → Prop
  | 0, ts => Balanced ts
  | level + 1, ts =>
    ∃ us c vs, ts = us ++ c :: vs ∧ c.kind = .closeBracket ∧ Balanced us ∧ Closes level vs

theorem closes_other (ho : t.kind ≠ .openBracket) (hc : t.kind ≠ .closeBracket)
    (h : Closes level ts) : Closes level (t :: ts) := by
  cases level with
  | zero => exact .other ho hc h
  | succ level =>
    obtain ⟨us, c, vs, rfl, hk, hu, hv⟩ := h
    exact ⟨t :: us, c, vs, rfl, hk, .other ho hc hu, hv⟩

theorem closes_open (ho : t.kind = .openBracket) (h : Closes (level + 1) ts) :
    Closes level (t :: ts) := by
  obtain ⟨us, c, vs, rfl, hk, hu, hv⟩ := h
  cases level with
  | zero => exact .block ho hk hu hv
  | succ level =>
    obtain ⟨us', c', vs', rfl, hk', hu', hv'⟩ := hv
    exact ⟨t :: (us ++ c :: us'), c', vs', by simp, hk', .block ho hk hu hu', hv'⟩

theorem closes_close (hc : t.kind = .closeBracket) (h : Closes level ts) :
    Closes (level + 1) (t :: ts) := ⟨[], t, ts, rfl, hc, .nil, h⟩

theorem closes_of_closed? {b : ClosedBlock}
    (h : Block.closed? .openBracket .closeBracket level ts = some b) : Closes level b.inside := by
  fun_induction Block.closed? .openBracket .closeBracket level ts generalizing b with
  | case1 => cases h
  | case2 level t ts hk ih =>
    obtain ⟨c, hc, rfl⟩ := Option.map_eq_some_iff.1 h
    exact closes_open hk (ih hc)
  | case3 t ts hk hc =>
    cases h
    exact .nil
  | case4 t ts hk hc level ih =>
    obtain ⟨c, hc', rfl⟩ := Option.map_eq_some_iff.1 h
    exact closes_close hc (ih hc')
  | case5 level t ts hk hc ih =>
    obtain ⟨c, hc', rfl⟩ := Option.map_eq_some_iff.1 h
    exact closes_other hk hc (ih hc')

theorem closed?_cons (ho : t.kind ≠ .openBracket) (hc : t.kind ≠ .closeBracket) :
    Block.closed? .openBracket .closeBracket level (t :: ts) =
      (Block.closed? .openBracket .closeBracket level ts).map fun b =>
        { b with inside := t :: b.inside } := by
  rw [Block.closed?.eq_def]
  simp [ho, hc]

theorem closed?_open (ho : t.kind = .openBracket) :
    Block.closed? .openBracket .closeBracket level (t :: ts) =
      (Block.closed? .openBracket .closeBracket (level + 1) ts).map fun b =>
        { b with inside := t :: b.inside } := by
  rw [Block.closed?.eq_def]
  simp [ho]

theorem closed?_close (hc : t.kind = .closeBracket) :
    Block.closed? .openBracket .closeBracket (level + 1) (t :: ts) =
      (Block.closed? .openBracket .closeBracket level ts).map fun b =>
        { b with inside := t :: b.inside } := by
  rw [Block.closed?.eq_def]
  simp [hc]

/-- A reader of blocks passes over balanced tokens. -/
theorem closed?_append (h : Balanced us) :
    Block.closed? .openBracket .closeBracket level (us ++ ts) =
      (Block.closed? .openBracket .closeBracket level ts).map fun b =>
        { b with inside := us ++ b.inside } := by
  induction h generalizing level ts with
  | nil => simp
  | @other t us ho hc _ ih =>
    rw [List.cons_append, closed?_cons ho hc, ih, Option.map_map]
    rfl
  | @block o c us vs ho hc _ _ ihu ihv =>
    rw [List.cons_append, closed?_open ho, List.append_assoc, ihu, List.cons_append,
      closed?_close hc, ihv]
    simp only [Option.map_map]
    congr 1
    funext b
    simp

/-- **The block of an attribute is balanced**, and every balanced block is read as one. -/
theorem closed?_iff {b : ClosedBlock} :
    Block.closed? .openBracket .closeBracket 0 ts = some b ↔
      Balanced b.inside ∧ b.closer.kind = .closeBracket ∧ b.inside ++ b.closer :: b.rest = ts := by
  constructor
  · intro h
    exact ⟨closes_of_closed? h, Block.closed?_closer h, Block.closed?_append h⟩
  · rintro ⟨hb, hc, rfl⟩
    rw [closed?_append hb, Block.closed?, if_neg (by rw [hc]; decide), if_pos hc]
    simp

/-! ### The end of a list -/

/-- Tokens at which a list ends: none are left, or a parenthesis closes the list. -/
def Ends (tail : List Token) : Prop := ∀ t ∈ tail.head?, t.kind = .closeParen

/-- A token that does not end a list stands in the list. -/
theorem Ends.uncons (ht : Ends tail) (h : us ++ tail = t :: ts) (hk : t.kind ≠ .closeParen) :
    ∃ vs, us = t :: vs ∧ vs ++ tail = ts := by
  cases us with
  | nil => exact absurd (ht t (by rw [← List.nil_append tail, h]; rfl)) hk
  | cons u us =>
    rw [List.cons_append, List.cons.injEq] at h
    obtain ⟨rfl, h⟩ := h
    exact ⟨us, rfl, h⟩

/-- Items that are tokens on their own do not reach beyond the end of a list. -/
theorem Ends.split {rest : List Token} (ht : Ends tail) (h : vs ++ rest = us ++ tail)
    (hv : ∀ v ∈ vs, v.kind.isPlain) : ∃ ws, us = vs ++ ws ∧ rest = ws ++ tail := by
  induction vs generalizing us with
  | nil => exact ⟨us, rfl, h⟩
  | cons v vs ih =>
    have hk := hv v (List.mem_cons_self ..)
    have hclose : v.kind ≠ .closeParen := by
      intro hclose
      rw [hclose] at hk
      cases hk
    obtain ⟨us, rfl, hus⟩ := ht.uncons h.symm hclose
    obtain ⟨ws, rfl, hws⟩ := ih hus.symm fun w hw => hv w (List.mem_cons_of_mem v hw)
    exact ⟨ws, rfl, hws⟩

/-- What follows a functional selector still may after tokens that are items on their own. -/
theorem Follows.rest {rest : List Token} (hu : Follows n us) (ht : Ends tail)
    (h : vs ++ rest = us ++ tail) (hv : ∀ v ∈ vs, v.kind.isPlain) :
    ∃ ws, rest = ws ++ tail ∧ Follows n ws := by
  obtain ⟨ws, rfl, hws⟩ := ht.split h hv
  exact ⟨ws, hws, hu.drop hv⟩

/-! ### Names -/

theorem isPlain_of_mem_take? {k : TokenKind} (hk : k.isPlain)
    (h : t ∈ (Token.take? k ts).1.toList) : t.kind.isPlain := by
  rw [Token.kind_of_take? (Option.mem_toList.1 h)]
  exact hk

theorem isPlain_of_mem_takeTarget (h : t ∈ (Draft.takeTarget ts).1.toList) :
    t.kind.isPlain := by
  unfold Draft.takeTarget at h
  split at h
  · rename_i name us htake
    exact isPlain_of_mem_take? rfl (by rw [htake]; exact h)
  · exact isPlain_of_mem_take? rfl h

theorem kind_of_mem_takeRun {k : TokenKind} (h : t ∈ (Token.takeRun k ts).1) : t.kind = k := by
  simpa using List.mem_takeWhile_imp h

theorem takeRun_append_rest {k : TokenKind} (h : ∀ u ∈ us, u.kind = k) :
    (Token.takeRun k (us ++ ts)).2 = (Token.takeRun k ts).2 := by
  refine List.dropWhile_append_of_pos fun u hu => ?_
  simpa using h u hu

/-- The comments at the front leave what may follow a functional selector. -/
theorem rest_comments (hcs : ∀ c ∈ us, c.kind = .comment) (hv : Follows n vs) (ht : Ends tail) :
    ∃ ws, (Draft.takeComments (us ++ (vs ++ tail))).2 = ws ++ tail ∧ Follows n ws := by
  have hrest : (Draft.takeComments (us ++ (vs ++ tail))).2 =
      (Token.takeRun .comment (vs ++ tail)).2 := takeRun_append_rest hcs
  rw [hrest]
  refine hv.rest ht (Token.takeRun_append .comment (vs ++ tail)) fun u hu => ?_
  rw [kind_of_mem_takeRun hu]
  rfl

/-- Comments that a name or a mark ends are read up to it. -/
theorem takeComments_cons (hcs : ∀ c ∈ us, c.kind = .comment) (ht : t.kind ≠ .comment) :
    (Draft.takeComments (us ++ t :: ts)).2 = t :: ts := by
  have hrest : (Draft.takeComments (us ++ t :: ts)).2 = (Token.takeRun .comment (t :: ts)).2 :=
    takeRun_append_rest hcs
  rw [hrest, Token.takeRun, List.dropWhile_cons_of_neg (by simpa using ht)]

/-- **The comments and the name after a mark leave what may follow a functional selector.** -/
theorem rest_name {name : Option Token} (hcs : ∀ c ∈ us, c.kind = .comment)
    (hname : ∀ u ∈ name, u.kind = .text) (hv : Follows n vs) (ht : Ends tail) :
    ∃ ws, (Token.take? .text (Draft.takeComments (us ++ (name.toList ++ (vs ++ tail)))).2).2 =
      ws ++ tail ∧ Follows n ws := by
  cases name with
  | some u =>
    have hk : u.kind = .text := hname u rfl
    refine ⟨vs, ?_, hv⟩
    rw [Option.toList_some, List.singleton_append, takeComments_cons hcs (by rw [hk]; decide),
      Token.take?, if_pos (by rw [hk]; rfl)]
  | none =>
    obtain ⟨ws, hws, hf⟩ := rest_comments hcs hv ht
    rw [Option.toList_none, List.nil_append, hws]
    exact hf.rest ht (Token.take?_append .text (ws ++ tail)) fun u hu =>
      isPlain_of_mem_take? rfl hu

/-- After a colon comes a name, or a further functional selector. -/
theorem rest_colon (h : Derives n (t :: us)) (hk : t.kind = .colon) (ht : Ends tail) :
    ∃ ws, (Token.take? .text (Draft.takeComments (us ++ tail)).2).2 = ws ++ tail ∧
      Follows n ws := by
  rcases h.cons_cases with ⟨hp, -⟩ | ⟨-, us, vs, hf, rfl, hv⟩
  · rw [hk] at hp
    cases hp
  · generalize hl : t :: us = l at hf
    cases hf with
    | @colon t' cs name _ hcs hname =>
      cases hl
      simpa only [List.append_assoc] using rest_name hcs hname hv ht
    | @colons t' u cs ds name _ hcs hu hds hname =>
      cases hl
      refine ⟨u :: (ds ++ name.toList) ++ vs, ?_,
        .items ((Functional.colon hu hds hname).derives_append hv)⟩
      rw [List.append_assoc, List.append_assoc, List.cons_append,
        takeComments_cons hcs (by rw [hu]; decide), Token.take?, if_neg (by rw [hu]; decide)]
      simp
    | dot hk' | hash hk' | ampersand hk' | brackets hk' =>
      cases hl
      rw [hk] at hk'
      cases hk'

end Grammar

end Selectors
