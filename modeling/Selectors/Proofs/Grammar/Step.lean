import Selectors.Proofs.Grammar.Brackets

/-!
# Steps of the reader in the grammar

A step that leaves no invalid node takes items from the front of the tokens (`Draft.step_sound`),
and a step on the tokens of a list leaves none (`Draft.step_complete`).  The tokens left are then
again those of a list, or they start with the parentheses of the functional selector just read.
-/

namespace Selectors

open Grammar

/-- No item at or below the given one is invalid. -/
def NodeRef.Understood (r : NodeRef) : Prop := r.Every fun x => x.kind ≠ .invalid

namespace Draft

/-- No node of the draft holds an invalid one. -/
def Understood (d : Draft) : Prop := ∀ n ∈ d.nodes, (NodeRef.node n).Understood

/-- The last node is a functional selector without parentheses. -/
def Open (d : Draft) : Prop :=
  ∃ span sigil name nodes, d.nodes = .functional span sigil name none :: nodes

/-- The tokens may follow what the draft has read. -/
def Ready (d : Draft) (n : Nat) (ts : List Token) : Prop := Derives n ts ∨ d.Open ∧ Follows n ts

variable {d : Draft} {n depth : Nat} {t : Token} {ts us vs tail : List Token}

theorem Ready.follows (h : d.Ready n ts) : Follows n ts := h.elim .items And.right

theorem Ready.derives (h : d.Ready n ts) (hd : ¬d.Open) : Derives n ts :=
  h.resolve_right fun ho => hd ho.1

/-! ### Nodes -/

theorem understood_of_isFiller {m : Node} (hm : m.isFiller) : (NodeRef.node m).Understood := by
  refine (NodeRef.every_of_isFiller hm).2 ?_
  cases m <;> simp_all [Node.isFiller, NodeRef.kind, Node.kind]

theorem understood_element (span : Span) (kind : ElementKind) (name : String)
    (ns : Option Namespace) : (NodeRef.node (.element span kind name ns)).Understood := by
  refine every_element.2 ?_
  cases kind <;> simp [NodeRef.kind, Node.kind, ElementKind.kind]

theorem understood_functional (span : Span) (sigil : Sigil) (name : String) :
    (NodeRef.node (.functional span sigil name none)).Understood := by
  refine every_functional_none.2 ?_
  cases sigil <;> simp [NodeRef.kind, Node.kind, Sigil.kind]

theorem not_understood_invalid (span : Span) (text : String) :
    ¬(NodeRef.node (.invalid span text)).Understood := fun h => h.self rfl

theorem understood_push {m : Node} :
    (d.push m).Understood ↔ (NodeRef.node m).Understood ∧ d.Understood := by
  simp [Understood, Draft.push]

theorem not_open_push {m : Node} (hm : ∀ span sigil name, m ≠ .functional span sigil name none) :
    ¬(d.push m).Open := by
  rintro ⟨span, sigil, name, nodes, h⟩
  exact hm span sigil name (List.cons.inj h).1

/-- The draft with a functional selector in the end. -/
def Marks (d d' : Draft) : Prop :=
  ∃ span sigil name, d' = d.push (.functional span sigil name none)

theorem Marks.open {d' : Draft} (h : d.Marks d') : d'.Open := by
  obtain ⟨span, sigil, name, rfl⟩ := h
  exact ⟨span, sigil, name, d.nodes, rfl⟩

theorem Marks.understood_iff {d' : Draft} (h : d.Marks d') : d'.Understood ↔ d.Understood := by
  obtain ⟨span, sigil, name, rfl⟩ := h
  rw [understood_push]
  exact and_iff_right (understood_functional span sigil name)

/-- The draft with nodes that are no functional selectors in the end, and no invalid ones. -/
def Fills (d d' : Draft) : Prop := ¬d'.Open ∧ (d'.Understood ↔ d.Understood)

theorem fills_push {m : Node} (hm : ∀ span sigil name, m ≠ .functional span sigil name none)
    (hu : (NodeRef.node m).Understood) : d.Fills (d.push m) :=
  ⟨not_open_push hm, by rw [understood_push]; exact and_iff_right hu⟩

/-! ### Steps on single items -/

theorem fills_stepGap (d : Draft) (t : Token) (ts : List Token) :
    d.Fills (d.stepGap t ts).draft := by
  have hfiller : ∀ {m : Node}, m ∈ (Gap.read d.nodes.isEmpty t ts).nodes → m.isFiller :=
    Gap.isFiller_of_mem_read
  constructor
  · -- the last node of a gap is a comment or a combinator
    rintro ⟨span, sigil, name, nodes, h⟩
    have hne : (Gap.read d.nodes.isEmpty t ts).nodes ≠ [] := by simp [Gap.nodes]
    obtain ⟨m, ms, hm⟩ := List.exists_cons_of_ne_nil hne
    have hf := hfiller (m := m) (by rw [hm]; exact List.mem_cons_self ..)
    simp only [Draft.stepGap, hm, List.cons_append] at h
    rw [(List.cons.inj h).1] at hf
    cases hf
  · constructor
    · intro h m hm
      exact h m (List.mem_append_right _ hm)
    · intro h m hm
      rcases List.mem_append.1 hm with hm | hm
      · exact understood_of_isFiller (hfiller hm)
      · exact h m hm

theorem fills_stepBar (d : Draft) (t : Token) (ts : List Token) :
    d.Fills (d.stepBar t ts).draft := by
  constructor
  · rintro ⟨span, sigil, name, nodes, h⟩
    cases (List.cons.inj h).1
  · -- what the bar takes are comments and an element
    have hnodes : ∀ q, q = (qualifier? d.nodes).getD ⟨"", t.span.start, [], d.nodes⟩ →
        ((∀ m ∈ q.nodes, (NodeRef.node m).Understood) ↔ d.Understood) := by
      intro q hq
      cases hq' : qualifier? d.nodes with
      | none =>
        rw [hq', Option.getD_none] at hq
        rw [hq]
        rfl
      | some q' =>
        rw [hq', Option.getD_some] at hq
        obtain ⟨span, kind, -, h⟩ := nodes_of_qualifier? hq'
        rw [Understood, h, hq]
        constructor
        · intro hu m hm
          simp only [List.mem_append, List.mem_reverse, List.mem_map, List.mem_singleton] at hm
          rcases hm with (⟨c, -, rfl⟩ | rfl) | hm
          · exact understood_of_isFiller rfl
          · exact understood_element _ _ _ _
          · exact hu m hm
        · intro hu m hm
          exact hu m (List.mem_append_right _ hm)
    rw [← hnodes _ rfl]
    constructor
    · intro h m hm
      exact h m (List.mem_cons_of_mem _ hm)
    · intro h m hm
      rcases List.mem_cons.1 hm with rfl | hm
      · exact understood_element _ _ _ _
      · exact h m hm

/-- A step at a token that is an item on its own takes such tokens only. -/
theorem step_plain (d : Draft) (depth : Nat) (ts : List Token) (ht : t.kind.isPlain)
    (hcomma : t.kind ≠ .comma) :
    ∃ us, us ++ (d.step depth t ts).rest = ts ∧ (∀ u ∈ us, u.kind.isPlain) ∧
      d.Fills (d.step depth t ts).draft := by
  have hgap : ∃ us, us ++ (d.stepGap t ts).rest = ts ∧ (∀ u ∈ us, u.kind.isPlain) ∧
      d.Fills (d.stepGap t ts).draft := by
    refine ⟨ts.takeWhile (·.kind.isGap), List.takeWhile_append_dropWhile, fun u hu => ?_,
      fills_stepGap d t ts⟩
    have hg := List.mem_takeWhile_imp hu
    cases hk : u.kind <;> simp_all [TokenKind.isGap, TokenKind.isPlain]
  have hself : ∀ {m : Node}, (∀ span sigil name, m ≠ .functional span sigil name none) →
      (NodeRef.node m).Understood →
      ∃ us, us ++ ts = ts ∧ (∀ u ∈ us, u.kind.isPlain) ∧ d.Fills (d.push m) := by
    intro m hm hu
    exact ⟨[], rfl, by simp, fills_push hm hu⟩
  unfold Draft.step
  cases hk : t.kind <;> rw [hk] at ht hcomma
  case space | plus | greaterThan | tilde => exact hgap
  case text | star => exact hself (by simp) (understood_element _ _ _ _)
  case comment => exact hself (by simp) (understood_of_isFiller rfl)
  case pipe =>
    have hcs := Token.takeRun_append .comment ts
    have htarget := takeTarget_append (takeComments ts).2
    refine ⟨(Token.takeRun .comment ts).1 ++ (takeTarget (takeComments ts).2).1.toList, ?_, ?_,
      fills_stepBar d t ts⟩
    · rw [List.append_assoc]
      exact (congrArg _ htarget).trans hcs
    · intro u hu
      rcases List.mem_append.1 hu with hu | hu
      · rw [kind_of_mem_takeRun hu]
        rfl
      · exact isPlain_of_mem_takeTarget hu
  all_goals contradiction

/-! ### Steps on functional selectors -/

/-- The comments and the name after a mark. -/
theorem exists_name (ts : List Token) :
    ∃ cs : List Token, ∃ name : Option Token, (∀ c ∈ cs, c.kind = .comment) ∧
      (∀ u ∈ name, u.kind = .text) ∧
      cs ++ (name.toList ++ (Token.take? .text (takeComments ts).2).2) = ts := by
  refine ⟨(Token.takeRun .comment ts).1, (Token.take? .text (takeComments ts).2).1,
    fun c hc => kind_of_mem_takeRun hc, fun u hu => Token.kind_of_take? hu, ?_⟩
  rw [Token.take?_append]
  exact Token.takeRun_append .comment ts

/-- What a step takes for a functional selector is one, unless it leaves an invalid node with all
that it took. -/
theorem step_functional (d : Draft) (depth : Nat) (ts : List Token)
    (ht : startsFunctional t.kind) :
    (d.Marks (d.step depth t ts).draft ∧
        ∃ us, us ++ (d.step depth t ts).rest = ts ∧ Functional (t :: us)) ∨
      ∃ span us, us ++ (d.step depth t ts).rest = ts ∧
        (d.step depth t ts).draft = d.push (.invalid span (Token.join (t :: us))) := by
  obtain ⟨cs, name, hcs, hname, hts⟩ := exists_name ts
  unfold Draft.step
  cases hk : t.kind <;> rw [hk] at ht
  case dot =>
    refine .inl ⟨⟨_, _, _, rfl⟩, cs ++ name.toList, ?_, .dot hk hcs hname⟩
    rw [List.append_assoc]
    exact hts
  case hash =>
    refine .inl ⟨⟨_, _, _, rfl⟩, (Token.take? .text ts).1.toList, Token.take?_append .text ts,
      .hash hk fun u hu => Token.kind_of_take? hu⟩
  case colon =>
    left
    simp only [Draft.stepPseudo]
    split
    · rename_i colon ts' htake
      have hcolon := Token.take?_append .colon (takeComments ts).2
      have hck : colon.kind = .colon := Token.kind_of_take? (congrArg Prod.fst htake)
      rw [htake, Option.toList_some, List.singleton_append] at hcolon
      obtain ⟨ds, name', hds, hname', hts'⟩ := exists_name ts'
      refine ⟨⟨_, _, _, rfl⟩,
        (Token.takeRun .comment ts).1 ++ colon :: (ds ++ name'.toList), ?_,
        .colons hk (fun c hc => kind_of_mem_takeRun hc) hck hds hname'⟩
      rw [List.append_assoc, List.cons_append, List.append_assoc, hts', hcolon]
      exact Token.takeRun_append .comment ts
    · rename_i ts' htake
      have hcolon := Token.take?_append .colon (takeComments ts).2
      rw [htake, Option.toList_none, List.nil_append] at hcolon
      obtain rfl : ts' = (takeComments ts).2 := hcolon
      refine ⟨⟨_, _, _, rfl⟩, cs ++ name.toList, ?_, .colon hk hcs hname⟩
      rw [List.append_assoc]
      exact hts
  case ampersand => exact .inl ⟨⟨_, _, _, rfl⟩, [], rfl, .ampersand hk⟩
  case openBracket =>
    simp only [Draft.stepAttribute, Block.read]
    cases hb : Block.closed? .openBracket .closeBracket 0 ts with
    | some b =>
      obtain ⟨hbalanced, hc, hts⟩ := closed?_iff.1 hb
      refine .inl ⟨⟨_, _, _, rfl⟩, b.inside ++ [b.closer], ?_, .brackets hk hbalanced hc⟩
      rw [List.append_assoc]
      exact hts
    | none => exact .inr ⟨_, _, List.takeWhile_append_dropWhile, rfl⟩
  all_goals contradiction

/-- Any other token leaves an invalid node with all that the step took. -/
theorem step_invalid (d : Draft) (depth : Nat) (ts : List Token) (hp : ¬t.kind.isPlain)
    (hs : ¬startsFunctional t.kind) :
    ∃ span us, us ++ (d.step depth t ts).rest = ts ∧
      (d.step depth t ts).draft = d.push (.invalid span (Token.join (t :: us))) := by
  unfold Draft.step
  cases hk : t.kind <;> rw [hk] at hp hs
  case openParen =>
    exact ⟨_, _, Block.read_append .openParen .closeParen (fun _ => false) ts, rfl⟩
  case string | unclosedString | unclosedComment | closeParen | closeBracket | openCurly |
      closeCurly | eof =>
    refine ⟨t.span, [], rfl, ?_⟩
    rw [Token.join, Token.join, String.append_empty]
  case text | star | pipe | comma | space | plus | greaterThan | tilde | comment =>
    exact absurd rfl hp
  case dot | colon | hash | ampersand | openBracket => exact absurd rfl hs

/-- **A step that leaves no invalid node takes items**: with tokens that may follow, what it took
belongs to a list. -/
theorem step_sound (d : Draft) (depth : Nat) (ts : List Token) (hcomma : t.kind ≠ .comma)
    (hu : (d.step depth t ts).draft.Understood) :
    d.Understood ∧ ∃ us, us ++ (d.step depth t ts).rest = t :: ts ∧
      ∀ n vs, (d.step depth t ts).draft.Ready n vs → Derives n (us ++ vs) := by
  -- this excludes the steps that keep a token, or an unclosed block, as invalid
  have hvalid : ∀ span text, (d.step depth t ts).draft ≠ d.push (.invalid span text) := by
    intro span text h
    rw [h] at hu
    exact not_understood_invalid span text (understood_push.1 hu).1
  by_cases hp : t.kind.isPlain
  · obtain ⟨us, hus, hplain, hopen, hiff⟩ := step_plain d depth ts hp hcomma
    refine ⟨hiff.1 hu, t :: us, by rw [List.cons_append, hus], fun n vs hv => ?_⟩
    have hall : ∀ u ∈ t :: us, u.kind.isPlain := List.forall_mem_cons.2 ⟨hp, hplain⟩
    exact (derives_plain hall).append (hv.derives hopen)
  · by_cases hs : startsFunctional t.kind
    · rcases step_functional d depth ts hs with ⟨hmarks, us, hus, hf⟩ | ⟨span, us, -, h⟩
      · refine ⟨hmarks.understood_iff.1 hu, t :: us, by rw [List.cons_append, hus], ?_⟩
        intro n vs hv
        exact hf.derives_append hv.follows
      · exact absurd h (hvalid span _)
    · obtain ⟨span, us, -, h⟩ := step_invalid d depth ts hp hs
      exact absurd h (hvalid span _)

theorem marks_stepPseudo (d : Draft) (t : Token) (ts : List Token) :
    d.Marks (d.stepPseudo t ts).draft := by
  simp only [Draft.stepPseudo]
  split <;> exact ⟨_, _, _, rfl⟩

theorem rest_stepPseudo_some {u : Token}
    (h : Token.take? .colon (takeComments ts).2 = (some u, us)) :
    (d.stepPseudo t ts).rest = (Token.take? .text (takeComments us).2).2 := by
  simp only [Draft.stepPseudo, h]

theorem rest_stepPseudo_none (h : Token.take? .colon (takeComments ts).2 = (none, us)) :
    (d.stepPseudo t ts).rest = (Token.take? .text us).2 := by
  simp only [Draft.stepPseudo, h]

/-- A pseudo-class of a derivation, which may be read as a pseudo-element when a colon and a name
follow it. -/
theorem rest_pseudoClass {cs : List Token} {name : Option Token}
    (hcs : ∀ c ∈ cs, c.kind = .comment) (hname : ∀ u ∈ name, u.kind = .text)
    (hv : Follows n vs) (htail : Ends tail) :
    ∃ ws, (d.stepPseudo t (cs ++ (name.toList ++ (vs ++ tail)))).rest = ws ++ tail ∧
      Follows n ws := by
  cases name with
  | some u =>
    have hk : u.kind = .text := hname u rfl
    have htake : Token.take? .colon (takeComments (cs ++ u :: (vs ++ tail))).2 =
        (none, u :: (vs ++ tail)) := by
      rw [takeComments_cons hcs (by rw [hk]; decide), Token.take?, if_neg (by rw [hk]; decide)]
    refine ⟨vs, ?_, hv⟩
    rw [Option.toList_some, List.singleton_append, rest_stepPseudo_none htake, Token.take?,
      if_pos (by rw [hk]; rfl)]
  | none =>
    obtain ⟨ws, hws, hf⟩ := rest_comments hcs hv htail
    rw [Option.toList_none, List.nil_append]
    cases hcolon : Token.take? .colon (takeComments (cs ++ (vs ++ tail))).2 with
    | mk colon us =>
      have happ := Token.take?_append .colon (takeComments (cs ++ (vs ++ tail))).2
      rw [hcolon, hws] at happ
      cases colon with
      | some u =>
        rw [rest_stepPseudo_some hcolon]
        have huk : u.kind = .colon := Token.kind_of_take? (congrArg Prod.fst hcolon)
        obtain ⟨ws, rfl, rfl⟩ := htail.uncons happ.symm (by rw [huk]; decide)
        exact rest_colon (hf.derives (by rw [huk]; decide)) huk htail
      | none =>
        rw [rest_stepPseudo_none hcolon]
        obtain rfl : us = ws ++ tail := happ
        exact hf.rest htail (Token.take?_append .text (ws ++ tail)) fun u hu =>
          isPlain_of_mem_take? rfl hu

/-- A functional selector of a derivation is read as one, though maybe with more tokens. -/
theorem step_marks (d : Draft) (depth : Nat) (hf : Functional (t :: us)) (hv : Follows n vs)
    (htail : Ends tail) :
    d.Marks (d.step depth t (us ++ (vs ++ tail))).draft ∧
      ∃ ws, (d.step depth t (us ++ (vs ++ tail))).rest = ws ++ tail ∧ Follows n ws := by
  generalize hl : t :: us = l at hf
  cases hf with
  | @dot t' cs name ht hcs hname =>
    cases hl
    simp only [Draft.step, ht, List.append_assoc]
    exact ⟨⟨_, _, _, rfl⟩, rest_name hcs hname hv htail⟩
  | @colon t' cs name ht hcs hname =>
    cases hl
    simp only [Draft.step, ht, List.append_assoc]
    exact ⟨marks_stepPseudo d t _, rest_pseudoClass hcs hname hv htail⟩
  | @colons t' u cs ds name ht hcs hu hds hname =>
    cases hl
    simp only [Draft.step, ht, List.append_assoc, List.cons_append]
    refine ⟨marks_stepPseudo d t _, ?_⟩
    have htake : Token.take? .colon
        (takeComments (cs ++ u :: (ds ++ (name.toList ++ (vs ++ tail))))).2 =
        (some u, ds ++ (name.toList ++ (vs ++ tail))) := by
      rw [takeComments_cons hcs (by rw [hu]; decide), Token.take?, if_pos (by rw [hu]; rfl)]
    rw [rest_stepPseudo_some htake]
    exact rest_name hds hname hv htail
  | @hash t' name ht hname =>
    cases hl
    simp only [Draft.step, ht, Draft.stepId]
    refine ⟨⟨_, _, _, rfl⟩, ?_⟩
    cases name with
    | some u => exact ⟨vs, by simp [Token.take?, hname u rfl], hv⟩
    | none =>
      exact hv.rest htail (Token.take?_append .text (vs ++ tail)) fun u hu =>
        isPlain_of_mem_take? rfl hu
  | @ampersand t' ht =>
    cases hl
    simp only [Draft.step, ht]
    exact ⟨⟨_, _, _, rfl⟩, vs, rfl, hv⟩
  | @brackets o c us' ho hu hc =>
    cases hl
    have hb : Block.closed? .openBracket .closeBracket 0 (us' ++ c :: (vs ++ tail)) =
        some ⟨us', c, vs ++ tail⟩ := closed?_iff.2 ⟨hu, hc, rfl⟩
    simp only [Draft.step, ho, Draft.stepAttribute, Block.read, List.append_assoc,
      List.singleton_append, hb]
    exact ⟨⟨_, _, _, rfl⟩, vs, rfl, hv⟩

/-- **A step on the tokens of a list leaves no invalid node**, and the tokens left may follow what
was read. -/
theorem step_complete (d : Draft) (depth : Nat) (hcomma : t.kind ≠ .comma)
    (h : Derives n (t :: us)) (htail : Ends tail) :
    ((d.step depth t (us ++ tail)).draft.Understood ↔ d.Understood) ∧
      ∃ ws, (d.step depth t (us ++ tail)).rest = ws ++ tail ∧
        (d.step depth t (us ++ tail)).draft.Ready n ws := by
  rcases h.cons_cases with ⟨hp, hd⟩ | ⟨-, us, vs, hf, rfl, hv⟩
  · obtain ⟨vs, hvs, hplain, -, hiff⟩ := step_plain d depth (us ++ tail) hp hcomma
    obtain ⟨ws, rfl, hws⟩ := htail.split hvs hplain
    exact ⟨hiff, ws, hws, .inl (hd.drop hplain)⟩
  · rw [List.append_assoc]
    obtain ⟨hmarks, ws, hws, hf'⟩ := step_marks d depth hf hv htail
    exact ⟨hmarks.understood_iff, ws, hws, .inr ⟨hmarks.open, hf'⟩⟩

end Draft

end Selectors
