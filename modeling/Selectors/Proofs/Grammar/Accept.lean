import Selectors.Proofs.Coverage.List
import Selectors.Proofs.Grammar.Step

/-!
# What the reader understands

A text reads without an invalid node exactly if its tokens form a list of the bracket grammar
(`parse_understood_iff`).  Both directions are inductions over the rules of reading: a reading
that leaves no invalid node has taken the tokens of a list (`Reads.sound`), and a reading of the
tokens of a list takes just these and leaves no invalid node (`Reads.complete`).
-/

namespace Selectors

open Grammar

/-! ### Lists being read -/

/-- Closing a selector removes no invalid node and adds none. -/
theorem Draft.understood_close (d : Draft) (stop : Nat) :
    (NodeRef.selector (d.close stop)).Understood ↔ d.Understood := by
  have hfiller : ∀ m : Node, m.isFiller → (NodeRef.node m).kind ≠ .invalid := fun m hm =>
    (understood_of_isFiller hm).self
  rw [NodeRef.Understood, NodeRef.every_selector, Draft.close, Selector.every_trim hfiller]
  constructor
  · rintro ⟨-, h⟩ m hm
    exact h m (List.mem_reverse.2 hm)
  · intro h
    exact ⟨by simp [NodeRef.kind], fun m hm => h m (List.mem_reverse.1 hm)⟩

namespace Builder

variable {b : Builder} {d : Draft} {n : Nat} {t : Token} {ts : List Token}

/-- No selector read so far holds an invalid node. -/
def Understood (b : Builder) : Prop :=
  (∀ s ∈ b.closed, (NodeRef.selector s).Understood) ∧ ∀ d ∈ b.draft, d.Understood

/-- The last node read is a functional selector without parentheses. -/
def Open (b : Builder) : Prop := ∃ d ∈ b.draft, d.Open

/-- The tokens may follow what was read. -/
def Ready (b : Builder) (n : Nat) (ts : List Token) : Prop := Derives n ts ∨ b.Open ∧ Follows n ts

theorem Ready.follows (h : b.Ready n ts) : Follows n ts := h.elim .items And.right

theorem understood_empty : Understood {} := by simp [Understood]

theorem not_open_empty : ¬Open {} := by simp [Open]

theorem understood_set : (b.set d).Understood ↔
    (∀ s ∈ b.closed, (NodeRef.selector s).Understood) ∧ d.Understood := by
  simp [Understood, Builder.set]

theorem open_set : (b.set d).Open ↔ d.Open := by simp [Open, Builder.set]

theorem ready_set : (b.set d).Ready n ts ↔ d.Ready n ts := by
  rw [Ready, open_set, Draft.Ready]

theorem understood_iff_current (t : Token) : b.Understood ↔
    (∀ s ∈ b.closed, (NodeRef.selector s).Understood) ∧ (b.current t).Understood := by
  cases hd : b.draft <;> simp [Understood, Builder.current, Draft.Understood, hd]

theorem open_iff_current (t : Token) : b.Open ↔ (b.current t).Open := by
  cases hd : b.draft <;> simp [Open, Builder.current, Draft.Open, hd]

theorem understood_comma : (b.comma t).Understood ↔ b.Understood := by
  have hclose := Draft.understood_close (b.current t) t.span.start
  rw [b.understood_iff_current t, ← hclose]
  simp [Understood, Builder.comma, Draft.Understood, and_comm]

theorem not_open_comma : ¬(b.comma t).Open := by simp [Open, Builder.comma, Draft.Open]

theorem understood_finish (b : Builder) (stop : Nat) :
    (∀ s ∈ b.finish stop, (NodeRef.selector s).Understood) ↔ b.Understood := by
  cases hd : b.draft with
  | none => simp [Understood, Builder.finish, hd]
  | some d =>
    simp [Understood, Builder.finish, hd, or_imp, forall_and, Draft.understood_close, and_comm]

end Builder

/-! ### Parentheses -/

/-- An expression takes tokens that are items on their own. -/
theorem NthDraft.read_plain (d : NthDraft) (ts : List Token) :
    ∃ us, us ++ (d.read ts).rest = ts ∧ ∀ u ∈ us, u.kind.isPlain := by
  have hcons : ∀ {t : Token} {rest ts : List Token}, t.kind.isPlain →
      (∃ us, us ++ rest = ts ∧ ∀ u ∈ us, u.kind.isPlain) →
      ∃ us, us ++ rest = t :: ts ∧ ∀ u ∈ us, u.kind.isPlain := by
    rintro t rest ts ht ⟨us, rfl, hus⟩
    exact ⟨t :: us, rfl, List.forall_mem_cons.2 ⟨ht, hus⟩⟩
  have hnil : ∀ ts : List Token, ∃ us, us ++ ts = ts ∧ ∀ u ∈ us, u.kind.isPlain := fun ts =>
    ⟨[], rfl, by simp⟩
  fun_induction NthDraft.read d ts with
  | case1 | case4 | case6 | case10 => exact hnil _
  | case2 d t ts hk ih => exact hcons (by rw [hk]; rfl) ih
  | case3 d t ts hk ih => exact hcons (by rw [hk]; rfl) ih
  | case5 d t ts hk hp a =>
    rename_i ih
    exact hcons (by rw [hk]; rfl) ih
  | case7 d t hk hp u us hu a =>
    rename_i ih
    exact hcons (by rw [hk]; rfl) (hcons (by rw [hu]; rfl) ih)
  | case8 d t hk hp u us hu a =>
    rename_i ih
    exact hcons (by rw [hk]; rfl) ih
  | case9 d t hk hp => exact hcons (by rw [hk]; rfl) (hnil [])

namespace Draft

variable {d : Draft} {n stop : Nat} {t c : Token} {ts : List Token} {text : String}
  {inner : Reading}

theorem openParens_plain (d : Draft) (t : Token) (ts : List Token) :
    ∃ us, us ++ (d.openParens t ts).rest = ts ∧ ∀ u ∈ us, u.kind.isPlain := by
  unfold Draft.openParens
  split
  · exact NthDraft.read_plain _ ts
  · exact ⟨[], rfl, by simp⟩

/-- A nested list starts empty or with an expression. -/
theorem openParens_understood (d : Draft) (t : Token) (ts : List Token) :
    (d.openParens t ts).builder.Understood ∧ ¬(d.openParens t ts).builder.Open := by
  have hnth : ∀ n : Nth, (NodeRef.node (.nth n)).Understood := by
    intro n
    refine NodeRef.every_nth.2 ⟨by simp [NodeRef.kind, Node.kind], fun m _ => ?_⟩
    cases m with
    | part role p => cases role <;> simp [NodeRef.kind, NthNode.kind, NthRole.kind]
    | comment c => simp [NodeRef.kind, NthNode.kind]
  unfold Draft.openParens
  split
  · dsimp only
    split
    · exact ⟨Builder.understood_empty, Builder.not_open_empty⟩
    · constructor
      · simpa [Builder.Understood, Draft.Understood] using hnth _
      · simp [Builder.Open, Draft.Open]
  · exact ⟨Builder.understood_empty, Builder.not_open_empty⟩

/-- Parentheses leave no invalid node only as the list of the selector before them. -/
theorem closeParens_sound (h : (d.closeParens stop t text inner).1.Understood) :
    d.Open ∧ d.Understood ∧ inner.builder.Understood ∧ inner.closer ≠ none ∧
      ¬(d.closeParens stop t text inner).1.Open := by
  unfold Draft.closeParens at h ⊢
  split at h
  · rename_i c span sigil name nodes hc hnodes
    have hall := List.forall_mem_cons.1 h
    have hlist := (NodeRef.every_functional.1 hall.1).2
    refine ⟨⟨_, _, _, _, hnodes⟩, ?_, (Builder.understood_finish _ _).1 hlist, by simp [hc], ?_⟩
    · rw [Draft.Understood, hnodes]
      exact List.forall_mem_cons.2 ⟨understood_functional span sigil name, hall.2⟩
    · simp [Draft.Open]
  · exact absurd (understood_push.1 h).1 (not_understood_invalid _ _)

/-- The parentheses of a functional selector leave no invalid node beside those inside. -/
theorem closeParens_complete (stop : Nat) (t : Token) (text : String) (ho : d.Open)
    (hd : d.Understood) (hc : inner.closer = some c) (hi : inner.builder.Understood) :
    (d.closeParens stop t text inner).1.Understood := by
  obtain ⟨span, sigil, name, nodes, hnodes⟩ := ho
  have hkind := (understood_functional span sigil name).self
  rw [Draft.Understood, hnodes] at hd
  simp only [Draft.closeParens, hc, hnodes]
  refine List.forall_mem_cons.2 ⟨NodeRef.every_functional.2 ⟨hkind, ?_⟩,
    (List.forall_mem_cons.1 hd).2⟩
  exact (Builder.understood_finish _ _).2 hi

end Draft

/-! ### Runs of the reader -/

/-- **A reading that leaves no invalid node has taken the tokens of a list**, or the parentheses of
the selector before them and then the tokens of a list. -/
theorem Reads.sound {stop depth n : Nat} {b : Builder} {ts : List Token} {r : Reading}
    (h : Reads stop depth b ts r) (hn : n + depth = maxDepth) (hu : r.builder.Understood) :
    b.Understood ∧ ∃ us, us ++ (r.closer.toList ++ r.rest) = ts ∧ b.Ready n us := by
  induction h generalizing n with
  | done => exact ⟨hu, [], rfl, .inl .empty⟩
  | close => exact ⟨hu, [], rfl, .inl .empty⟩
  | @comma depth b t ts r hk hr ih =>
    obtain ⟨hb, us, rfl, hready⟩ := ih hn hu
    refine ⟨Builder.understood_comma.1 hb, t :: us, rfl, .inl ?_⟩
    have hus := hready.resolve_right fun ho => Builder.not_open_comma ho.1
    exact (derives_singleton (by rw [hk]; rfl)).append hus
  | @parens depth b t ts o inner r c hk hd ho hi hc hr ihi ihr =>
    obtain ⟨hb, us, hus, hready⟩ := ihr hn hu
    have hset := (Builder.understood_set.1 hb)
    rw [hc] at hset
    obtain ⟨hopen, hcurrent, hinner, hsome, hclosed⟩ := Draft.closeParens_sound hset.2
    -- one less parenthesis may be opened inside
    obtain ⟨m, rfl⟩ : ∃ m, n = m + 1 := ⟨n - 1, by omega⟩
    obtain ⟨-, vs, hvs, hvready⟩ := ihi (n := m) (by omega) hinner
    obtain ⟨closer, hcloser⟩ := Option.ne_none_iff_exists'.1 hsome
    obtain ⟨front, hfront, hplain⟩ := (b.current t).openParens_plain t ts
    have hnested : Derives m (front ++ vs) := by
      rw [ho] at hvready
      exact (derives_plain hplain).append
        (hvready.resolve_right fun h => ((b.current t).openParens_understood t ts).2 h.1)
    have hrest : Derives (m + 1) us := by
      rw [Builder.ready_set, hc] at hready
      exact hready.derives hclosed
    refine ⟨(Builder.understood_iff_current t).2 ⟨hset.1, hcurrent⟩,
      t :: (front ++ vs ++ closer :: us), ?_, .inr ⟨(Builder.open_iff_current t).2 hopen, ?_⟩⟩
    · rw [Reading.after_closer, Reading.after_rest, List.cons_append, List.append_assoc,
        List.cons_append, hus, List.append_assoc]
      rw [hcloser, Option.toList_some, List.singleton_append] at hvs
      rw [hvs, ho, hfront]
    · exact .parens hk hnested (hi.kind_closer closer hcloser) hrest
  | @node depth b t ts s r hclose hcomma hparen hs hr ih =>
    obtain ⟨hb, vs, hvs, hready⟩ := ih hn hu
    have hset := Builder.understood_set.1 hb
    rw [hs] at hset
    obtain ⟨hcurrent, us, hus, hstep⟩ := (b.current t).step_sound depth ts hcomma hset.2
    refine ⟨(Builder.understood_iff_current t).2 ⟨hset.1, hcurrent⟩, us ++ vs, ?_, .inl ?_⟩
    · rw [Reading.after_closer, Reading.after_rest, List.append_assoc, hvs, hs, hus]
    · rw [Builder.ready_set, hs] at hready
      exact hstep n vs hready

/-- **A reading of the tokens of a list leaves no invalid node** and takes just these tokens. -/
theorem Reads.complete {stop depth n : Nat} {b : Builder} {ts us tail : List Token} {r : Reading}
    (h : Reads stop depth b ts r) (hn : n + depth = maxDepth) (hb : b.Understood)
    (hready : b.Ready n us) (hts : us ++ tail = ts) (htail : Ends tail)
    (hdepth : tail ≠ [] → 0 < depth) :
    r.builder.Understood ∧ r.closer.toList ++ r.rest = tail := by
  induction h generalizing n us tail with
  | done =>
    obtain ⟨-, rfl⟩ := List.append_eq_nil_iff.1 hts
    exact ⟨hb, rfl⟩
  | @close depth b t ts hk hd =>
    cases us with
    | nil => exact ⟨hb, hts.symm⟩
    | cons u us =>
      obtain rfl := (List.cons.inj hts).1
      have hd := hready.follows.derives (by rw [hk]; decide)
      exact absurd hk hd.ne_parens.2
  | @comma depth b t ts r hk hr ih =>
    obtain ⟨us, rfl, hrest⟩ := htail.uncons hts (by rw [hk]; decide)
    have hd := hready.follows.derives (by rw [hk]; decide)
    have hus := hd.tail (by rw [hk]; rfl)
    exact ih hn (Builder.understood_comma.2 hb) (.inl hus) hrest htail hdepth
  | @parens depth b t ts o inner r c hk hd ho hi hc hr ihi ihr =>
    obtain ⟨us, rfl, hrest⟩ := htail.uncons hts (by rw [hk]; decide)
    obtain ⟨hopen, hfollows⟩ := hready.resolve_left fun h => h.ne_parens.1 hk
    obtain ⟨m, vs, closer, ws, rfl, rfl, hvs, hck, hws⟩ := hfollows.list hk
    rw [List.append_assoc, List.cons_append] at hrest
    have hends : Ends (closer :: (ws ++ tail)) := by
      intro c' hc'
      obtain rfl := Option.some.inj hc'
      exact hck
    -- the expression at the front takes items of the nested list only
    obtain ⟨front, hfront, hplain⟩ := (b.current t).openParens_plain t ts
    rw [← ho, ← hrest] at hfront
    obtain ⟨vs', rfl, hsplit⟩ := hends.split hfront hplain
    obtain ⟨hempty, -⟩ := (b.current t).openParens_understood t ts
    rw [← ho] at hempty
    obtain ⟨hinner, htake⟩ := ihi (by omega) hempty (.inl (hvs.drop hplain)) hsplit.symm hends
      fun _ => Nat.succ_pos depth
    obtain ⟨c', hc'⟩ : ∃ c', inner.closer = some c' := by
      rw [← Option.ne_none_iff_exists']
      intro hnone
      rw [hnone, hi.rest_eq_nil hnone] at htake
      cases htake
    rw [hc', Option.toList_some, List.singleton_append, List.cons.injEq] at htake
    have hset := (Builder.understood_iff_current t).1 hb
    have hdone := Draft.closeParens_complete stop t
      (Token.join (Token.consumed (t :: ts) inner.rest)) ((Builder.open_iff_current t).1 hopen)
      hset.2 hc' hinner
    rw [← hc] at hdone
    exact ihr hn (Builder.understood_set.2 ⟨hset.1, hdone⟩) (.inl hws) htake.2.symm htail hdepth
  | @node depth b t ts s r hclose hcomma hparen hs hr ih =>
    cases us with
    | nil =>
      have hk := htail t (by rw [← List.nil_append tail, hts]; rfl)
      have hpos := hdepth (by rw [← List.nil_append tail, hts]; simp)
      exact absurd ⟨hk, hpos⟩ hclose
    | cons u us =>
      rw [List.cons_append, List.cons.injEq] at hts
      obtain ⟨rfl, rfl⟩ := hts
      have hd : Derives n (u :: us) := by
        refine hready.follows.derives fun hk => ?_
        obtain ⟨m, _, _, _, rfl, -⟩ :=
          (hready.resolve_left fun h => h.ne_parens.1 hk).2.list hk
        exact hparen ⟨hk, by omega⟩
      obtain ⟨hiff, ws, hws, hready'⟩ := (b.current u).step_complete depth hcomma hd htail
      have hset := (Builder.understood_iff_current u).1 hb
      rw [← hs] at hiff hws hready'
      exact ih hn (Builder.understood_set.2 ⟨hset.1, hiff.2 hset.2⟩)
        (Builder.ready_set.2 hready') hws.symm htail hdepth

/-- **A text reads without an invalid node exactly if its brackets are in order**: its tokens form
a list of the bracket grammar, with at most `maxDepth` parentheses inside one another. -/
theorem parse_understood_iff (source : String) (offset : Nat) :
    (∀ s ∈ parse source offset, (NodeRef.selector s).Every fun x => x.kind ≠ .invalid) ↔
      Derives maxDepth (tokenize source offset) := by
  have hr := reads_readList (offset + source.utf8ByteSize) 0 {} (tokenize source offset)
  have hclosed := hr.closer_eq_none rfl
  refine (Builder.understood_finish _ (offset + source.utf8ByteSize)).trans ⟨fun hu => ?_, ?_⟩
  · obtain ⟨-, us, hus, hready⟩ := hr.sound (n := maxDepth) rfl hu
    rw [hclosed, hr.rest_eq_nil hclosed, Option.toList_none, List.append_nil,
      List.append_nil] at hus
    subst hus
    exact hready.resolve_right fun h => Builder.not_open_empty h.1
  · intro hd
    exact (hr.complete (n := maxDepth) rfl Builder.understood_empty (.inl hd)
      (List.append_nil _) (by simp [Ends]) (by simp)).1

end Selectors
