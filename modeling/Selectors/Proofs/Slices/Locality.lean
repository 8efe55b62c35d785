import Selectors.Parser
import Selectors.Proofs.Slices.Lexing

/-!
# Reading a node depends on the tokens it takes

Ways of reading look ahead: for the end of a run, for the bracket that closes a block, for a name
that may follow.  Nevertheless each of them is *local*: when it is given the tokens only up to a
place at which it has stopped, it reads the same.  `Local` states this of a reading; where several
follow each other, `Local.stops` tells that an earlier one had stopped as well.

* `Draft.step_cut`: reading a node is local.
* `Draft.openParens_cut`: so is reading an `An+B` expression after a parenthesis.
-/

namespace Selectors

/-- A token that was taken from the front stands in the part that was read. -/
theorem exists_cons_of_suffix {α : Type} {us vs xs ts zs : List α} {t : α}
    (h : us ++ xs = t :: ts) (hz : zs <:+ ts) (hv : zs = vs ++ xs) :
    ∃ us', us = t :: us' ∧ ts = us' ++ xs := by
  cases us with
  | nil =>
    have hlen := hz.length_le
    have := congrArg List.length h
    simp only [hv, List.nil_append, List.length_append, List.length_cons] at hlen this
    omega
  | cons u us =>
    obtain ⟨rfl, rfl⟩ := List.cons.inj h
    exact ⟨us, rfl, rfl⟩

/-- What a suffix ends with is what the list ends with. -/
theorem exists_append_of_suffix {α : Type} {vs xs zs : List α} (h : vs ++ xs <:+ zs) :
    ∃ ws, zs = ws ++ xs := by
  obtain ⟨us, rfl⟩ := h
  exact ⟨us ++ vs, (List.append_assoc us vs xs).symm⟩

/-- A reading leaves a suffix of the tokens, and what is behind the tokens it takes may be cut
off. -/
structure Local {α : Type} (read : List Token → α × List Token) : Prop where
  suffix (ts : List Token) : (read ts).2 <:+ ts
  cut {us vs xs : List Token} (h : (read (us ++ xs)).2 = vs ++ xs) :
    read us = ((read (us ++ xs)).1, vs)

namespace Local

variable {α β : Type} {read : List Token → α × List Token} {us vs xs : List Token}

/-- A reading after which a suffix is left that reaches `xs` does not take from `xs`. -/
theorem stops (hr : Local read) (h : vs ++ xs <:+ (read (us ++ xs)).2) :
    ∃ ws, (read (us ++ xs)).2 = ws ++ xs ∧ read us = ((read (us ++ xs)).1, ws) := by
  obtain ⟨ys, hys⟩ := h
  have hws : (read (us ++ xs)).2 = ys ++ vs ++ xs := by rw [← hys, List.append_assoc]
  exact ⟨ys ++ vs, hws, hr.cut hws⟩

theorem map (hr : Local read) (g : α → β) : Local fun ts => (g (read ts).1, (read ts).2) :=
  ⟨hr.suffix, fun h => by rw [hr.cut h]⟩

end Local

/-! ### Moves on tokens -/

namespace Token

theorem local_take? (k : TokenKind) : Local (take? k) := by
  refine ⟨take?_suffix k, fun {us vs xs} h => ?_⟩
  cases us with
  | nil =>
    have happ := take?_append k xs
    rw [List.nil_append] at h ⊢
    rw [h, ← List.append_assoc, List.append_left_eq_self, List.append_eq_nil_iff] at happ
    rw [Option.toList_eq_nil_iff.1 happ.1, happ.2]
    rfl
  | cons u us =>
    simp only [List.cons_append, take?] at h ⊢
    split at h
    · rename_i hu
      rw [if_pos hu, if_pos hu, List.append_cancel_right h]
    · rename_i hu
      rw [if_neg hu, if_neg hu]
      rw [← List.cons_append] at h
      rw [List.append_cancel_right h]

theorem local_run (p : Token → Bool) : Local fun ts => (ts.takeWhile p, ts.dropWhile p) := by
  refine ⟨fun _ => List.dropWhile_suffix p, fun h => ?_⟩
  obtain ⟨htake, hdrop⟩ := takeWhile_cut h
  rw [htake, hdrop]

end Token

namespace Block

variable {opener closer : TokenKind} {level : Nat} {ts : List Token} {b : ClosedBlock}

/-- A closed block does not depend on what follows it. -/
theorem closed?_of_closed? (h : closed? opener closer level ts = some b) (ys : List Token) :
    closed? opener closer level (b.inside ++ b.closer :: ys) = some { b with rest := ys } := by
  fun_induction closed? opener closer level ts generalizing b with
  | case1 => cases h
  | case2 level t ts ho ih =>
    obtain ⟨c, hc, rfl⟩ := Option.map_eq_some_iff.1 h
    rw [List.cons_append, closed?.eq_def]
    dsimp only
    rw [if_pos ho]
    exact Option.map_eq_some_iff.2 ⟨_, ih hc, rfl⟩
  | case3 t ts ho hcl =>
    obtain rfl := Option.some.inj h
    rw [List.nil_append, closed?, if_neg ho, if_pos hcl]
  | case4 t ts ho hcl level ih =>
    obtain ⟨c, hc, rfl⟩ := Option.map_eq_some_iff.1 h
    rw [List.cons_append, closed?, if_neg ho, if_pos hcl]
    exact Option.map_eq_some_iff.2 ⟨_, ih hc, rfl⟩
  | case5 level t ts ho hcl ih =>
    obtain ⟨c, hc, rfl⟩ := Option.map_eq_some_iff.1 h
    rw [List.cons_append, closed?.eq_def]
    dsimp only
    rw [if_neg ho, if_neg hcl]
    exact Option.map_eq_some_iff.2 ⟨_, ih hc, rfl⟩

theorem read_cut {cut : TokenKind → Bool} {us vs xs : List Token}
    (h : (read opener closer cut (us ++ xs)).rest = vs ++ xs) :
    read opener closer cut us = { read opener closer cut (us ++ xs) with rest := vs } := by
  cases hb : closed? opener closer 0 (us ++ xs) with
  | some b =>
    have hread : read opener closer cut (us ++ xs) = ⟨b.inside, some b.closer, b.rest⟩ := by
      rw [read, hb]
    have happ := closed?_append hb
    rw [hread] at h
    have hrest : b.rest = vs ++ xs := h
    rw [hrest, ← List.cons_append, ← List.append_assoc] at happ
    have hus := closed?_of_closed? hb vs
    rw [List.append_cancel_right happ] at hus
    rw [hread, read, hus]
  | none =>
    -- a block that closes within `us` closes in the longer list too
    have hus : closed? opener closer 0 us = none := by
      rw [Option.eq_none_iff_forall_ne_some]
      intro b hus
      have hlong := closed?_of_closed? hus (b.rest ++ xs)
      rw [← List.cons_append, ← List.append_assoc, closed?_append hus, hb] at hlong
      cases hlong
    simp only [read, hb, hus] at h ⊢
    obtain ⟨htake, hdrop⟩ := takeWhile_cut h
    rw [htake, hdrop]

end Block

/-! ### Nodes -/

namespace Draft

variable {d : Draft} {t : Token} {us vs xs : List Token}

theorem local_takeComments : Local takeComments :=
  (Token.local_run (·.kind == .comment)).map fun run => run.map Comment.ofToken

theorem local_takeTarget : Local takeTarget := by
  refine ⟨takeTarget_suffix, fun {us vs xs} h => ?_⟩
  simp only [takeTarget] at h ⊢
  -- the star is looked for only where no name was found
  have hsuffix : vs ++ xs <:+ (Token.take? .text (us ++ xs)).2 := by
    rw [← h]
    split
    · rename_i he
      exact ⟨[], congrArg Prod.snd he.symm⟩
    · rename_i he
      rw [he]
      exact Token.take?_suffix .star _
  obtain ⟨ws, hws, htext⟩ := (Token.local_take? .text).stops hsuffix
  rw [htext]
  generalize Token.take? .text (us ++ xs) = r at *
  obtain ⟨_ | name, rest⟩ := r <;> obtain rfl : rest = ws ++ xs := hws
  · exact (Token.local_take? .star).cut h
  · rw [List.append_cancel_right h]

theorem stepClass_cut (h : (d.stepClass t (us ++ xs)).rest = vs ++ xs) :
    d.stepClass t us = { d.stepClass t (us ++ xs) with rest := vs } := by
  simp only [stepClass] at h ⊢
  obtain ⟨ws, hws, hcomments⟩ := local_takeComments.stops (h ▸ Token.take?_suffix .text _)
  rw [hws] at h ⊢
  rw [hcomments, (Token.local_take? .text).cut h]

theorem stepId_cut (h : (d.stepId t (us ++ xs)).rest = vs ++ xs) :
    d.stepId t us = { d.stepId t (us ++ xs) with rest := vs } := by
  simp only [stepId] at h ⊢
  rw [(Token.local_take? .text).cut h]

theorem stepPseudo_cut (h : (d.stepPseudo t (us ++ xs)).rest = vs ++ xs) :
    d.stepPseudo t us = { d.stepPseudo t (us ++ xs) with rest := vs } := by
  simp only [stepPseudo] at h ⊢
  -- whichever way it goes, no more is left than behind the look for a second colon
  have hsuffix : vs ++ xs <:+ (Token.take? .colon (takeComments (us ++ xs)).2).2 := by
    rw [← h]
    split
    · rename_i he
      rw [he]
      exact (Token.take?_suffix .text _).trans (takeComments_suffix _)
    · rename_i he
      rw [he]
      exact Token.take?_suffix .text _
  obtain ⟨ws, hws, hfirst⟩ :=
    local_takeComments.stops (hsuffix.trans (Token.take?_suffix .colon _))
  rw [hws] at hsuffix h ⊢
  obtain ⟨ws', hws', hcolon⟩ := (Token.local_take? .colon).stops hsuffix
  rw [hfirst, hcolon]
  generalize Token.take? .colon (ws ++ xs) = r at *
  obtain ⟨_ | colon, rest⟩ := r <;> obtain rfl : rest = ws' ++ xs := hws'
  · dsimp only at h ⊢
    rw [(Token.local_take? .text).cut h]
  · dsimp only at h ⊢
    obtain ⟨zs, hzs, hsecond⟩ := local_takeComments.stops (h ▸ Token.take?_suffix .text _)
    rw [hzs] at h ⊢
    rw [hsecond, (Token.local_take? .text).cut h]

theorem stepBar_cut (h : (d.stepBar t (us ++ xs)).rest = vs ++ xs) :
    d.stepBar t us = { d.stepBar t (us ++ xs) with rest := vs } := by
  simp only [stepBar] at h ⊢
  obtain ⟨ws, hws, hcomments⟩ := local_takeComments.stops (h ▸ takeTarget_suffix _)
  rw [hws] at h ⊢
  rw [hcomments, local_takeTarget.cut h]

theorem stepAttribute_cut (h : (d.stepAttribute t (us ++ xs)).rest = vs ++ xs) :
    d.stepAttribute t us = { d.stepAttribute t (us ++ xs) with rest := vs } := by
  have hread : (Block.read .openBracket .closeBracket (fun k => k == .closeParen || k == .comma)
      (us ++ xs)).rest = vs ++ xs := by
    rw [← h, stepAttribute]
    split <;> rfl
  simp only [stepAttribute, Block.read_cut hread]
  split <;> rfl

theorem stepTooDeep_cut {depth : Nat} (h : (d.stepTooDeep depth t (us ++ xs)).rest = vs ++ xs) :
    d.stepTooDeep depth t us = { d.stepTooDeep depth t (us ++ xs) with rest := vs } := by
  have hread : (Block.read .openParen .closeParen (fun _ => false) (us ++ xs)).rest = vs ++ xs := h
  simp only [stepTooDeep, Block.read_cut hread, Block.taken]

theorem stepGap_cut (h : (d.stepGap t (us ++ xs)).rest = vs ++ xs) :
    d.stepGap t us = { d.stepGap t (us ++ xs) with rest := vs } := by
  obtain ⟨htake, hdrop⟩ := takeWhile_cut h
  simp only [stepGap, Gap.read, Gap.rest, htake, hdrop]

/-- **Reading a node depends on the tokens it takes.** -/
theorem step_cut {depth : Nat} (h : (d.step depth t (us ++ xs)).rest = vs ++ xs) :
    d.step depth t us = { d.step depth t (us ++ xs) with rest := vs } := by
  revert h
  unfold step
  cases t.kind with
  | dot => exact stepClass_cut
  | hash => exact stepId_cut
  | colon => exact stepPseudo_cut
  | pipe => exact stepBar_cut
  | openBracket => exact stepAttribute_cut
  | openParen => exact stepTooDeep_cut
  | space | plus | greaterThan | tilde => exact stepGap_cut
  | _ =>
    intro h
    obtain rfl : us = vs := List.append_cancel_right h
    rfl

/-- Only a parenthesis that is too deep is read with a look at the depth. -/
theorem step_depth (depth depth' : Nat) (ts : List Token) (ht : t.kind ≠ .openParen) :
    d.step depth t ts = d.step depth' t ts := by
  unfold step
  cases hk : t.kind with
  | openParen => exact absurd hk ht
  | _ => rfl

end Draft

/-! ### Expressions -/

namespace NthDraft

variable {d : NthDraft} {t : Token} {us vs xs ts : List Token}

/-- A plus that no text follows is a word of its own. -/
theorem read_plus (hk : t.kind = .plus) (hp : d.phase ≠ .selector)
    (hts : ∀ u ∈ ts.head?, u.kind ≠ .text) :
    d.read (t :: ts) = ((d.accept t.text t.span).1.read ts).after (d.accept t.text t.span).2 := by
  rw [read.eq_def]
  simp only [hk, if_neg hp]
  cases ts with
  | nil => simp [read, NthReading.after]
  | cons u ts => exact if_neg (hts u rfl)

/-- A token that ends an expression ends it whatever follows. -/
theorem read_of_stops (h : us ++ xs = t :: ts)
    (hstop : ∀ ts, d.read (t :: ts) = ⟨d, t :: ts, []⟩) : d.read us = ⟨d, us, []⟩ := by
  cases us with
  | nil => rfl
  | cons u us =>
    obtain ⟨rfl, -⟩ := List.cons.inj h
    exact hstop us

/-- **Reading an expression depends on the tokens it takes.** -/
theorem read_cut (h : (d.read (us ++ xs)).rest = vs ++ xs) :
    d.read us = { d.read (us ++ xs) with rest := vs } := by
  generalize hts : us ++ xs = ts at h ⊢
  fun_induction read d ts generalizing us with
  | case1 d =>
    obtain ⟨rfl, rfl⟩ := List.append_eq_nil_iff.1 hts
    obtain rfl : vs = [] := by simpa using h
    rfl
  | case2 d t ts hk ih =>
    obtain ⟨us, rfl, rfl⟩ := exists_cons_of_suffix hts (read_suffix _ _) h
    rw [read.eq_def]
    simp only [hk, ih rfl h]
  | case3 d t ts hk ih =>
    obtain ⟨us, rfl, rfl⟩ := exists_cons_of_suffix hts (read_suffix _ _) h
    rw [read.eq_def]
    simp only [hk, ih rfl h]
  | case4 d t ts hk hp =>
    obtain rfl : us = vs := List.append_cancel_right (hts.trans h)
    exact read_of_stops hts fun ts => by rw [read.eq_def]; simp only [hk, if_pos hp]
  | case5 d t ts hk hp a =>
    rename_i ih
    obtain ⟨us, rfl, rfl⟩ := exists_cons_of_suffix hts (read_suffix _ _) h
    rw [read.eq_def]
    simp only [hk, if_neg hp]
    rw [ih rfl h]
    rfl
  | case6 d t ts hk hp =>
    obtain rfl : us = vs := List.append_cancel_right (hts.trans h)
    exact read_of_stops hts fun ts => by rw [read.eq_def]; simp only [hk, if_pos hp]
  | case7 d t hk hp u ts hu a =>
    rename_i ih
    have hsuffix := read_suffix a.1 ts
    obtain ⟨us, rfl, htail⟩ := exists_cons_of_suffix hts (hsuffix.trans (List.suffix_cons u ts)) h
    obtain ⟨us, rfl, rfl⟩ := exists_cons_of_suffix htail.symm hsuffix h
    rw [read.eq_def]
    simp only [hk, if_neg hp, if_pos hu]
    rw [ih rfl h]
    rfl
  | case8 d t hk hp u ts hu a =>
    rename_i ih
    obtain ⟨us, rfl, htail⟩ := exists_cons_of_suffix hts (read_suffix a.1 (u :: ts)) h
    -- the cut may leave the plus without the token that showed it to be a word of its own
    rw [read_plus hk hp, ih htail.symm h]
    · rfl
    · intro v hv
      cases us with
      | nil => cases hv
      | cons w us =>
        obtain rfl : w = v := by simpa using hv
        rwa [← (List.cons.inj htail).1]
  | case9 d t hk hp =>
    rename_i a
    obtain ⟨rfl, rfl⟩ : vs = [] ∧ xs = [] := by simpa using h.symm
    obtain rfl : us = [t] := by simpa using hts
    rw [read_plus hk hp (by simp)]
    simp [read, NthReading.after, a]
  | case10 d t ts hspace hcomment htext hplus =>
    obtain rfl : us = vs := List.append_cancel_right (hts.trans h)
    refine read_of_stops hts fun ts => ?_
    rw [read.eq_def]
    dsimp only
    cases hk : t.kind with
    | space => exact absurd hk hspace
    | comment => exact absurd hk hcomment
    | text => exact absurd hk htext
    | plus => exact absurd hk hplus
    | _ => rfl

end NthDraft

namespace Draft

variable {d : Draft} {t : Token} {us vs xs : List Token}

/-- What a parenthesis starts with depends on the tokens it takes and on whether any follow. -/
theorem openParens_cut (hus : us ≠ []) (h : (d.openParens t (us ++ xs)).rest = vs ++ xs) :
    d.openParens t us = { d.openParens t (us ++ xs) with rest := vs } := by
  -- whether an expression is expected shows in the first token
  have htakes : d.takesNth (us ++ xs) = d.takesNth us := by
    obtain ⟨u, us, rfl⟩ := List.exists_cons_of_ne_nil hus
    rfl
  unfold openParens at h ⊢
  rw [htakes] at h ⊢
  split at h
  · rename_i hn
    rw [if_pos hn, if_pos hn, NthDraft.read_cut h]
  · rename_i hn
    rw [if_neg hn, if_neg hn, List.append_cancel_right h]

/-- Where the text ends does not matter to parentheses that close. -/
theorem closeParens_closed (stop : Nat) (text : String) (b : Builder) (c : Token)
    (rest : List Token) (es : List Event) :
    d.closeParens stop t text ⟨b, some c, rest, es⟩ =
      d.closeParens c.span.stop t text ⟨b, some c, [], []⟩ := by
  unfold closeParens
  cases d.nodes with
  | nil => rfl
  | cons n ns =>
    cases n with
    | functional span sigil name list => cases list <;> rfl
    | _ => rfl

end Draft

end Selectors
