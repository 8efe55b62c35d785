import Selectors.Proofs.Coverage.Draft

/-!
# Gaps and edges cover their tokens

Blanks move about while a gap is read and when a selector is trimmed: into the combinator after
them, into a comment, or into the selector's own blanks.  Text and spans move along, so that no
byte is lost and every node still stands where the text has it.

* `Gap.covers_read`: reading a gap.
* `Selector.cover_trim`: trimming a selector.
-/

namespace Selectors

/-! ### Gaps -/

namespace Gap

/-- The gap prints to `w`, and its nodes lie where `w` has them when it starts at `p`. -/
def Covers (g : Gap) (p : Nat) (w : String) : Prop := Cover p g.before g.nodes w

variable {g : Gap} {p : Nat} {w : String} {t : Token}

theorem print_combinator_ofToken (t : Token) :
    (Node.combinator (.ofToken t)).print = t.text := by
  simp [Node.print, Combinator.print, Combinator.ofToken]

theorem print_comment_ofToken (t : Token) : (Node.comment (.ofToken t)).print = t.text := by
  simp [Node.print, Comment.print, Comment.ofToken]

theorem covers_start (ht : t.span = .ofText p t.text) : (start t).Covers p t.text := by
  have := (Cover.nil p "").push (n := .combinator (.ofToken t))
    (by rw [print_combinator_ofToken]; exact ht)
  rwa [print_combinator_ofToken, String.empty_append] at this

theorem Covers.pushBlanks (h : g.Covers p w)
    (ht : t.span = .ofText (p + w.utf8ByteSize) t.text) :
    (g.pushBlanks t).Covers p (w ++ t.text) := by
  obtain ⟨before, settled, s, comments, events⟩ := g
  cases comments with
  | nil =>
    refine Cover.stretch (n := .combinator s) h ht ?_ rfl
    simp [Gap.pushBlanks, Node.print, Combinator.print, String.append_assoc]
  | cons c cs =>
    refine Cover.stretch (n := .comment c) h ht ?_ rfl
    simp [Node.print, Comment.print, String.append_assoc]

theorem Covers.pushComment (h : g.Covers p w)
    (ht : t.span = .ofText (p + w.utf8ByteSize) t.text) :
    Covers { g with comments := .ofToken t :: g.comments } p (w ++ t.text) := by
  rw [← print_comment_ofToken t]
  exact Cover.push h (by rw [print_comment_ofToken]; exact ht)

/-- Blanks that move to the first comment after them keep their place. -/
theorem giveToFirst_covers {s : Combinator} {cs : List Comment} (hcs : cs ≠ [])
    (h : Laid 0 Node.span Node.print p (.combinator s :: (cs.map .comment).reverse)) :
    Laid 0 Node.span Node.print p ((giveToFirst s cs).map .comment).reverse ∧
      Node.printAll ((giveToFirst s cs).map .comment).reverse =
        s.print ++ Node.printAll (cs.map .comment).reverse := by
  fun_induction giveToFirst s cs with
  | case1 => exact absurd rfl hcs
  | case2 c =>
    obtain ⟨hs, hc, -⟩ := h
    simp only [Node.span, Node.print, Nat.add_zero] at hs hc
    refine ⟨⟨?_, trivial⟩, ?_⟩
    · simp only [Node.span, Node.print, hs, hc, Comment.print, String.append_assoc,
        String.utf8ByteSize_append, Span.mk.injEq, true_and, Span.ofText]
      omega
    · simp [Node.printAll, Node.print, Comment.print, String.append_assoc]
  | case3 c cs hne ih =>
    have hne : cs ≠ [] := fun he => hne he
    simp only [List.map_cons, List.reverse_cons] at h ⊢
    rw [← List.cons_append] at h
    obtain ⟨hl, hc⟩ := laid_concat.1 h
    obtain ⟨hl', hp'⟩ := ih hne hl
    refine ⟨laid_concat.2 ⟨hl', ?_⟩, ?_⟩
    · rw [hc, Node.extent_eq, Node.extent_eq, hp']
      rfl
    · rw [Node.printAll_append, hp', Node.printAll_append, String.append_assoc]

theorem Covers.pushCombinator (atFront : Bool) (h : g.Covers p w)
    (ht : t.span = .ofText (p + w.utf8ByteSize) t.text) :
    (g.pushCombinator atFront t).Covers p (w ++ t.text) := by
  have hp := print_combinator_ofToken t
  have hs : (Node.combinator (.ofToken t)).span =
      .ofText (p + w.utf8ByteSize) (Node.combinator (.ofToken t)).print := by rw [hp]; exact ht
  obtain ⟨before, settled, s, comments, events⟩ := g
  simp only [Gap.pushCombinator]
  split
  · split
    · rename_i hc
      subst hc
      refine Cover.stretch (n := .combinator s) h ht ?_ rfl
      simp [Node.print, Combinator.print]
    · rename_i hc
      split
      -- at the front of a selector the blanks become its own
      · rename_i hf
        obtain ⟨-, rfl⟩ : atFront = true ∧ settled = [] := by simpa using hf
        have hshed : Cover p (before ++ s.print) (comments.map .comment) w := Cover.shed h
        have := hshed.push hs
        rwa [hp] at this
      · -- the blanks go to the first comment, which lies right after them
        have h : Cover p before ((comments.map .comment ++ [.combinator s]) ++ settled) w := by
          simpa [Gap.Covers, Gap.nodes] using h
        obtain ⟨v, rfl, hc', hl⟩ := Cover.append_iff.1 h
        rw [List.reverse_append] at hl
        obtain ⟨hl', hp'⟩ := giveToFirst_covers hc hl
        have hgiven : Cover p before ((giveToFirst s comments).map .comment ++ settled)
            (v ++ Node.printAll (comments.map Node.comment ++ [Node.combinator s]).reverse) := by
          refine Cover.append_iff.2 ⟨v, ?_, hc', hl'⟩
          rw [hp', List.reverse_append]
          rfl
        have := hgiven.push hs
        rwa [hp] at this
  · have := Cover.push h (n := .combinator { Combinator.ofToken t with invalid := true }) hs
    rwa [show (Node.combinator { Combinator.ofToken t with invalid := true }).print = t.text
      from hp] at this

theorem Covers.push (atFront : Bool) (h : g.Covers p w)
    (ht : t.span = .ofText (p + w.utf8ByteSize) t.text) :
    (g.push atFront t).Covers p (w ++ t.text) := by
  unfold Gap.push
  split
  · exact h.pushBlanks ht
  · exact h.pushComment ht
  · exact h.pushCombinator atFront ht

theorem Covers.foldl (atFront : Bool) {us : List Token} (h : g.Covers p w)
    (hus : Laid 0 Token.span Token.text (p + w.utf8ByteSize) us) :
    (us.foldl (Gap.push atFront) g).Covers p (w ++ Token.join us) := by
  induction us generalizing g w with
  | nil => simpa [Token.join] using h
  | cons u us ih =>
    obtain ⟨hu, hus⟩ := hus
    rw [List.foldl_cons, Token.join, ← String.append_assoc]
    refine ih (h.push atFront hu) ?_
    rwa [String.utf8ByteSize_append, ← Nat.add_assoc]

/-- The blanks of a gap that is not the first thing in its selector stay in its nodes. -/
theorem before_foldl {us : List Token} (h : g.before = "") :
    (us.foldl (Gap.push false) g).before = "" := by
  induction us generalizing g with
  | nil => exact h
  | cons u us ih =>
    refine ih ?_
    simp only [Gap.push, Gap.pushBlanks, Gap.pushCombinator, Bool.false_and]
    split
    · split <;> exact h
    · exact h
    · split
      · split <;> exact h
      · exact h

theorem isFiller_of_mem_map {cs : List Comment} {n : Node} (hn : n ∈ cs.map .comment) :
    n.isFiller := by
  obtain ⟨c, -, rfl⟩ := List.mem_map.1 hn
  rfl

theorem isFiller_of_mem_nodes (hg : ∀ n ∈ g.settled, n.isFiller) {n : Node} (hn : n ∈ g.nodes) :
    n.isFiller := by
  simp only [Gap.nodes, List.mem_append, List.mem_cons] at hn
  obtain hn | rfl | hn := hn
  · exact isFiller_of_mem_map hn
  · rfl
  · exact hg n hn

theorem isFiller_push (atFront : Bool) (hg : ∀ n ∈ g.settled, n.isFiller) :
    ∀ n ∈ (g.push atFront t).settled, n.isFiller := by
  unfold Gap.push Gap.pushBlanks Gap.pushCombinator
  split
  · split <;> exact hg
  · exact hg
  · dsimp only
    split
    · split
      · exact hg
      · split
        · exact fun n => isFiller_of_mem_map
        · exact fun n hn => (List.mem_append.1 hn).elim isFiller_of_mem_map (hg n)
    · exact fun n => isFiller_of_mem_nodes hg

/-- What a gap has at its start, and keeps with each of its tokens, it has when it is read. -/
theorem read_induction {P : Gap → Prop} (atFront : Bool) {t : Token} {ts : List Token}
    (hstart : P (start t))
    (hpush : ∀ u ∈ ts, u.kind.isGap → ∀ g, P g → P (g.push atFront u)) :
    P (read atFront t ts) := by
  have hrun : ∀ u ∈ ts.takeWhile (·.kind.isGap), ∀ g, P g → P (g.push atFront u) := by
    intro u hu
    have hgap : u.kind.isGap := List.all_eq_true.1 List.all_takeWhile u hu
    exact hpush u ((List.takeWhile_prefix _).subset hu) hgap
  rw [read]
  generalize ts.takeWhile (·.kind.isGap) = us at hrun
  generalize start t = g at hstart
  induction us generalizing g with
  | nil => exact hstart
  | cons u us ih =>
    obtain ⟨hu, hus⟩ := List.forall_mem_cons.1 hrun
    exact ih hus _ (hu g hstart)

/-- A gap holds combinators and comments only. -/
theorem isFiller_of_mem_read {atFront : Bool} {ts : List Token} {n : Node}
    (hn : n ∈ (read atFront t ts).nodes) : n.isFiller := by
  have hsettled : ∀ m ∈ (read atFront t ts).settled, m.isFiller :=
    read_induction (P := fun g => ∀ m ∈ g.settled, m.isFiller) atFront (by simp [start])
      fun _ _ _ _ hg => isFiller_push atFront hg
  exact isFiller_of_mem_nodes hsettled hn

/-- A gap covers its tokens. -/
theorem covers_read (atFront : Bool) {ts : List Token} (h : Token.Covering p (t :: ts)) :
    ∃ us, us ++ rest ts = t :: ts ∧ (read atFront t ts).Covers p (Token.join us) := by
  refine ⟨t :: ts.takeWhile (·.kind.isGap), ?_, ?_⟩
  · rw [List.cons_append, rest, List.takeWhile_append_dropWhile]
  · obtain ⟨⟨ht, -⟩, hts⟩ := Token.covering_cons.1 h
    rw [← List.takeWhile_append_dropWhile (p := (·.kind.isGap)) (l := ts)] at hts
    exact (covers_start ht).foldl atFront (Token.covering_append.1 hts).1.laid

end Gap

/-! ### Edges -/

namespace Edge

variable {p : Nat} {join : Comment → Combinator → Comment}

/-- Trimming moves blanks and changes comments only. -/
theorem filter_absorb (c : Comment) (ns : List Node) :
    (absorb join c ns).filter (fun n => !n.isFiller) = ns.filter fun n => !n.isFiller := by
  fun_induction absorb join c ns <;> simp_all

theorem filter_trim (ns : List Node) :
    (trim join ns).2.filter (fun n => !n.isFiller) = ns.filter fun n => !n.isFiller := by
  fun_induction trim join ns with
  | case1 s ns hs r ih =>
    rw [List.filter_cons_of_neg (by simp)]
    exact ih
  | case2 s ns hs => rfl
  | case3 c ns => rw [filter_absorb, List.filter_cons_of_neg (by simp)]
  | case4 ns => rfl

@[simp] theorem text_append (cs ds : List Combinator) : text (cs ++ ds) = text cs ++ text ds := by
  induction cs with
  | nil => simp [text]
  | cons c cs ih => simp [text, ih, String.append_assoc]

theorem absorb_joinAfter {c : Comment} {ns : List Node}
    (h : Laid 0 Node.span Node.print p (.comment c :: ns)) :
    Laid 0 Node.span Node.print p (absorb joinAfter c ns) ∧
      Node.printAll (absorb joinAfter c ns) = c.print ++ Node.printAll ns := by
  fun_induction absorb joinAfter c ns generalizing p with
  | case1 c s ns hs ih =>
    obtain ⟨hc, hs', hns⟩ := h
    have hp : (Node.comment (joinAfter c s)).print = c.print ++ s.print := by
      simp [Node.print, joinAfter, Comment.print, String.append_assoc]
    have hspan : (Node.comment (joinAfter c s)).span =
        .ofText p (Node.comment (joinAfter c s)).print := by
      rw [hp, Span.ofText_append]
      simp only [Node.span, Node.print, Nat.add_zero] at hc hs'
      simp only [Node.span, joinAfter, hc, hs', Span.ofText]
    obtain ⟨hl, hpr⟩ := ih ⟨hspan, by
      rw [hp, String.utf8ByteSize_append, ← Nat.add_assoc]; exact hns⟩
    refine ⟨hl, ?_⟩
    rw [hpr, Node.printAll, ← String.append_assoc]
    exact congrArg (· ++ Node.printAll ns) hp
  | case2 c s ns hs => exact ⟨h, rfl⟩
  | case3 c d ns ih =>
    obtain ⟨hl, hpr⟩ := ih h.2
    exact ⟨⟨h.1, hl⟩, by rw [Node.printAll, hpr]; rfl⟩
  | case4 c ns => exact ⟨h, rfl⟩

theorem trim_joinAfter {ns : List Node} (h : Laid 0 Node.span Node.print p ns) :
    Laid 0 Node.span Node.print (p + (text (trim joinAfter ns).1).utf8ByteSize)
        (trim joinAfter ns).2 ∧
      text (trim joinAfter ns).1 ++ Node.printAll (trim joinAfter ns).2 = Node.printAll ns := by
  fun_induction trim joinAfter ns generalizing p with
  | case1 s ns hs r =>
    rename_i ih
    obtain ⟨hl, hp⟩ := ih h.2
    refine ⟨?_, ?_⟩
    · rw [text, String.utf8ByteSize_append, ← Nat.add_assoc]
      exact hl
    · rw [text, String.append_assoc, hp]
      rfl
  | case2 s ns hs => exact ⟨h, by simp [text]⟩
  | case3 c ns =>
    obtain ⟨hl, hp⟩ := absorb_joinAfter h
    exact ⟨hl, by simp [text, hp, Node.printAll, Node.print]⟩
  | case4 ns => exact ⟨h, by simp [text]⟩

theorem absorb_joinBefore {c : Comment} {ns : List Node}
    (h : Laid 0 Node.span Node.print p (.comment c :: ns).reverse) :
    Laid 0 Node.span Node.print p (absorb joinBefore c ns).reverse ∧
      Node.printAll (absorb joinBefore c ns).reverse = Node.printAll ns.reverse ++ c.print := by
  fun_induction absorb joinBefore c ns with
  | case1 c s ns hs ih =>
    have hp : (Node.comment (joinBefore c s)).print = s.print ++ c.print := by
      simp [Node.print, joinBefore, Comment.print, String.append_assoc]
    simp only [List.reverse_cons] at h
    obtain ⟨hl, hc⟩ := laid_concat.1 h
    obtain ⟨hns, hs'⟩ := laid_concat.1 hl
    have hspan : (Node.comment (joinBefore c s)).span =
        .ofText (p + extent 0 Node.print ns.reverse) (Node.comment (joinBefore c s)).print := by
      rw [hp, Span.ofText_append]
      simp only [Node.span, Node.print, extent_append, extent] at hc hs'
      simp only [Node.span, joinBefore, hc, hs', Span.ofText, Span.mk.injEq, true_and]
      omega
    obtain ⟨hl, hpr⟩ := ih (by rw [List.reverse_cons]; exact laid_concat.2 ⟨hns, hspan⟩)
    refine ⟨hl, ?_⟩
    rw [hpr, List.reverse_cons, Node.printAll_append]
    simp only [Node.printAll, Node.print, String.append_empty, String.append_assoc]
    exact congrArg (Node.printAll ns.reverse ++ ·) hp
  | case2 c s ns hs => exact ⟨h, by simp [Node.printAll, Node.print, String.append_assoc]⟩
  | case3 c d ns ih =>
    rw [List.reverse_cons] at h
    obtain ⟨hl, hc⟩ := laid_concat.1 h
    obtain ⟨hl', hpr⟩ := ih hl
    have he : Node.printAll (absorb joinBefore d ns).reverse =
        Node.printAll (Node.comment d :: ns).reverse := by
      rw [hpr, List.reverse_cons, Node.printAll_append]
      simp [Node.printAll, Node.print]
    refine ⟨?_, ?_⟩
    · rw [List.reverse_cons]
      exact laid_concat.2 ⟨hl', by rw [hc, Node.extent_eq, Node.extent_eq, he]⟩
    · rw [List.reverse_cons, Node.printAll_append, he]
      simp [Node.printAll, Node.print]
  | case4 c ns => exact ⟨h, by simp [Node.printAll, Node.print]⟩

theorem trim_joinBefore {ns : List Node} (h : Laid 0 Node.span Node.print p ns.reverse) :
    Laid 0 Node.span Node.print p (trim joinBefore ns).2.reverse ∧
      Node.printAll (trim joinBefore ns).2.reverse ++ text (trim joinBefore ns).1.reverse =
        Node.printAll ns.reverse := by
  fun_induction trim joinBefore ns with
  | case1 s ns hs r ih =>
    rw [List.reverse_cons] at h
    obtain ⟨hl, hp⟩ := ih (laid_concat.1 h).1
    refine ⟨hl, ?_⟩
    rw [List.reverse_cons, text_append, ← String.append_assoc, hp, List.reverse_cons,
      Node.printAll_append]
    simp [text, Node.printAll, Node.print]
  | case2 s ns hs => exact ⟨h, by simp [text]⟩
  | case3 c ns =>
    obtain ⟨hl, hp⟩ := absorb_joinBefore h
    exact ⟨hl, by simp [text, hp, Node.printAll, Node.print]⟩
  | case4 ns => exact ⟨h, by simp [text]⟩

end Edge

namespace Selector

theorem print_eq (s : Selector) : s.print = s.before ++ Node.printAll s.nodes ++ s.after := by
  cases s
  rfl

/-- Trimming changes no node but combinators and comments. -/
theorem filter_trim (s : Selector) :
    s.trim.nodes.filter (fun n => !n.isFiller) = s.nodes.filter fun n => !n.isFiller := by
  simp only [trim]
  rw [List.filter_reverse, Edge.filter_trim, List.filter_reverse, List.reverse_reverse,
    Edge.filter_trim]

/-- What holds of every combinator and comment is not affected by trimming. -/
theorem every_trim {P : NodeRef → Prop} (hP : ∀ n : Node, n.isFiller → P (.node n))
    (s : Selector) :
    (∀ n ∈ s.trim.nodes, (NodeRef.node n).Every P) ↔
      ∀ n ∈ s.nodes, (NodeRef.node n).Every P := by
  have key : ∀ ns : List Node, (∀ n ∈ ns, (NodeRef.node n).Every P) ↔
      ∀ n ∈ ns.filter (fun n => !n.isFiller), (NodeRef.node n).Every P := by
    intro ns
    refine ⟨fun h n hn => h n (List.mem_filter.1 hn).1, fun h n hn => ?_⟩
    by_cases hf : n.isFiller
    · exact (NodeRef.every_of_isFiller hf).2 (hP n hf)
    · exact h n (List.mem_filter.2 ⟨hn, by simpa using hf⟩)
  rw [key, filter_trim, ← key]

/-- Trimming a selector keeps its text, and its nodes stay where the text has them. -/
theorem cover_trim {s : Selector}
    (h : Laid 0 Node.span Node.print (s.span.start + s.before.utf8ByteSize) s.nodes) :
    s.trim.span = s.span ∧ s.trim.print = s.print ∧
      Laid 0 Node.span Node.print (s.trim.span.start + s.trim.before.utf8ByteSize)
        s.trim.nodes := by
  obtain ⟨hl, hp⟩ := Edge.trim_joinAfter h
  obtain ⟨hl', hp'⟩ := Edge.trim_joinBefore (by rwa [List.reverse_reverse])
  refine ⟨rfl, ?_, ?_⟩
  · rw [List.reverse_reverse] at hp'
    rw [print_eq, print_eq, ← hp, ← hp']
    simp only [trim, String.append_assoc]
  · simp only [trim, String.utf8ByteSize_append, ← Nat.add_assoc]
    exact hl'

end Selector

end Selectors
