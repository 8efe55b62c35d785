import Selectors.Proofs.Coverage.Gap

/-!
# Trimming looks at the edges only

Trimming goes through blanks and comments up to the first node that is neither, and leaves what
begins there as it is (`Edge.trim_append`).  What holds of the nodes holds of those that are left,
and of the blanks that were taken out, if it is kept where blanks join a comment
(`Edge.forall_trim`, `Selector.forall_trim`).
-/

namespace Selectors

namespace Edge

variable {join : Comment → Combinator → Comment} {c : Comment} {ns ms : List Node}

/-- The first node, if there is one, is neither blanks nor a comment. -/
def Starts (ns : List Node) : Prop := ∀ n ∈ ns.head?, ¬n.isFiller

theorem absorb_of_starts (h : Starts ns) (c : Comment) : absorb join c ns = .comment c :: ns := by
  cases ns with
  | nil => rfl
  | cons n ns =>
    have hn := h n rfl
    cases n with
    | combinator | comment => exact absurd rfl hn
    | _ => rfl

theorem trim_of_starts (h : Starts ns) : trim join ns = ([], ns) := by
  cases ns with
  | nil => rfl
  | cons n ns =>
    have hn := h n rfl
    cases n with
    | combinator | comment => exact absurd rfl hn
    | _ => rfl

/-- Nodes that start with neither a combinator nor a comment. -/
theorem starts_of_ne (hs : ∀ s ms, ns = .combinator s :: ms → False)
    (hc : ∀ c ms, ns = .comment c :: ms → False) : Starts ns := by
  cases ns with
  | nil => simp [Starts]
  | cons n ns =>
    cases n with
    | combinator s => exact (hs s ns rfl).elim
    | comment c => exact (hc c ns rfl).elim
    | _ => simp [Starts, Node.isFiller]

theorem Starts.append (hns : Starts ns) (hms : Starts ms) : Starts (ns ++ ms) := by
  cases ns with
  | nil => exact hms
  | cons n ns => exact hns

theorem absorb_append (h : Starts ms) (c : Comment) (ns : List Node) :
    absorb join c (ns ++ ms) = absorb join c ns ++ ms := by
  fun_induction absorb join c ns with
  | case1 c s ns hs ih => rw [List.cons_append, absorb, if_pos hs, ih]
  | case2 c s ns hs => rw [List.cons_append, absorb, if_neg hs, List.cons_append, List.cons_append]
  | case3 c d ns ih => rw [List.cons_append, absorb, ih, List.cons_append]
  | case4 c ns hs hc => rw [absorb_of_starts ((starts_of_ne hs hc).append h), List.cons_append]

/-- **What begins behind the edge stays as it is.** -/
theorem trim_append (h : Starts ms) (ns : List Node) :
    trim join (ns ++ ms) = ((trim join ns).1, (trim join ns).2 ++ ms) := by
  fun_induction trim join ns with
  | case1 s ns hs r ih => rw [List.cons_append, trim, if_pos hs, ih]
  | case2 s ns hs =>
    rw [List.cons_append, trim, if_neg hs]
  | case3 c ns => rw [List.cons_append, trim, absorb_append h]
  | case4 ns hs hc => rw [trim_of_starts ((starts_of_ne hs hc).append h)]

variable {Q : Node → Prop}

theorem forall_absorb
    (hjoin : ∀ c s, s.kind = .descendant → Q (.comment c) → Q (.combinator s) →
      Q (.comment (join c s)))
    (hc : Q (.comment c)) (h : ∀ n ∈ ns, Q n) : ∀ n ∈ absorb join c ns, Q n := by
  fun_induction absorb join c ns with
  | case1 c s ns hs ih =>
    obtain ⟨hcomb, hns⟩ := List.forall_mem_cons.1 h
    exact ih (hjoin c s hs hc hcomb) hns
  | case2 c s ns hs => exact List.forall_mem_cons.2 ⟨hc, h⟩
  | case3 c d ns ih =>
    obtain ⟨hd, hns⟩ := List.forall_mem_cons.1 h
    exact List.forall_mem_cons.2 ⟨hc, ih hd hns⟩
  | case4 c ns hs hc' => exact List.forall_mem_cons.2 ⟨hc, h⟩

theorem forall_trim
    (hjoin : ∀ c s, s.kind = .descendant → Q (.comment c) → Q (.combinator s) →
      Q (.comment (join c s)))
    (h : ∀ n ∈ ns, Q n) :
    (∀ n ∈ (trim join ns).2, Q n) ∧
      ∀ s ∈ (trim join ns).1, s.kind = .descendant ∧ Q (.combinator s) := by
  fun_induction trim join ns with
  | case1 s ns hs r ih =>
    obtain ⟨hcomb, hns⟩ := List.forall_mem_cons.1 h
    obtain ⟨hnodes, hblanks⟩ := ih hns
    exact ⟨hnodes, List.forall_mem_cons.2 ⟨⟨hs, hcomb⟩, hblanks⟩⟩
  | case2 s ns hs => exact ⟨h, by simp⟩
  | case3 c ns =>
    obtain ⟨hc, hns⟩ := List.forall_mem_cons.1 h
    exact ⟨forall_absorb hjoin hc hns, by simp⟩
  | case4 ns hs hc => exact ⟨h, by simp⟩

end Edge

namespace Selector

open Edge

/-- What holds of the nodes, and where blanks join a comment, holds of the nodes of the trimmed
selector and of the blanks that it takes over. -/
theorem forall_trim {Q : Node → Prop} {s : Selector} (h : ∀ n ∈ s.nodes, Q n)
    (hafter : ∀ c b, b.kind = .descendant → Q (.comment c) → Q (.combinator b) →
      Q (.comment (joinAfter c b)))
    (hbefore : ∀ c b, b.kind = .descendant → Q (.comment c) → Q (.combinator b) →
      Q (.comment (joinBefore c b))) :
    (∀ n ∈ s.trim.nodes, Q n) ∧
      ∃ bs cs, s.trim.before = s.before ++ text bs ∧ s.trim.after = text cs ++ s.after ∧
        ∀ b ∈ bs ++ cs, b.kind = .descendant ∧ Q (.combinator b) := by
  obtain ⟨hleft, hbs⟩ := Edge.forall_trim hafter h
  obtain ⟨hright, hcs⟩ := Edge.forall_trim hbefore fun n hn => hleft n (List.mem_reverse.1 hn)
  refine ⟨fun n hn => hright n (List.mem_reverse.1 hn), _, _, rfl, rfl, fun b hb => ?_⟩
  rcases List.mem_append.1 hb with hb | hb
  · exact hbs b hb
  · exact hcs b (List.mem_reverse.1 hb)

/-- A first node that is neither blanks nor a comment stays. -/
theorem nodes_trim_cons {s : Selector} {n : Node} {ns : List Node} (hs : s.nodes = n :: ns)
    (hn : ¬n.isFiller) : s.trim.nodes = n :: (Edge.trim joinBefore ns.reverse).2.reverse := by
  have hleft : Edge.trim joinAfter s.nodes = ([], n :: ns) := by
    rw [hs]
    exact trim_of_starts (by simpa [Starts] using hn)
  have hright : Edge.trim joinBefore (ns.reverse ++ [n]) =
      ((Edge.trim joinBefore ns.reverse).1, (Edge.trim joinBefore ns.reverse).2 ++ [n]) :=
    trim_append (by simpa [Starts] using hn) ns.reverse
  simp only [trim, hleft, List.reverse_cons, hright, List.reverse_append, List.reverse_nil,
    List.nil_append, List.singleton_append]

/-- A last node that is neither blanks nor a comment stays, and nothing is trimmed after it. -/
theorem trim_concat {s : Selector} {ns : List Node} {n : Node} (hs : s.nodes = ns ++ [n])
    (hn : ¬n.isFiller) :
    s.trim.nodes = (Edge.trim joinAfter ns).2 ++ [n] ∧ s.trim.after = s.after := by
  have hleft : (Edge.trim joinAfter s.nodes).2 = (Edge.trim joinAfter ns).2 ++ [n] := by
    rw [hs, trim_append (by simpa [Starts] using hn) ns]
  have hright : Edge.trim joinBefore ((Edge.trim joinAfter ns).2 ++ [n]).reverse =
      ([], ((Edge.trim joinAfter ns).2 ++ [n]).reverse) :=
    trim_of_starts (by simpa [Starts] using hn)
  constructor
  · simp only [trim, hleft, hright, List.reverse_reverse]
  · simp only [trim, hleft, hright, List.reverse_nil, text, String.empty_append]

end Selector

end Selectors
