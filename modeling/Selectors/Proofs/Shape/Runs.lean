import Mathlib.Data.List.DropRight
import Selectors.Proofs.Shape.Edges

/-!
# Runs of combinators and comments

The nodes of a selector that are neither combinators nor comments cut its list of nodes into runs.
`Node.runs` gives the combinators of every run, in order, so there is one more of them than there
are such nodes.  What is appended goes to the last run (`Node.runs_append_fillers`), a simple
selector ends it (`Node.runs_append_cons`), and trimming takes blanks from the front of the first
run (`Edge.runs_trim`).

* `Node.IsRun`: a part of a list of nodes is a run that can not be made longer.
* `IsRun.runs`: its combinators are among `Node.runs`.
-/

namespace Selectors

namespace Node

/-- The combinator that a node is. -/
def combinator? : Node → Option Combinator
  | combinator c => some c
  | _ => none

/-- The combinators among some nodes. -/
def combinators (ns : List Node) : List Combinator := ns.filterMap combinator?

/-- The combinators and comments `run` stand between `pre` and `post`, neither of which goes on with
another one. -/
structure IsRun (pre run post : List Node) : Prop where
  fillers : ∀ n ∈ run, n.isFiller
  left : ∀ n ∈ pre.getLast?, ¬n.isFiller
  right : ∀ n ∈ post.head?, ¬n.isFiller

/-- The combinators of every run. -/
def runs : List Node → List (List Combinator)
  | [] => [[]]
  | combinator c :: ns => (runs ns).modifyHead (c :: ·)
  | comment _ :: ns => runs ns
  | _ :: ns => [] :: runs ns

@[simp] theorem combinators_append (ns ms : List Node) :
    combinators (ns ++ ms) = combinators ns ++ combinators ms := List.filterMap_append

@[simp] theorem combinators_map_comment (cs : List Comment) :
    combinators (cs.map .comment) = [] := by
  induction cs with
  | nil => rfl
  | cons c cs ih => exact ih

variable {n : Node} {ns ms fs : List Node}

theorem runs_cons (hn : ¬n.isFiller) (ns : List Node) : runs (n :: ns) = [] :: runs ns := by
  cases n with
  | combinator | comment => exact absurd rfl hn
  | _ => rfl

theorem runs_ne_nil (ns : List Node) : runs ns ≠ [] := by
  fun_induction runs ns with
  | case2 c ns ih => simpa using ih
  | case3 c ns ih => exact ih
  | _ => simp

/-- A node that is neither ends a run and starts the next one. -/
theorem runs_append_cons (hn : ¬n.isFiller) (ns ms : List Node) :
    runs (ns ++ n :: ms) = runs ns ++ runs ms := by
  induction ns with
  | nil => exact runs_cons hn ms
  | cons m ns ih =>
    obtain ⟨g, gs, hg⟩ := List.exists_cons_of_ne_nil (runs_ne_nil ns)
    cases m with
    | combinator c =>
      rw [List.cons_append, runs, ih, runs, hg]
      rfl
    | comment c => exact ih
    | _ => exact congrArg ([] :: ·) ih

theorem runs_of_fillers (h : ∀ n ∈ fs, n.isFiller) : runs fs = [combinators fs] := by
  induction fs with
  | nil => rfl
  | cons n fs ih =>
    obtain ⟨hn, hfs⟩ := List.forall_mem_cons.1 h
    cases n with
    | combinator c =>
      rw [runs, ih hfs]
      rfl
    | comment c => exact ih hfs
    | _ => cases hn

/-- The last node that is neither a combinator nor a comment, if there is one. -/
theorem fillers_or_split (ns : List Node) :
    (∀ n ∈ ns, n.isFiller) ∨
      ∃ xs n fs, ns = xs ++ n :: fs ∧ ¬n.isFiller ∧ ∀ m ∈ fs, m.isFiller := by
  induction ns with
  | nil => exact .inl (by simp)
  | cons n ns ih =>
    rcases ih with hns | ⟨xs, m, fs, rfl, hm, hfs⟩
    · by_cases hn : n.isFiller
      · exact .inl (List.forall_mem_cons.2 ⟨hn, hns⟩)
      · exact .inr ⟨[], n, ns, rfl, hn, hns⟩
    · exact .inr ⟨n :: xs, m, fs, rfl, hm, hfs⟩

/-- Combinators and comments in the end belong to the last run. -/
theorem runs_append_fillers (ns : List Node) :
    ∃ gs g, runs ns = gs ++ [g] ∧
      ∀ fs, (∀ n ∈ fs, n.isFiller) → runs (ns ++ fs) = gs ++ [g ++ combinators fs] := by
  rcases fillers_or_split ns with hns | ⟨xs, n, ys, rfl, hn, hys⟩
  · refine ⟨[], combinators ns, runs_of_fillers hns, fun fs hfs => ?_⟩
    rw [runs_of_fillers (List.forall_mem_append.2 ⟨hns, hfs⟩), combinators_append]
    rfl
  · refine ⟨runs xs, combinators ys, ?_, fun fs hfs => ?_⟩
    · rw [runs_append_cons hn, runs_of_fillers hys]
    · rw [List.append_assoc, List.cons_append, runs_append_cons hn,
        runs_of_fillers (List.forall_mem_append.2 ⟨hys, hfs⟩), combinators_append]

theorem runs_reverse (ns : List Node) : runs ns.reverse = ((runs ns).map List.reverse).reverse := by
  induction ns with
  | nil => rfl
  | cons n ns ih =>
    obtain ⟨gs, g, hg, happend⟩ := runs_append_fillers ns.reverse
    obtain ⟨x, xs, hx⟩ := List.exists_cons_of_ne_nil (runs_ne_nil ns)
    rw [hg, hx, List.map_cons, List.reverse_cons] at ih
    obtain ⟨rfl, hlast⟩ := List.append_inj' ih rfl
    obtain rfl := List.singleton_inj.1 hlast
    rw [List.reverse_cons]
    cases n with
    | combinator c =>
      rw [happend [.combinator c] (by simp), runs, hx]
      simp [combinators, combinator?]
    | comment c =>
      rw [happend [.comment c] (by simp), runs, hx]
      simp [combinators, combinator?]
    | _ =>
      rw [runs_append_cons (by simp [isFiller]), runs_cons (by simp [isFiller]), hg, hx]
      simp [runs]

/-- The combinators of a run stand among those of all runs; in front if nothing precedes the run,
and last if nothing follows it. -/
theorem IsRun.runs {pre run post : List Node} (h : IsRun pre run post) :
    ∃ gs hs, runs (pre ++ run ++ post) = gs ++ combinators run :: hs ∧
      (pre = [] → gs = []) ∧ (post = [] → hs = []) := by
  have hright : ∃ hs, Node.runs (run ++ post) = combinators run :: hs ∧ (post = [] → hs = []) := by
    cases post with
    | nil => exact ⟨[], by rw [List.append_nil, runs_of_fillers h.fillers], fun _ => rfl⟩
    | cons n post =>
      refine ⟨Node.runs post, ?_, by simp⟩
      rw [runs_append_cons (h.right n rfl), runs_of_fillers h.fillers]
      rfl
  obtain ⟨hs, hruns, hpost⟩ := hright
  rw [List.append_assoc]
  cases pre using List.reverseRecOn with
  | nil => exact ⟨[], hs, hruns, fun _ => rfl, hpost⟩
  | append_singleton pre n =>
    refine ⟨Node.runs pre, hs, ?_, by simp, hpost⟩
    rw [List.append_assoc, List.singleton_append, runs_append_cons (h.left n (by simp)), hruns]

end Node

/-! ### Trimming -/

namespace Combinator

/-- Whether a combinator is blanks. -/
def isBlanks (c : Combinator) : Bool := c.kind = .descendant

end Combinator

namespace Edge

open Node (runs)

variable {join : Comment → Combinator → Comment} {ns : List Node}

/-- Blanks are taken from the front of the first run. -/
def dropBlanks (gs : List (List Combinator)) : List (List Combinator) :=
  gs.modifyHead (List.dropWhile Combinator.isBlanks)

theorem dropBlanks_of_starts (h : Starts ns) : dropBlanks (runs ns) = runs ns := by
  cases ns with
  | nil => rfl
  | cons n ns =>
    rw [Node.runs_cons (h n rfl)]
    rfl

theorem dropBlanks_runs_combinator (s : Combinator) (ns : List Node) :
    dropBlanks (runs (.combinator s :: ns)) =
      if s.kind = .descendant then dropBlanks (runs ns) else runs (.combinator s :: ns) := by
  obtain ⟨g, gs, hg⟩ := List.exists_cons_of_ne_nil (Node.runs_ne_nil ns)
  simp only [runs, hg, dropBlanks, List.modifyHead_cons, List.dropWhile_cons,
    Combinator.isBlanks, decide_eq_true_eq]
  split <;> rfl

theorem runs_absorb (c : Comment) (ns : List Node) :
    runs (absorb join c ns) = dropBlanks (runs ns) := by
  fun_induction absorb join c ns with
  | case1 c s ns hs ih => rw [ih, dropBlanks_runs_combinator, if_pos hs]
  | case2 c s ns hs =>
    rw [dropBlanks_runs_combinator, if_neg hs]
    rfl
  | case3 c d ns ih => exact ih
  | case4 c ns hs hc =>
    rw [dropBlanks_of_starts (starts_of_ne hs hc)]
    rfl

theorem runs_trim (ns : List Node) : runs (trim join ns).2 = dropBlanks (runs ns) := by
  fun_induction trim join ns with
  | case1 s ns hs r ih => rw [ih, dropBlanks_runs_combinator, if_pos hs]
  | case2 s ns hs => rw [dropBlanks_runs_combinator, if_neg hs]
  | case3 c ns => exact runs_absorb c ns
  | case4 ns hs hc => rw [dropBlanks_of_starts (starts_of_ne hs hc)]

end Edge

/-- Trimming takes blanks from the front of the first run and from the end of the last one. -/
theorem Selector.runs_trim (s : Selector) :
    (∃ g, Node.runs s.nodes = [g] ∧
        Node.runs s.trim.nodes =
          [(g.dropWhile Combinator.isBlanks).rdropWhile Combinator.isBlanks]) ∨
      ∃ g gs h, Node.runs s.nodes = g :: (gs ++ [h]) ∧
        Node.runs s.trim.nodes =
          g.dropWhile Combinator.isBlanks :: (gs ++ [h.rdropWhile Combinator.isBlanks]) := by
  obtain ⟨g, gs, hg⟩ := List.exists_cons_of_ne_nil (Node.runs_ne_nil s.nodes)
  have htrim : Node.runs s.trim.nodes =
      ((Edge.dropBlanks (((Edge.dropBlanks (g :: gs)).map List.reverse).reverse)).map
        List.reverse).reverse := by
    rw [Selector.trim, Node.runs_reverse, Edge.runs_trim, Node.runs_reverse, Edge.runs_trim, hg]
  rw [htrim, hg]
  cases gs using List.reverseRecOn with
  | nil => exact .inl ⟨g, rfl, by simp [Edge.dropBlanks, List.rdropWhile]⟩
  | append_singleton gs h =>
    exact .inr ⟨g, gs, h, rfl, by simp [Edge.dropBlanks, List.rdropWhile]⟩

end Selectors
