import Selectors.Proofs.Shape.Runs
import Selectors.Proofs.Shape.WellFormed
import Selectors.Tree.Equality

/-!
# Which combinators stand between compound selectors

Between two compound selectors stands nothing but comments, or blanks, or one of the other
combinators, behind which further ones are flagged (`Combinator.Run`).  A gap is read so that this
is true of it (`Gap.run_read`), and it ends where no combinator can follow, so that no run has two
gaps.  At the edges of a selector the blanks are trimmed away.

* `Selectors.parse_combinators`: this is so in every selector of a parsed tree.
-/

namespace Selectors

/-- The combinators that one run can have. -/
inductive Combinator.Run : List Combinator → Prop where
  | none : Run []
  | blanks {c : Combinator} (hc : c.kind = .descendant) (hvalid : c.invalid = false) : Run [c]
  /-- The first of several combinators is the one that counts. -/
  | marks {c : Combinator} {cs : List Combinator} (hkind : ∀ d ∈ c :: cs, d.kind ≠ .descendant)
      (hvalid : c.invalid = false) (hinvalid : ∀ d ∈ cs, d.invalid = true) : Run (c :: cs)

namespace Combinator.Run

variable {c d : Combinator} {cs : List Combinator}

theorem single (hvalid : c.invalid = false) : Run [c] := by
  by_cases hc : c.kind = .descendant
  · exact .blanks hc hvalid
  · exact .marks (by simpa using hc) hvalid (by simp)

/-- The last combinator is the only one, or one too many. -/
theorem concat_iff :
    Run (cs ++ [c]) ↔
      cs = [] ∧ c.invalid = false ∨
        cs ≠ [] ∧ Run cs ∧ (∀ d ∈ cs ++ [c], d.kind ≠ .descendant) ∧ c.invalid = true := by
  cases cs with
  | nil =>
    refine ⟨fun h => .inl ⟨rfl, ?_⟩, fun h => single (by simpa using h)⟩
    cases h with
    | blanks hc hvalid => exact hvalid
    | marks hkind hvalid hinvalid => exact hvalid
  | cons a as =>
    constructor
    · intro h
      generalize hds : as ++ [c] = ds at h
      rw [List.cons_append, hds] at h ⊢
      cases h with
      | blanks => simp at hds
      | marks hkind hvalid hinvalid =>
        subst hds
        obtain ⟨has, hlast⟩ := List.forall_mem_append.1 hinvalid
        refine .inr ⟨by simp, .marks (fun d hd => ?_) hvalid has, hkind, by simpa using hlast⟩
        exact hkind d (List.mem_append_left [c] hd)
    · rintro (⟨hnil, -⟩ | ⟨-, has, hkind, hinvalid⟩)
      · cases hnil
      · cases has with
        | blanks ha => exact absurd ha (hkind a (by simp))
        | marks _ hvalid hlater =>
          exact .marks hkind hvalid (List.forall_mem_append.2 ⟨hlater, by simpa using hinvalid⟩)

/-- The blanks around a combinator may change. -/
theorem concat_congr (h : Run (cs ++ [c])) (hkind : d.kind = c.kind)
    (hinvalid : d.invalid = c.invalid) : Run (cs ++ [d]) := by
  rw [concat_iff, List.forall_mem_append, List.forall_mem_singleton] at h ⊢
  rwa [hkind, hinvalid]

/-- Blanks are alone. -/
theorem eq_nil_of_concat (h : Run (cs ++ [c])) (hc : c.kind = .descendant) :
    cs = [] ∧ c.invalid = false := by
  rcases concat_iff.1 h with hsingle | ⟨-, -, hkind, -⟩
  · exact hsingle
  · exact absurd hc (hkind c (by simp))

/-- A further combinator is flagged. -/
theorem concat (h : Run (cs ++ [c])) (hc : c.kind ≠ .descendant) (hd : d.kind ≠ .descendant)
    (hinvalid : d.invalid = true) : Run (cs ++ [c] ++ [d]) := by
  have hkind : ∀ e ∈ cs ++ [c], e.kind ≠ .descendant := by
    rcases concat_iff.1 h with ⟨rfl, -⟩ | ⟨-, -, hkind, -⟩
    · simpa using hc
    · exact hkind
  have hboth := List.forall_mem_append.2 ⟨hkind, List.forall_mem_singleton.2 hd⟩
  exact concat_iff.2 (.inr ⟨by simp, h, hboth, hinvalid⟩)

/-- A run has no blanks, or nothing but blanks. -/
theorem blank_or (h : Run cs) :
    (∃ c, cs = [c] ∧ c.isBlanks) ∨ ∀ c ∈ cs, ¬c.isBlanks := by
  cases h with
  | none => exact .inr (by simp)
  | @blanks c hc _ => exact .inl ⟨c, rfl, by simpa [isBlanks] using hc⟩
  | marks hkind _ _ => exact .inr (by simpa [isBlanks] using hkind)

theorem dropWhile (h : Run cs) :
    Run (cs.dropWhile isBlanks) ∧ ∀ c ∈ cs.dropWhile isBlanks, ¬c.isBlanks := by
  rcases h.blank_or with ⟨c, rfl, hc⟩ | hcs
  · rw [List.dropWhile_cons_of_pos hc]
    exact ⟨.none, by simp⟩
  · rw [List.dropWhile_eq_self_iff.2 fun hl => hcs _ (List.getElem_mem hl)]
    exact ⟨h, hcs⟩

theorem rdropWhile (h : Run cs) :
    Run (cs.rdropWhile isBlanks) ∧ ∀ c ∈ cs.rdropWhile isBlanks, ¬c.isBlanks := by
  rcases h.blank_or with ⟨c, rfl, hc⟩ | hcs
  · rw [show [c] = [] ++ [c] from rfl, List.rdropWhile_concat_pos _ _ _ hc]
    exact ⟨.none, by simp⟩
  · rw [List.rdropWhile_eq_self_iff.2 fun hl => hcs _ (List.getLast_mem hl)]
    exact ⟨h, hcs⟩

end Combinator.Run

/-! ### Gaps -/

namespace Gap

variable {g : Gap} {t : Token} {ts : List Token}

/-- The combinators of a gap are those of one run. -/
def Runs (g : Gap) : Prop :=
  Combinator.Run (Node.combinators g.settled.reverse ++ [g.current])

theorem combinators_nodes (g : Gap) :
    Node.combinators g.nodes.reverse = Node.combinators g.settled.reverse ++ [g.current] := by
  rw [nodes, List.reverse_append, List.reverse_cons, ← List.map_reverse]
  simp [Node.combinators, Node.combinator?]

theorem runs_start (t : Token) : (start t).Runs := .single rfl

theorem Runs.pushBlanks (h : g.Runs) (t : Token) : (g.pushBlanks t).Runs := by
  unfold Gap.pushBlanks
  split
  · exact h
  · exact h.concat_congr rfl rfl

theorem Runs.pushCombinator (h : g.Runs) (atFront : Bool)
    (ht : CombinatorKind.ofText t.text ≠ .descendant) : (g.pushCombinator atFront t).Runs := by
  have hcomments : ∀ cs : List Comment, Node.combinators (cs.map .comment).reverse = [] := by
    intro cs
    rw [← List.map_reverse, Node.combinators_map_comment]
  simp only [Gap.pushCombinator]
  split
  · rename_i hs
    obtain ⟨hsettled, hvalid⟩ := h.eq_nil_of_concat hs
    split
    · rw [Runs, hsettled]
      exact .single hvalid
    · split
      · rw [Runs, hcomments]
        exact .single rfl
      · rw [Runs, List.reverse_append, Node.combinators_append, hsettled, hcomments]
        exact .single rfl
  · rename_i hs
    rw [Runs, combinators_nodes]
    exact h.concat hs ht rfl

theorem Runs.push (h : g.Runs) (atFront : Bool) (ht : t.Legible) (hk : t.kind.isGap) :
    (g.push atFront t).Runs := by
  unfold Gap.push
  split
  · exact h.pushBlanks t
  · exact h
  · rename_i hspace hcomment
    have hcombinator := TokenKind.isCombinator_of_isGap hk hcomment
    exact h.pushCombinator atFront (ht.ofText_ne_descendant hcombinator hspace)

/-- What a gap reads is one run. -/
theorem run_read (atFront : Bool) (t : Token) (hts : ∀ u ∈ ts, u.Legible) :
    Combinator.Run (Node.combinators (read atFront t ts).nodes.reverse) := by
  have hruns : (read atFront t ts).Runs :=
    read_induction atFront (runs_start t) fun u hu hgap g hg => hg.push atFront (hts u hu) hgap
  rw [combinators_nodes]
  exact hruns

end Gap

/-! ### Selectors -/

/-- The runs of a selector are as they should be, and the first and the last have no blanks. -/
structure Selector.RunsTrimmed (s : Selector) : Prop where
  run : ∀ g ∈ Node.runs s.nodes, Combinator.Run g
  first : ∀ g ∈ (Node.runs s.nodes).head?, ∀ c ∈ g, ¬c.isBlanks
  last : ∀ g ∈ (Node.runs s.nodes).getLast?, ∀ c ∈ g, ¬c.isBlanks

theorem Selector.runsTrimmed_trim {s : Selector}
    (h : ∀ g ∈ Node.runs s.nodes, Combinator.Run g) : s.trim.RunsTrimmed := by
  rcases s.runs_trim with ⟨g, hruns, htrim⟩ | ⟨g, gs, l, hruns, htrim⟩
  · rw [hruns] at h
    have hg := (h g (by simp)).dropWhile.1.rdropWhile
    constructor
    · rw [htrim]
      simpa using hg.1
    · rw [htrim]
      simpa using hg.2
    · rw [htrim]
      simpa using hg.2
  · rw [hruns] at h
    obtain ⟨hg, hgs⟩ := List.forall_mem_cons.1 h
    obtain ⟨hgs, hl⟩ := List.forall_mem_append.1 hgs
    have hfirst := hg.dropWhile
    have hlast := (hl l (by simp)).rdropWhile
    constructor
    · rw [htrim]
      exact List.forall_mem_cons.2
        ⟨hfirst.1, List.forall_mem_append.2 ⟨hgs, by simpa using hlast.1⟩⟩
    · rw [htrim]
      simpa using hfirst.2
    · rw [htrim, ← List.cons_append, List.getLast?_concat]
      simpa using hlast.2

/-- The runs of a selector are as they should be; of other items nothing is said. -/
def NodeRef.RunsTrimmed : NodeRef → Prop
  | selector s => s.RunsTrimmed
  | _ => True

/-! ### Lists -/

/-- What holds of a selector being read.  The last run may still go on, but if it has combinators
already, a gap was read, and that ended where no combinator and no comment follows. -/
structure Draft.Runs (ts : List Token) (d : Draft) : Prop where
  every : ∀ n ∈ d.nodes, (NodeRef.node n).Every NodeRef.RunsTrimmed
  runs : ∀ g ∈ Node.runs d.nodes.reverse, Combinator.Run g
  last : ∀ g ∈ (Node.runs d.nodes.reverse).getLast?, g ≠ [] → ∀ u ∈ ts.head?, ¬u.kind.isGap

namespace Draft.Runs

variable {d : Draft} {n : Node} {t : Token} {ts rest : List Token}

theorem fresh (ts : List Token) (p : Nat) : Draft.Runs ts { start := p } :=
  ⟨by simp, by simp [Node.runs, Combinator.Run.none], by simp [Node.runs]⟩

/-- A node that is neither a combinator nor a comment comes in the place of nodes in the end. -/
theorem replace (dropped : List Node) {old : List Node} (h : d.Runs ts)
    (hd : d.nodes = dropped ++ old) (hlast : ∀ m ∈ dropped.getLast?, ¬m.isFiller) (hn : ¬n.isFiller)
    (hevery : (NodeRef.node n).Every NodeRef.RunsTrimmed) (rest : List Token) :
    Draft.Runs rest { d with nodes := n :: old } := by
  have hold : ∀ g ∈ Node.runs old.reverse, Combinator.Run g := by
    have hruns := h.runs
    cases dropped using List.reverseRecOn with
    | nil => rwa [hd] at hruns
    | append_singleton ms m =>
      rw [hd, List.append_assoc, List.singleton_append, List.reverse_append, List.reverse_cons,
        List.append_assoc, List.singleton_append,
        Node.runs_append_cons (hlast m (by simp))] at hruns
      exact (List.forall_mem_append.1 hruns).1
  have hnodes : Node.runs (n :: old).reverse = Node.runs old.reverse ++ [[]] := by
    rw [List.reverse_cons, Node.runs_append_cons hn]
    rfl
  refine ⟨List.forall_mem_cons.2 ⟨hevery, fun m hm => ?_⟩, ?_, ?_⟩
  · exact h.every m (hd ▸ List.mem_append_right dropped hm)
  · rw [hnodes]
    exact List.forall_mem_append.2 ⟨hold, by simp [Combinator.Run.none]⟩
  · rw [hnodes]
    simp

/-- Combinators and comments are added to a last run without combinators. -/
theorem extend (fs : List Node) {before : String} (h : d.Runs (t :: ts)) (ht : t.kind.isGap)
    (hfs : ∀ n ∈ fs, n.isFiller) (hrun : Combinator.Run (Node.combinators fs.reverse))
    (hrest : Node.combinators fs.reverse ≠ [] → ∀ u ∈ rest.head?, ¬u.kind.isGap) :
    Draft.Runs rest { d with before := before, nodes := fs ++ d.nodes } := by
  obtain ⟨gs, g, hruns, happend⟩ := Node.runs_append_fillers d.nodes.reverse
  obtain ⟨hevery, hall, hlast⟩ := h
  have hempty : g = [] := by
    by_contra hg
    exact hlast g (by simp [hruns]) hg t rfl ht
  have hnodes : Node.runs (fs ++ d.nodes).reverse = gs ++ [Node.combinators fs.reverse] := by
    rw [List.reverse_append, happend _ fun n hn => hfs n (List.mem_reverse.1 hn), hempty,
      List.nil_append]
  rw [hruns] at hall
  refine ⟨fun n hn => ?_, ?_, ?_⟩
  · rcases List.mem_append.1 hn with hn | hn
    · exact (NodeRef.every_of_isFiller (hfs n hn)).2 trivial
    · exact hevery n hn
  · rw [hnodes]
    exact List.forall_mem_append.2 ⟨(List.forall_mem_append.1 hall).1, by simpa using hrun⟩
  · rw [hnodes]
    simpa using hrest

theorem stepGap (h : d.Runs (t :: ts)) (hk : t.kind.isCombinator)
    (hts : ∀ u ∈ t :: ts, u.Legible) : (d.stepGap t ts).draft.Runs (d.stepGap t ts).rest := by
  have hrun := Gap.run_read d.nodes.isEmpty t (List.forall_mem_cons.1 hts).2
  refine h.extend _ (TokenKind.isGap_of_isCombinator hk)
    (fun n hn => Gap.isFiller_of_mem_read hn) hrun fun _ u hu => ?_
  have hhead := List.head?_dropWhile_not (fun u : Token => u.kind.isGap) ts
  rw [show (ts.dropWhile fun u => u.kind.isGap).head? = some u from hu] at hhead
  simpa using hhead

theorem close (h : d.Runs ts) (stop : Nat) :
    (NodeRef.selector (d.close stop)).Every NodeRef.RunsTrimmed := by
  refine NodeRef.every_selector.2 ⟨Selector.runsTrimmed_trim h.runs, ?_⟩
  refine (Selector.every_trim (fun n _ => trivial) _).2 fun n hn => ?_
  exact h.every n (List.mem_reverse.1 hn)

end Draft.Runs

/-- Every way of reading keeps the runs as they should be. -/
theorem Reads.invariant_runs :
    Reads.Invariant (fun _ _ => ()) (fun _ _ ts _ => Draft.Runs ts)
      (fun _ _ _ s => (NodeRef.selector s).Every NodeRef.RunsTrimmed) where
  fresh _ p := .fresh _ p
  plain h hn rest :=
    h.replace [] rfl (by simp) hn.not_isFiller
      ((NodeRef.every_of_childless hn.childless).2 trivial) rest
  comment h ht :=
    h.extend [.comment _] (by rw [ht]; rfl) (by simp) .none
      (by simp [Node.combinators, Node.combinator?])
  bar h hd hlast _ _ _ _ rest :=
    h.replace _ hd hlast (by simp [Node.isFiller]) ((NodeRef.every_of_childless rfl).2 trivial) rest
  gap h hk hts := h.stepGap hk hts
  expression p _ _ :=
    (Draft.Runs.fresh [] p).replace [] rfl (by simp) (by simp [Node.isFiller])
      (NodeRef.every_nth.2 ⟨trivial, fun _ _ => trivial⟩) _
  owned h hd _ hlist stop rest := by
    refine h.replace [_] hd (by simp [Node.isFiller]) (by simp [Node.isFiller]) ?_ rest
    refine NodeRef.every_functional.2 ⟨trivial, fun s hs => ?_⟩
    obtain ⟨i, hi⟩ := List.mem_iff_getElem?.1 hs
    exact hlist i s hi
  close h stop := h.close stop

/-- **The combinators of a parsed tree.**  In every selector, a run of combinators and comments has
no combinator, or blanks alone, or other combinators of which all but the first are flagged.  A run
at an edge of the selector has no blanks. -/
theorem parse_combinators (source : String) (offset : Nat) :
    ∀ s ∈ parse source offset, ∀ u, NodeRef.Within (.selector u) (.selector s) →
      ∀ pre run post, u.nodes = pre ++ run ++ post → Node.IsRun pre run post →
        Combinator.Run (Node.combinators run) ∧
          (pre = [] ∨ post = [] → ∀ c ∈ Node.combinators run, c.kind ≠ .descendant) := by
  intro s hs u hu pre run post hnodes hrun
  obtain ⟨i, hi⟩ := List.mem_iff_getElem?.1 hs
  have htrimmed : u.RunsTrimmed := Reads.invariant_runs.parse () source offset i s hi _ hu
  obtain ⟨gs, hs, hruns, hpre, hpost⟩ := hrun.runs
  rw [← hnodes] at hruns
  obtain ⟨hall, hfirst, hlast⟩ := htrimmed
  rw [hruns] at hall hfirst hlast
  refine ⟨hall _ (by simp), ?_⟩
  rintro (hedge | hedge) c hc
  · have hblank := hfirst (Node.combinators run) (by simp [hpre hedge]) c hc
    simpa [Combinator.isBlanks] using hblank
  · have hblank := hlast (Node.combinators run) (by simp [hpost hedge]) c hc
    simpa [Combinator.isBlanks] using hblank

/-- The comment does not end the run, so the second combinator is flagged. -/
theorem parse_combinators_flagged :
    let a : Node := .element ⟨0, 1⟩ .type "a" none
    let b : Node := .element ⟨9, 10⟩ .type "b" none
    let first : Combinator := ⟨⟨1, 3⟩, .subsequentSibling, "~", " ", "", false⟩
    let second : Combinator := ⟨⟨7, 9⟩, .nextSibling, "+", "", " ", true⟩
    let run : List Node :=
      [.combinator first, .comment ⟨⟨3, 7⟩, "/**/", "", ""⟩, .combinator second]
    let s : Selector := ⟨⟨0, 10⟩, "", "", a :: run ++ [b]⟩
    s ∈ parse "a ~/**/+ b" 0 ∧ NodeRef.Within (.selector s) (.selector s) ∧
      s.nodes = [a] ++ run ++ [b] ∧ Node.IsRun [a] run [b] ∧
      Combinator.Run [first, second] ∧
      ([a] = [] ∨ [b] = [] → ∀ c ∈ [first, second], c.kind ≠ .descendant) := by
  intro a b first second run s
  have hs : s ∈ parse "a ~/**/+ b" 0 := by
    have hparse : parse "a ~/**/+ b" 0 = [s] := by decide +kernel
    rw [hparse]
    exact List.mem_singleton_self s
  have hrun : Node.IsRun [a] run [b] :=
    ⟨by simp [run], by simp [a, Node.isFiller], by simp [b, Node.isFiller]⟩
  exact ⟨hs, .self, rfl, hrun, parse_combinators "a ~/**/+ b" 0 s hs s .self [a] run [b] rfl hrun⟩

end Selectors
