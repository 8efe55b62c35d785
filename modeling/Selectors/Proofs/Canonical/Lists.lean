import Selectors.Proofs.Canonical.Chains

/-!
# Reading printed lists

A canonical selector is read back with the blanks at its edges, which are read as combinators and
trimmed when the selector is closed, and a canonical list is read back selector by selector
(`Canonical.leads`).  The induction on the nesting supplies the lists inside.
-/

namespace Selectors

open Lexer Canonical

variable {stop depth p : Nat} {rest : List Char} {nested : List Selector → Prop}

/-! ### Edges -/

/-- What the blanks at an edge are read as. -/
def edge (s : String) : List Node :=
  if s = "" then [] else [.combinator { span := default, kind := .descendant, text := s }]

theorem printAll_edge (s : String) : Node.printAll (edge s) = s := by
  by_cases h : s = "" <;> simp [edge, h, Node.printAll, Node.print, Combinator.print]

theorem readsNodes_edge {s : String} (hs : IsBlanks s) (h : EndsGap rest) :
    ReadsNodes stop depth (edge s) rest := by
  by_cases hne : s = ""
  · rw [edge, if_pos hne]
    exact readsNodes_nil
  · rw [edge, if_neg hne]
    refine readsNodes_singleton fun p b d => ?_
    obtain ⟨c', q, hlead, hc'⟩ := leads_combinator stop depth
      (c := { span := default, kind := .descendant, text := s }) p b d
      ⟨rfl, .inl ⟨rfl, hne, hs, rfl, rfl⟩⟩ h
    exact ⟨.combinator c', q, hlead, congrArg Node.combinator hc'⟩

theorem unplaced_edge (s : String) : (edge s).map Node.unplaced = edge s := by
  unfold edge
  split <;> rfl

theorem isFiller_unplaced (n : Node) : n.unplaced.isFiller = n.isFiller := by
  cases n <;> simp [Node.unplaced, Node.isFiller]

/-- Whether a node is a filler shows without its spans. -/
theorem isFiller_of_unplaced {o o' : Option Node}
    (h : o.map Node.unplaced = o'.map Node.unplaced) (ho' : ∀ n ∈ o', n.isFiller = false) :
    ∀ n ∈ o, n.isFiller = false := by
  rintro n rfl
  obtain ⟨m, rfl, hm⟩ := Option.map_eq_some_iff.1 h.symm
  rw [← isFiller_unplaced, ← hm, isFiller_unplaced]
  exact ho' m rfl

/-- Trimming takes the blanks at an edge off, up to the first simple selector. -/
theorem trim_edge (join : Comment → Combinator → Comment) {s : String} {ns ms : List Node}
    (hns : ns.map Node.unplaced = edge s) (hms : ∀ m ∈ ms.head?, m.isFiller = false) :
    (Edge.trim join (ns ++ ms)).2 = ms ∧ Edge.text (Edge.trim join (ns ++ ms)).1 = s ∧
      Edge.text (Edge.trim join (ns ++ ms)).1.reverse = s := by
  -- nothing is trimmed from a simple selector on
  have hstop : Edge.trim join ms = ([], ms) := by
    cases ms with
    | nil => rfl
    | cons m ms =>
      have hm := hms m rfl
      cases m <;> first | rfl | cases hm
  by_cases hs : s = ""
  · subst hs
    rw [edge, if_pos rfl, List.map_eq_nil_iff] at hns
    subst hns
    rw [List.nil_append, hstop]
    exact ⟨rfl, rfl, rfl⟩
  · rw [edge, if_neg hs] at hns
    obtain ⟨n, rfl, hn⟩ := List.map_eq_singleton_iff.1 hns
    obtain ⟨c, rfl⟩ : ∃ c, n = .combinator c := by
      cases n <;> first | exact ⟨_, rfl⟩ | cases hn
    have hc : c.unplaced = { span := default, kind := .descendant, text := s } :=
      Node.combinator.inj hn
    obtain ⟨span, kind, text, before, after, invalid⟩ := c
    cases hc
    simp [Edge.trim, hstop, Edge.text, Combinator.print]

/-- A draft with blanks at both edges is closed to the selector with these blanks. -/
theorem unplaced_close {d : Draft} {before after : String} {pre ns post : List Node} (x : Nat)
    (hbefore : d.before = "") (hnodes : d.nodes.reverse = pre ++ (ns ++ post))
    (hpre : pre.map Node.unplaced = edge before) (hpost : post.map Node.unplaced = edge after)
    (hfirst : ∀ n ∈ ns.head?, n.isFiller = false) (hlast : ∀ n ∈ ns.getLast?, n.isFiller = false)
    (hne : ns ≠ []) :
    (d.close x).unplaced = ⟨default, before, after, ns.map Node.unplaced⟩ := by
  have hpost' : post.reverse.map Node.unplaced = edge after := by
    rw [List.map_reverse, hpost, edge]
    split <;> rfl
  have hfirst' : ∀ n ∈ (ns ++ post).head?, n.isFiller = false := by
    obtain ⟨m, ms, rfl⟩ := List.exists_cons_of_ne_nil hne
    exact hfirst
  obtain ⟨hrest, htext, -⟩ := trim_edge Edge.joinAfter hpre hfirst'
  have hlast' : ∀ n ∈ ns.reverse.head?, n.isFiller = false := by simpa using hlast
  obtain ⟨hrest', -, htext'⟩ := trim_edge Edge.joinBefore hpost' hlast'
  rw [Selector.unplaced_eq, Draft.close, Selector.trim, hnodes, hbefore, hrest, htext,
    List.reverse_append, hrest', htext']
  simp

/-! ### Chains -/

theorem Canonical.Head.isFiller {n : Node} (h : Head n) : n.isFiller = false := by
  cases h
  rfl

theorem Canonical.Member.isFiller {n : Node} (h : Member nested n) : n.isFiller = false := by
  cases h
  rfl

theorem Canonical.Compound.isFiller {head : Option Node} {members : List Node}
    (h : Compound nested head members) :
    ∀ n ∈ head.toList ++ members, n.isFiller = false := by
  intro n hn
  rcases h.mem n hn with hn | hn
  · exact hn.isFiller
  · exact hn.isFiller

/-- A chain starts and ends with simple selectors. -/
theorem Canonical.Chain.edges {ns : List Node} (h : Chain nested ns) :
    ns ≠ [] ∧ (∀ n ∈ ns.head?, n.isFiller = false) ∧ ∀ n ∈ ns.getLast?, n.isFiller = false := by
  induction h with
  | single hc =>
    exact ⟨hc.nonempty, fun n hn => hc.isFiller n (List.mem_of_mem_head? hn),
      fun n hn => hc.isFiller n (List.mem_of_mem_getLast? hn)⟩
  | @cons head members ns c hc _ _ ih =>
    obtain ⟨hne, -, hlast⟩ := ih
    obtain ⟨m, ms, hm⟩ := List.exists_cons_of_ne_nil hc.nonempty
    refine ⟨by simp, fun n hn => hc.isFiller n (List.mem_of_mem_head? ?_), fun n hn => hlast n ?_⟩
    · rw [hm] at hn ⊢
      exact hn
    · rwa [List.getLast?_append_of_ne_nil _ (List.cons_ne_nil _ _),
        List.getLast?_cons_of_ne_nil hne] at hn

/-! ### Selectors -/

/-- No selector was read yet since the list started or the last comma was read. -/
def Builder.Fresh (b : Builder) : Prop :=
  ∀ t, (b.current t).before = "" ∧ (b.current t).nodes = []

/-- A selector starts with any token that does not end the list. -/
theorem Leads.start {b : Builder} {t : Token} {ts : List Token} (ht : t.kind ≠ .closeParen) :
    Leads stop depth b (t :: ts) (b.set (b.current t)) (t :: ts) := by
  intro r hr
  refine ⟨[], ?_⟩
  generalize hb : b.set (b.current t) = b' at hr
  have hcurrent : b'.current t = b.current t := by
    rw [← hb]
    rfl
  have hset : ∀ d, b'.set d = b.set d := by
    rw [← hb]
    exact fun d => rfl
  have hcomma : b'.comma t = b.comma t := by
    rw [Builder.comma, hcurrent, ← hb]
    rfl
  cases hr with
  -- the rules look at the builder through its draft, which is the same before and after
  | close hk => exact absurd hk ht
  | comma hk hr => exact .comma hk (hcomma ▸ hr)
  | parens hk hd ho hi hc hr => 
    rw [hcurrent] at ho hc
    exact .parens hk hd ho hi hc (hset _ ▸ hr)
  | node hclose hcomma' hparen hs hr =>
    rw [hcurrent] at hs
    exact .node hclose hcomma' hparen hs (hset _ ▸ hr)

/-- The first token of a text that no closing parenthesis starts. -/
theorem cut_eq_cons {cs : List Char} (p : Nat) (hne : cs ≠ []) (h : cs.head? ≠ some ')') :
    ∃ t ts, cut p cs = t :: ts ∧ t.kind ≠ .closeParen := by
  obtain ⟨c, cs, rfl⟩ := List.exists_cons_of_ne_nil hne
  have hlexemes : lexemes (c :: cs) = _ := lexemes_of_scan rfl
  obtain ⟨t, q, hcut, hk, -⟩ := cut_cons p hlexemes
  refine ⟨t, _, hcut, fun hclose => h ?_⟩
  have htaken : (scan c cs).taken = [')'] := by
    apply scan_taken_of_delimiter
    have hscan : (scan c cs).kind = .closeParen := hk.symm.trans hclose
    rw [hscan]
    rfl
  have happ := scan_append c cs
  rw [htaken] at happ
  exact congrArg some (List.cons.inj happ).1.symm

/-- No selector starts with a closing parenthesis. -/
theorem Canonical.Entry.cut_eq_cons {s : Selector} (hs : Entry nested s) (p : Nat)
    (rest : List Char) :
    ∃ t ts, cut p (s.print.toList ++ rest) = t :: ts ∧ t.kind ≠ .closeParen := by
  have hstart := hs.nodes.startsSimple
  rw [Selector.print_eq, String.toList_append, String.toList_append]
  cases hb : s.before.toList with
  | nil =>
    have happ : StartsSimple ((Node.printAll s.nodes).toList ++ s.after.toList ++ rest) :=
      hstart.append.append
    refine Selectors.cut_eq_cons p ?_ happ.head?_ne
    obtain ⟨c, ds, hcons, -⟩ := happ
    rw [List.nil_append, hcons]
    exact List.cons_ne_nil _ _
  | cons c cs =>
    have hblank := hs.before c (by rw [hb]; exact List.mem_cons_self ..)
    refine Selectors.cut_eq_cons p (List.cons_ne_nil _ _) fun hc => ?_
    obtain rfl := Option.some.inj hc
    cases hblank

/-- The nodes of a selector and the blanks at its edges are read back from its text. -/
theorem readsNodes_entry {s : Selector} (hs : Entry nested s)
    (hnested : ∀ list, nested list → depth < maxDepth ∧ ReadsBack stop (depth + 1) list)
    (hbreaks : Breaks rest) (hgap : EndsGap rest) :
    ReadsNodes stop depth (edge s.before ++ (s.nodes ++ edge s.after)) rest := by
  have hafter : ReadsNodes stop depth (edge s.after) rest := readsNodes_edge hs.after hgap
  have hnodes : ReadsNodes stop depth s.nodes ((Node.printAll (edge s.after)).toList ++ rest) := by
    rw [printAll_edge]
    exact readsNodes_chain hnested hs.nodes (hs.after.breaks hbreaks)
  refine .append (readsNodes_edge hs.before ?_) (.append hnodes hafter)
  rw [Node.printAll_append, String.toList_append, List.append_assoc]
  exact hs.nodes.startsSimple.append.endsGap

/-- What was read for a selector closes to it: the blanks go to its edges. -/
theorem Canonical.Entry.unplaced_close {s : Selector} {d : Draft} (hs : Entry nested s) (x : Nat)
    (hbefore : d.before = "")
    (hnodes : d.nodes.reverse.map Node.unplaced =
      (edge s.before ++ (s.nodes ++ edge s.after)).map Node.unplaced) :
    (d.close x).unplaced = s.unplaced := by
  obtain ⟨hne, hfirst, hlast⟩ := hs.nodes.edges
  rw [List.map_append, List.map_append, unplaced_edge, unplaced_edge] at hnodes
  -- what was read falls into the blanks at the edges and the nodes between them
  obtain ⟨pre, ns, hread, hpre, hns⟩ := List.map_eq_append_iff.1 hnodes
  obtain ⟨ns, post, rfl, hns, hpost⟩ := List.map_eq_append_iff.1 hns
  have hhead : ns.head?.map Node.unplaced = s.nodes.head?.map Node.unplaced := by
    rw [← List.head?_map, hns, List.head?_map]
  have hlast' : ns.getLast?.map Node.unplaced = s.nodes.getLast?.map Node.unplaced := by
    rw [← List.getLast?_map, hns, List.getLast?_map]
  have hne' : ns ≠ [] := by
    rintro rfl
    exact hne (List.map_eq_nil_iff.1 hns.symm)
  rw [Selector.unplaced_eq s, ← hns]
  exact Selectors.unplaced_close x hbefore hread hpre hpost (isFiller_of_unplaced hhead hfirst)
    (isFiller_of_unplaced hlast' hlast) hne'

/-- **A selector is read back**, whatever ends it. -/
theorem leads_selector {s : Selector} (p : Nat) (b : Builder) (hb : b.Fresh)
    (hs : Entry nested s)
    (hnested : ∀ list, nested list → depth < maxDepth ∧ ReadsBack stop (depth + 1) list)
    (hbreaks : Breaks rest) (hgap : EndsGap rest) :
    ∃ d q, Leads stop depth b (cut p (s.print.toList ++ rest)) (b.set d) (cut q rest) ∧
      ∀ x, (d.close x).unplaced = s.unplaced := by
  obtain ⟨t, ts, ht, hk⟩ := hs.cut_eq_cons p rest
  obtain ⟨hbefore, hempty⟩ := hb t
  obtain ⟨ns, q, hlead, hns⟩ := readsNodes_entry hs hnested hbreaks hgap p b (b.current t)
  have htext : Node.printAll (edge s.before ++ (s.nodes ++ edge s.after)) = s.print := by
    simp only [Node.printAll_append, printAll_edge, Selector.print_eq, String.append_assoc]
  have hread : ((b.current t).add ns).nodes.reverse = ns := by simp [Draft.add, hempty]
  rw [htext, ht] at hlead
  rw [ht]
  exact ⟨(b.current t).add ns, q, (Leads.start hk).trans hlead,
    fun x => hs.unplaced_close x hbefore (by rw [hread, hns])⟩

/-! ### Lists -/

/-- A builder that has read nothing. -/
theorem Builder.fresh_empty : Builder.Fresh {} := fun _ => ⟨rfl, rfl⟩

theorem Builder.fresh_comma (b : Builder) (t : Token) : (b.comma t).Fresh :=
  fun _ => ⟨rfl, rfl⟩

/-- **The selectors of a list are read back**, after those that the builder has. -/
theorem leads_list {ss : List Selector}
    (hnested : ∀ list, nested list → depth < maxDepth ∧ ReadsBack stop (depth + 1) list)
    (hbreaks : Breaks rest) (hgap : EndsGap rest) (hss : ∀ s ∈ ss, Entry nested s)
    (hne : ss ≠ []) (p : Nat) (b : Builder) (hb : b.Fresh) :
    ∃ b' q, Leads stop depth b (cut p ((Selector.printList ss).toList ++ rest)) b' (cut q rest) ∧
      ∀ x, (b'.finish x).map Selector.unplaced =
        b.closed.reverse.map Selector.unplaced ++ ss.map Selector.unplaced := by
  induction ss generalizing p b with
  | nil => exact absurd rfl hne
  | cons s ss ih =>
    have hs := hss s (List.mem_cons_self ..)
    cases ss with
    | nil =>
      obtain ⟨d, q, hlead, hclose⟩ := leads_selector p b hb hs hnested hbreaks hgap
      refine ⟨b.set d, q, ?_, fun x => ?_⟩
      · simpa [Selector.printList, Selector.printTail] using hlead
      · simp [Builder.set, Builder.finish, hclose]
    | cons u ss =>
      have hbreaks' : Breaks (',' :: ((Selector.printList (u :: ss)).toList ++ rest)) :=
        breaks_cons rfl
      obtain ⟨d, q, hlead, hclose⟩ :=
        leads_selector p b hb hs hnested hbreaks' (endsGap_cons (by decide))
      obtain ⟨t, q', hcut, hk, -⟩ := cut_delimiter q
        ((Selector.printList (u :: ss)).toList ++ rest)
        (rfl : TokenKind.ofDelimiter? ',' = some .comma)
      obtain ⟨b', q'', hlead', hlist⟩ := ih (fun v hv => hss v (List.mem_cons_of_mem s hv))
        (List.cons_ne_nil u ss) q' ((b.set d).comma t) (Builder.fresh_comma _ t)
      have hsplit : (Selector.printList (s :: u :: ss)).toList ++ rest =
          s.print.toList ++ ',' :: ((Selector.printList (u :: ss)).toList ++ rest) := by
        simp [Selector.printList_cons_cons]
      rw [hcut] at hlead
      rw [hsplit]
      refine ⟨b', q'', hlead.trans ((Leads.comma hk).trans hlead'), fun x => ?_⟩
      rw [hlist]
      simp [Builder.comma, Builder.set, Builder.current, hclose]

/-- **A canonical list is read back** where there is enough depth left, whatever ends it. -/
theorem Canonical.leads {n : Nat} {list : List Selector} (h : Canonical n list)
    (hdepth : n + depth = maxDepth) (hbreaks : Breaks rest) (hgap : EndsGap rest) (p : Nat) :
    ∃ b q, Leads stop depth {} (cut p ((Selector.printList list).toList ++ rest)) b (cut q rest) ∧
      ∀ x, (b.finish x).map Selector.unplaced = list.map Selector.unplaced := by
  induction n using Nat.strongRecOn generalizing depth list rest p with
  | ind n ih =>
    obtain ⟨nested, hne, hentries, hinner⟩ := h.entries
    refine leads_list (fun list hl => ?_) hbreaks hgap hentries hne p {} Builder.fresh_empty
    -- a list inside has one level less to go and is one level deeper
    obtain ⟨m, rfl, rfl | hl⟩ := hinner list hl
    · exact ⟨by omega, readsBack_nil⟩
    · exact ⟨by omega, fun p rest => ih m (Nat.lt_succ_self m) hl (by omega)
        (breaks_cons rfl) (endsGap_cons (by decide)) p⟩

end Selectors
