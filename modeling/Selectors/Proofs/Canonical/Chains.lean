import Selectors.Proofs.Canonical.Gaps

/-!
# Reading printed compounds

The members of a compound are read one after the other, each with the list that it owns, and the
compounds and combinators of a chain in turn (`readsNodes_chain`).  That the lists inside are read
back is assumed here, so that it can be shown by induction on the nesting.
-/

namespace Selectors

open Lexer Canonical

variable {stop depth p : Nat} {rest : List Char} {nested : List Selector → Prop}

/-! ### First characters -/

/-- The characters start with a simple selector: with a mark, a star, or a name. -/
def StartsSimple (cs : List Char) : Prop :=
  ∃ c ds, cs = c :: ds ∧
    (c ∈ ['.', '#', '[', ':', '&', '*'] ∨ breaksText c = false ∧ c ≠ '/')

namespace StartsSimple

variable {cs : List Char}

theorem append (h : StartsSimple cs) : StartsSimple (cs ++ rest) := by
  obtain ⟨c, ds, rfl, hc⟩ := h
  exact ⟨c, ds ++ rest, rfl, hc⟩

/-- A simple selector ends the gap before it. -/
theorem endsGap (h : StartsSimple cs) : EndsGap cs := by
  obtain ⟨c, ds, rfl, hc⟩ := h
  refine endsGap_cons ?_
  rcases hc with hc | ⟨hb, hslash⟩
  · simp only [List.mem_cons, List.not_mem_nil, or_false] at hc
    rcases hc with rfl | rfl | rfl | rfl | rfl | rfl <;> simp [isBlank]
  · have hne : ∀ e : Char, breaksText e → c ≠ e := by
      rintro e he rfl
      rw [hb] at he
      cases he
    refine ⟨?_, hne '+' rfl, hne '>' rfl, hne '~' rfl, hslash⟩
    simp only [breaksText, Bool.or_eq_false_iff] at hb
    exact hb.1.1

theorem head?_ne (h : StartsSimple cs) : cs.head? ≠ some ')' := by
  obtain ⟨c, ds, rfl, hc⟩ := h
  intro hd
  obtain rfl := Option.some.inj hd
  rcases hc with hc | ⟨hb, -⟩
  · simp at hc
  · cases hb

end StartsSimple

theorem IsName.startsSimple {s : String} (h : IsName s) : StartsSimple s.toList := by
  obtain ⟨hne, hcs⟩ := h
  obtain ⟨c, cs, hc⟩ := List.exists_cons_of_ne_nil (l := s.toList) (by simpa using hne)
  obtain ⟨hb, -, hslash⟩ := hcs c (by rw [hc]; exact List.mem_cons_self ..)
  exact ⟨c, cs, hc, .inr ⟨hb, hslash⟩⟩

theorem ElementKind.Fits.startsSimple {kind : ElementKind} {name : String} (h : kind.Fits name) :
    StartsSimple name.toList := by
  cases kind with
  | type => exact IsName.startsSimple h
  | universal =>
    obtain rfl : name = "*" := h
    exact ⟨'*', [], rfl, by simp⟩

theorem Canonical.Head.startsSimple {n : Node} (h : Head n) : StartsSimple n.print.toList := by
  cases h with
  | @element span kind name ns hname hns =>
    cases ns with
    | none => exact hname.startsSimple
    | some ns =>
      obtain ⟨hvalue, -⟩ := hns ns rfl
      have hstart : StartsSimple ns.value.toList := by
        rcases hvalue with hvalue | hvalue
        · exact hvalue.startsSimple
        · exact (show ElementKind.universal.Fits ns.value from hvalue).startsSimple
      rw [Node.print, Namespace.print]
      simp only [String.toList_append, List.append_assoc]
      exact hstart.append

/-- A member starts with its mark. -/
theorem Canonical.Member.print_eq_cons {n : Node} (h : Member nested n) :
    ∃ c cs, n.print.toList = c :: cs ∧ c ∈ ['.', '#', '[', ':', '&'] := by
  cases h with
  | @functional span sigil name args hname =>
    cases sigil with
    | ampersand =>
      obtain rfl : name = "&" := hname
      exact ⟨'&', (Selector.printArguments args).toList,
        by simp [Node.print, Sigil.opening, Sigil.closing], by simp⟩
    | dot cs => exact ⟨'.', _, by simp [Node.print, Sigil.opening]; rfl, by simp⟩
    | hash => exact ⟨'#', _, by simp [Node.print, Sigil.opening]; rfl, by simp⟩
    | brackets => exact ⟨'[', _, by simp [Node.print, Sigil.opening]; rfl, by simp⟩
    | colon cs => exact ⟨':', _, by simp [Node.print, Sigil.opening]; rfl, by simp⟩
    | colons first second => exact ⟨':', _, by simp [Node.print, Sigil.opening]; rfl, by simp⟩

theorem Canonical.Member.startsSimple {n : Node} (h : Member nested n) :
    StartsSimple n.print.toList := by
  obtain ⟨c, cs, hcs, hc⟩ := h.print_eq_cons
  refine ⟨c, cs, hcs, .inl ?_⟩
  simp only [List.mem_cons, List.not_mem_nil, or_false] at hc ⊢
  tauto

/-- The mark of a member ends the name before it. -/
theorem Canonical.Member.breaks {n : Node} (h : Member nested n) :
    Breaks (n.print.toList ++ rest) := by
  obtain ⟨c, cs, hcs, hc⟩ := h.print_eq_cons
  rw [hcs]
  refine breaks_cons ?_
  simp only [List.mem_cons, List.not_mem_nil, or_false] at hc
  rcases hc with rfl | rfl | rfl | rfl | rfl <;> rfl

/-- A compound starts with its first simple selector. -/
theorem Canonical.Compound.startsSimple {head : Option Node} {members : List Node}
    (hc : Compound nested head members) :
    StartsSimple (Node.printAll (head.toList ++ members)).toList := by
  cases head with
  | some n =>
    rw [Option.toList_some, List.singleton_append, Node.printAll, String.toList_append]
    exact (hc.head n rfl).startsSimple.append
  | none =>
    cases members with
    | nil => exact absurd rfl hc.nonempty
    | cons m ms =>
      rw [Option.toList_none, List.nil_append, Node.printAll, String.toList_append]
      exact (hc.members m (List.mem_cons_self ..)).startsSimple.append

theorem Canonical.Chain.startsSimple {ns : List Node} (h : Chain nested ns) :
    StartsSimple (Node.printAll ns).toList := by
  cases h with
  | single hc => exact hc.startsSimple
  | cons hc =>
    rw [Node.printAll_append, String.toList_append]
    exact hc.startsSimple.append

/-! ### Lists in parentheses -/

/-- The list is read back from its text before a closing parenthesis. -/
def ReadsBack (stop depth : Nat) (list : List Selector) : Prop :=
  ∀ (p : Nat) (rest : List Char), ∃ b q,
    Leads stop depth {} (cut p ((Selector.printList list).toList ++ ')' :: rest)) b
        (cut q (')' :: rest)) ∧
      ∀ x, (b.finish x).map Selector.unplaced = list.map Selector.unplaced

theorem readsBack_nil : ReadsBack stop depth [] := fun p _ => ⟨{}, p, .refl _ _, fun _ => rfl⟩

/-- Parentheses after a functional selector are read as its list. -/
theorem Leads.parens {b : Builder} {d : Draft} {t c : Token} {ts : List Token} {span : Span}
    {sigil : Sigil} {name : String} {inner : Reading} (hk : t.kind = .openParen)
    (hdepth : depth < maxDepth)
    (hnth : (d.push (.functional span sigil name none)).takesNth ts = false)
    (hi : Reads stop (depth + 1) {} ts inner) (hc : inner.closer = some c) :
    Leads stop depth (b.set (d.push (.functional span sigil name none))) (t :: ts)
      (b.set (d.push (.functional ⟨span.start, c.span.stop⟩ sigil name
        (some (inner.builder.finish c.span.start))))) inner.rest := by
  intro r hr
  have hi' : Reads stop (depth + 1)
      (((b.set (d.push (.functional span sigil name none))).current t).openParens t ts).builder
      (((b.set (d.push (.functional span sigil name none))).current t).openParens t ts).rest
      inner := by
    simpa [Builder.set, Builder.current, Draft.openParens, hnth] using hi
  refine ⟨_, .parens hk hdepth rfl hi' rfl ?_⟩
  simpa [Builder.set, Builder.current, Draft.closeParens, hc, Draft.push] using hr

/-- **A functional selector is read**, with the list that it owns. -/
theorem leads_member {n : Node} (p : Nat) (b : Builder) (d : Draft) (hn : Member nested n)
    (hnested : ∀ list, nested list → depth < maxDepth ∧ ReadsBack stop (depth + 1) list)
    (h : Breaks rest) :
    ∃ n' q, Leads stop depth (b.set d) (cut p (n.print.toList ++ rest)) (b.set (d.push n'))
        (cut q rest) ∧ n'.unplaced = n.unplaced := by
  cases hn with
  | @functional span sigil name args hname hargs hnth =>
    cases args with
    | none =>
      obtain ⟨span', q, hlead⟩ := leads_mark stop depth p b d hname h
      refine ⟨.functional span' sigil name none, q, ?_, rfl⟩
      simpa [Node.print, Selector.printArguments] using hlead
    | some list =>
      obtain ⟨hdepth, hback⟩ := hnested list (hargs list rfl)
      have hopen : Breaks ('(' :: ((Selector.printList list).toList ++ ')' :: rest)) :=
        breaks_cons rfl
      obtain ⟨span', q, hlead⟩ := leads_mark stop depth p b d hname hopen
      obtain ⟨t, q', hcut, hk, -⟩ := cut_delimiter q
        ((Selector.printList list).toList ++ ')' :: rest)
        (rfl : TokenKind.ofDelimiter? '(' = some .openParen)
      obtain ⟨b', q'', hinner, hlist⟩ := hback q' rest
      obtain ⟨c, q₃, hcut', hck, -⟩ :=
        cut_delimiter q'' rest (rfl : TokenKind.ofDelimiter? ')' = some .closeParen)
      rw [hcut'] at hinner
      obtain ⟨es, hes⟩ := hinner _ (.close hck (Nat.succ_pos depth))
      have hsplit : (Node.functional span sigil name (some list)).print.toList ++ rest =
          (sigil.opening ++ name ++ sigil.closing).toList ++
            '(' :: ((Selector.printList list).toList ++ ')' :: rest) := by
        simp [Node.print, Selector.printArguments]
      -- no expression is read: the list is empty, or the name is not one that takes an expression
      have hplain : (d.push (.functional span' sigil name none)).takesNth
          (cut q' ((Selector.printList list).toList ++ ')' :: rest)) = false := by
        by_cases hl : list = []
        · subst hl
          obtain ⟨u, _, hu, huk, -⟩ :=
            cut_delimiter q' rest (rfl : TokenKind.ofDelimiter? ')' = some .closeParen)
          have hu : cut q' ((Selector.printList []).toList ++ ')' :: rest) = u :: _ := hu
          cases sigil <;> simp [Draft.takesNth, Draft.push, hu, huk]
        · have hnot := hnth list rfl hl
          cases sigil <;> simp_all [Draft.takesNth, Draft.push, Sigil.IsNth]
      rw [hcut] at hlead
      rw [hsplit]
      refine ⟨_, q₃, hlead.trans (.parens hk hdepth hplain hes rfl), ?_⟩
      simp only [Node.unplaced, Selector.unplacedArguments, Selector.unplacedAll_eq]
      exact congrArg _ (congrArg _ (hlist _))

/-! ### Nodes in a row -/

/-- The draft with nodes added. -/
def Draft.add (d : Draft) (ns : List Node) : Draft := { d with nodes := ns.reverse ++ d.nodes }

theorem Draft.add_add (d : Draft) (ns ms : List Node) : (d.add ns).add ms = d.add (ns ++ ms) := by
  simp [Draft.add]

/-- The nodes are read back from their text before `rest`. -/
def ReadsNodes (stop depth : Nat) (ns : List Node) (rest : List Char) : Prop :=
  ∀ (p : Nat) (b : Builder) (d : Draft), ∃ ns' q,
    Leads stop depth (b.set d) (cut p ((Node.printAll ns).toList ++ rest)) (b.set (d.add ns'))
        (cut q rest) ∧ ns'.map Node.unplaced = ns.map Node.unplaced

theorem readsNodes_nil : ReadsNodes stop depth [] rest := fun p _ _ => ⟨[], p, .refl _ _, rfl⟩

theorem readsNodes_singleton {n : Node}
    (h : ∀ (p : Nat) (b : Builder) (d : Draft), ∃ n' q,
      Leads stop depth (b.set d) (cut p (n.print.toList ++ rest)) (b.set (d.push n'))
        (cut q rest) ∧ n'.unplaced = n.unplaced) : ReadsNodes stop depth [n] rest := by
  intro p b d
  obtain ⟨n', q, hlead, hn⟩ := h p b d
  have hadd : d.add [n'] = d.push n' := rfl
  exact ⟨[n'], q, by simpa [Node.printAll, hadd] using hlead, by simpa using hn⟩

theorem ReadsNodes.append {ns ms : List Node}
    (hn : ReadsNodes stop depth ns ((Node.printAll ms).toList ++ rest))
    (hm : ReadsNodes stop depth ms rest) : ReadsNodes stop depth (ns ++ ms) rest := by
  intro p b d
  obtain ⟨ns', q, hlead, hns⟩ := hn p b d
  obtain ⟨ms', q', hlead', hms⟩ := hm q b (d.add ns')
  refine ⟨ns' ++ ms', q', ?_, by rw [List.map_append, List.map_append, hns, hms]⟩
  rw [Node.printAll_append, String.toList_append, List.append_assoc, ← Draft.add_add]
  exact hlead.trans hlead'

section

variable (hnested : ∀ list, nested list → depth < maxDepth ∧ ReadsBack stop (depth + 1) list)
include hnested

theorem readsNodes_members {ns : List Node} (hns : ∀ n ∈ ns, Member nested n) (h : Breaks rest) :
    ReadsNodes stop depth ns rest := by
  induction ns with
  | nil => exact readsNodes_nil
  | cons n ns ih =>
    have ih := ih fun m hm => hns m (List.mem_cons_of_mem n hm)
    have hbreaks : Breaks ((Node.printAll ns).toList ++ rest) := by
      cases ns with
      | nil => exact h
      | cons m ms =>
        have hm := hns m (List.mem_cons_of_mem n (List.mem_cons_self ..))
        rw [Node.printAll, String.toList_append, List.append_assoc]
        exact hm.breaks
    rw [← List.singleton_append]
    refine ReadsNodes.append (readsNodes_singleton fun p b d => ?_) ih
    exact leads_member p b d (hns n (List.mem_cons_self ..)) hnested hbreaks

theorem readsNodes_compound {head : Option Node} {members : List Node}
    (hc : Compound nested head members) (h : Breaks rest) :
    ReadsNodes stop depth (head.toList ++ members) rest := by
  have hmembers := readsNodes_members hnested hc.members h
  cases head with
  | none => exact hmembers
  | some n =>
    have hbreaks : Breaks ((Node.printAll members).toList ++ rest) := by
      cases members with
      | nil => exact h
      | cons m ms =>
        rw [Node.printAll, String.toList_append, List.append_assoc]
        exact (hc.members m (List.mem_cons_self ..)).breaks
    refine ReadsNodes.append (readsNodes_singleton fun p b d => ?_) hmembers
    exact leads_head p b d (hc.head n rfl) hbreaks

end

/-- A name ends before blanks, and before nothing if it ends before what follows that. -/
theorem IsBlanks.breaks {s : String} (hs : IsBlanks s) (h : Breaks rest) :
    Breaks (s.toList ++ rest) := by
  unfold IsBlanks at hs
  cases hl : s.toList with
  | nil => exact h
  | cons d ds =>
    have hblank := hs d (by rw [hl]; exact List.mem_cons_self ..)
    exact breaks_cons (by simp [breaksText, hblank])

/-- A combinator ends the name before it. -/
theorem Combinator.Fits.breaks {c : Combinator} (h : c.Fits) : Breaks (c.print.toList ++ rest) := by
  obtain ⟨-, ⟨-, hne, hs, hbefore, -⟩ | ⟨hkind, htext, hs, -⟩⟩ := h
  · obtain ⟨d, ds, hd⟩ := List.exists_cons_of_ne_nil (l := c.text.toList) (by simpa using hne)
    have hblank := hs d (by rw [hd]; exact List.mem_cons_self ..)
    rw [Combinator.print, hbefore, String.empty_append, String.toList_append, hd]
    exact breaks_cons (by simp [breaksText, hblank])
  · rw [Combinator.print, htext, String.toList_append, String.toList_append, List.append_assoc,
      List.append_assoc]
    refine hs.breaks fun e he => ?_
    cases hc : c.kind <;> rw [hc] at he hkind <;>
      first | exact absurd rfl hkind | (cases he; rfl)

/-- **A chain is read back.** -/
theorem readsNodes_chain
    (hnested : ∀ list, nested list → depth < maxDepth ∧ ReadsBack stop (depth + 1) list)
    {ns : List Node} (hns : Chain nested ns) (h : Breaks rest) : ReadsNodes stop depth ns rest := by
  induction hns with
  | single hc => exact readsNodes_compound hnested hc h
  | @cons head members ns c hc hfits hns ih =>
    rw [← List.singleton_append, ← List.append_assoc]
    refine ReadsNodes.append (ReadsNodes.append ?_ (readsNodes_singleton fun p b d => ?_)) ih
    · refine readsNodes_compound hnested hc ?_
      simpa [Node.printAll, Node.print] using hfits.breaks
    · obtain ⟨c', q, hlead, hc'⟩ :=
        leads_combinator stop depth p b d hfits hns.startsSimple.append.endsGap
      exact ⟨.combinator c', q, hlead, congrArg Node.combinator hc'⟩

end Selectors
