import Selectors.Tree.Equality
import Selectors.Proofs.Canonical.Tree
import Selectors.Proofs.Slices.Passes

/-!
# Arguments read on their own

The list in the parentheses of a functional node does not depend on where it stands: the text
between the parentheses, read on its own at its place, gives that list (`arguments_parse`).  Only
the `An+B` pseudo-classes are different, since the reader of an argument can not know that it
starts with an expression, and so are texts with blocks that are too deep to be read.

The list is a passage that its closing parenthesis ends, and a passage does not depend on what is
behind it (`Reads.arguments`).
-/

namespace Selectors

/-- The list that a node owns is that of some text on its own, `An+B` pseudo-classes apart. -/
def NodeRef.OwnsParsed : NodeRef → Prop
  | node (.functional _ sigil name (some list)) => sigil.IsNth name ∨ Parsed list
  | _ => True

/-- Nodes that a step makes: they own no items. -/
def Node.IsBare : Node → Prop
  | functional _ _ _ (some _) | nth _ | compound _ _ _ => False
  | _ => True

theorem Node.IsBare.every {n : Node} (h : n.IsBare) :
    (NodeRef.node n).Every NodeRef.OwnsParsed := by
  cases n with
  | functional span sigil name list =>
    cases list with
    | none => exact Draft.every_functional_none.2 trivial
    | some list => exact h.elim
  | nth n => exact h.elim
  | compound span nodes invalid => exact h.elim
  | element | combinator | comment | invalid => exact (NodeRef.every_of_childless rfl).2 trivial

namespace Draft

variable {d : Draft} {t : Token} {ts : List Token} {n : Node}

/-- The nodes of the draft, and others that own no items. -/
def Extends (d : Draft) (s : Step) : Prop := ∀ n ∈ s.draft.nodes, n ∈ d.nodes ∨ n.IsBare

theorem extends_push {es : List Event} (hn : n.IsBare) : d.Extends ⟨d.push n, ts, es⟩ := by
  simp only [Extends, push, List.mem_cons]
  rintro m (rfl | hm)
  · exact .inr hn
  · exact .inl hm

theorem extends_stepBar : d.Extends (d.stepBar t ts) := by
  simp only [Extends, stepBar, List.mem_cons]
  rintro m (rfl | hm)
  · exact .inr trivial
  · left
    cases hq : qualifier? d.nodes with
    | none => simpa [hq] using hm
    | some q =>
      obtain ⟨span, kind, -, hnodes⟩ := nodes_of_qualifier? hq
      rw [hnodes]
      exact List.mem_append_right _ (by simpa [hq] using hm)

theorem extends_stepGap : d.Extends (d.stepGap t ts) := by
  simp only [Extends, stepGap, List.mem_append]
  rintro m (hm | hm)
  · have hf := Gap.isFiller_of_mem_read hm
    right
    cases m <;> trivial
  · exact .inl hm

/-- A step adds no node that owns items. -/
theorem extends_step (depth : Nat) : d.Extends (d.step depth t ts) := by
  unfold step
  cases t.kind with
  | dot | hash | openParen | text | star | ampersand | comment => exact extends_push (by trivial)
  | pipe => exact extends_stepBar
  | space | plus | greaterThan | tilde => exact extends_stepGap
  | colon =>
    simp only [stepPseudo]
    split <;> exact extends_push (by trivial)
  | openBracket =>
    simp only [stepAttribute]
    split <;> exact extends_push (by trivial)
  | _ => exact extends_push (by trivial)

end Draft

/-! ### Lists being read -/

/-- All items read so far own lists that are parsed from their text. -/
structure Builder.OwnsParsed (b : Builder) : Prop where
  closed : ∀ s ∈ b.closed, (NodeRef.selector s).Every NodeRef.OwnsParsed
  draft : ∀ d ∈ b.draft, ∀ n ∈ d.nodes, (NodeRef.node n).Every NodeRef.OwnsParsed

theorem Draft.ownsParsed_close {d : Draft} (stop : Nat)
    (h : ∀ n ∈ d.nodes, (NodeRef.node n).Every NodeRef.OwnsParsed) :
    (NodeRef.selector (d.close stop)).Every NodeRef.OwnsParsed := by
  refine NodeRef.every_selector.2 ⟨trivial, (Selector.every_trim (fun n hn => ?_) _).2 ?_⟩
  · cases n <;> trivial
  · exact fun n hn => h n (List.mem_reverse.1 hn)

namespace Builder

variable {b : Builder} {d : Draft} {t : Token} {ts : List Token}

theorem ownsParsed_empty : OwnsParsed {} := ⟨by simp, by simp⟩

theorem OwnsParsed.current (h : b.OwnsParsed) (t : Token) :
    ∀ n ∈ (b.current t).nodes, (NodeRef.node n).Every NodeRef.OwnsParsed := by
  cases hd : b.draft with
  | none => simp [Builder.current, hd]
  | some d => simpa [Builder.current, hd] using h.draft d hd

theorem OwnsParsed.set (h : b.OwnsParsed)
    (hd : ∀ n ∈ d.nodes, (NodeRef.node n).Every NodeRef.OwnsParsed) : (b.set d).OwnsParsed :=
  ⟨h.closed, by simpa [Builder.set] using hd⟩

theorem OwnsParsed.comma (h : b.OwnsParsed) (t : Token) : (b.comma t).OwnsParsed := by
  refine ⟨?_, by simp [Builder.comma]⟩
  simp only [Builder.comma, List.mem_cons]
  rintro s (rfl | hs)
  · exact Draft.ownsParsed_close _ (h.current t)
  · exact h.closed s hs

theorem OwnsParsed.finish (h : b.OwnsParsed) (stop : Nat) :
    ∀ s ∈ b.finish stop, (NodeRef.selector s).Every NodeRef.OwnsParsed := by
  simp only [Builder.finish, List.mem_reverse, List.mem_append, Option.mem_toList,
    Option.map_eq_some_iff]
  rintro s (⟨d, hd, rfl⟩ | hs)
  · exact Draft.ownsParsed_close stop (h.draft d hd)
  · exact h.closed s hs

end Builder

namespace Draft

variable {d : Draft} {t : Token} {ts : List Token}

/-- A nested list starts with no more than an expression. -/
theorem ownsParsed_openParens : (d.openParens t ts).builder.OwnsParsed := by
  unfold openParens
  split
  · dsimp only
    split
    · exact Builder.ownsParsed_empty
    · refine ⟨by simp, ?_⟩
      simp only [Option.mem_def, Option.some.injEq, forall_eq', List.mem_singleton, forall_eq]
      exact NodeRef.every_nth.2 ⟨trivial, fun _ _ => trivial⟩
  · exact Builder.ownsParsed_empty

/-- A nested list keeps what holds, if its selectors are parsed from their text. -/
theorem ownsParsed_closeParens {stop : Nat} {text : String} {inner : Reading}
    (hd : ∀ n ∈ d.nodes, (NodeRef.node n).Every NodeRef.OwnsParsed)
    (hi : inner.builder.OwnsParsed)
    (hp : ∀ c span sigil name nodes, inner.closer = some c →
      d.nodes = .functional span sigil name none :: nodes → ¬sigil.IsNth name →
      Parsed (inner.builder.finish c.span.start)) :
    ∀ n ∈ (d.closeParens stop t text inner).1.nodes,
      (NodeRef.node n).Every NodeRef.OwnsParsed := by
  unfold closeParens
  split
  · rename_i c span sigil name nodes hc hnodes
    rw [hnodes] at hd
    simp only [List.mem_cons]
    rintro n (rfl | hn)
    · refine NodeRef.every_functional.2 ⟨?_, hi.finish _⟩
      exact or_iff_not_imp_left.2 (hp c span sigil name nodes hc hnodes)
    · exact hd n (List.mem_cons_of_mem _ hn)
  · simp only [push, List.mem_cons]
    rintro n (rfl | hn)
    · exact every_invalid.2 trivial
    · exact hd n hn

/-- Only the parentheses of an `An+B` pseudo-class start with an expression. -/
theorem openParens_of_not_isNth {span : Span} {sigil : Sigil} {name : String} {nodes : List Node}
    (hd : d.nodes = .functional span sigil name none :: nodes) (hn : ¬sigil.IsNth name) :
    d.openParens t ts = { builder := {}, rest := ts } := by
  have htakes : d.takesNth ts = false := by
    unfold takesNth
    rw [hd]
    cases sigil <;> simp_all [Sigil.IsNth]
  simp [openParens, htakes]

end Draft

/-- **A list that a parenthesis closes is that of the text before the parenthesis.** -/
theorem Reads.parsed_closed {stop depth p : Nat} {ts : List Token} {r : Reading} {c : Token}
    (h : Reads stop depth {} ts r) (hc : r.closer = some c) (hts : Token.Lexed p ts)
    (hs : Shallow r.events) : Parsed (r.builder.finish c.span.start) := by
  have hpass := h.passes hc
  obtain ⟨us, rfl⟩ := hpass.suffix
  obtain ⟨hus, hrest⟩ := Token.lexed_append hts
  have hreads : Reads c.span.start 0 {} us _ := hpass.reads_alone (.inr hs)
  exact hreads.parsed hus (by rw [hrest.covering.head_span, Span.start_ofText])

/-- **Reading keeps what nodes own parsed from its text.** -/
theorem Reads.ownsParsed {stop depth : Nat} {b : Builder} {ts : List Token} {r : Reading}
    (h : Reads stop depth b ts r) (hb : b.OwnsParsed) (hts : ∃ p, Token.Lexed p ts)
    (hs : Shallow r.events) : r.builder.OwnsParsed := by
  induction h with
  | done => exact hb
  | close ht hd => exact hb
  | @comma depth b t ts r ht hr ih =>
    obtain ⟨p, hts⟩ := hts
    exact ih (hb.comma t) (hts.suffix (List.suffix_cons t ts)) hs
  | @parens depth b t ts o inner r n ht hd ho hi hn hr ihi ihr =>
    obtain ⟨p, hts⟩ := hts
    obtain ⟨q, hts'⟩ := hts.suffix (List.suffix_cons t ts)
    have hrest : o.rest <:+ ts := ho ▸ (b.current t).openParens_suffix t ts
    simp only [Reading.after, shallow_append] at hs
    obtain ⟨⟨⟨-, hsi⟩, -⟩, hsr⟩ := hs
    have hinner := ihi (ho ▸ Draft.ownsParsed_openParens) (hts'.suffix hrest) hsi
    refine ihr (hb.set ?_) (hts'.suffix (hi.suffix.trans hrest)) hsr
    rw [hn]
    -- without an expression in front the nested list was read like a text of its own
    refine Draft.ownsParsed_closeParens (hb.current t) hinner ?_
    intro c span sigil name nodes hc hnodes hnth
    rw [Draft.openParens_of_not_isNth hnodes hnth] at ho
    subst ho
    exact hi.parsed_closed hc hts' hsi
  | @node depth b t ts s r hclose hcomma hparen hstep hr ih =>
    obtain ⟨p, hts⟩ := hts
    have hrest : s.rest <:+ ts := hstep ▸ Draft.step_suffix depth (b.current t) t ts
    refine ih (hb.set ?_) (hts.suffix (hrest.trans (List.suffix_cons t ts)))
      (shallow_append.1 hs).2
    intro n hn
    have hextends : (b.current t).Extends s := hstep ▸ Draft.extends_step depth
    exact (hextends n hn).elim (hb.current t n) Node.IsBare.every

/-! ### Parsed trees -/

/-- Where a text that ends with parentheses stands, so do the parentheses and what is in them. -/
theorem Span.Cuts.parens {source u w : String} {offset p q : Nat} {s : Span}
    (h : s.Cuts source offset (u ++ ("(" ++ w ++ ")"))) (hp : p = s.start + u.utf8ByteSize + 1)
    (hq : q = p + w.utf8ByteSize) :
    (⟨p - 1, p⟩ : Span).Cuts source offset "(" ∧ (⟨p, q⟩ : Span).Cuts source offset w ∧
      (⟨q, q + 1⟩ : Span).Cuts source offset ")" ∧ q + 1 = s.stop := by
  have hone : "(".utf8ByteSize = 1 := rfl
  have hone' : ")".utf8ByteSize = 1 := rfl
  have hstop := h.stop_eq
  have hopen := Span.Cuts.part (p := p - 1) (u := u) (v := "(") (w := w ++ ")")
    (by simpa only [String.append_assoc] using h) (by omega)
  have htext := Span.Cuts.part (p := p) (u := u ++ "(") (v := w) (w := ")")
    (by simpa only [String.append_assoc] using h)
    (by rw [hp, String.utf8ByteSize_append, hone, Nat.add_assoc])
  have hclose := Span.Cuts.part (p := q) (u := u ++ "(" ++ w) (v := ")") (w := "")
    (by simpa only [String.append_assoc, String.append_empty] using h)
    (by simp only [hq, hp, String.utf8ByteSize_append, hone, Nat.add_assoc])
  simp only [String.utf8ByteSize_append, hone, hone'] at hstop
  rw [Span.ofText, hone, show p - 1 + 1 = p by omega] at hopen
  rw [Span.ofText, ← hq] at htext
  exact ⟨hopen, htext, hclose, by omega⟩

theorem parse_ownsParsed {source : String} {offset : Nat}
    (h : Shallow (parseLogged source offset).2) :
    ∀ s ∈ parse source offset, (NodeRef.selector s).Every NodeRef.OwnsParsed := by
  have hr := reads_readList (offset + source.utf8ByteSize) 0 {} (tokenize source offset)
  have hshallow : Shallow (readList (offset + source.utf8ByteSize) 0 {}
      (tokenize source offset)).val.events := fun e he =>
    h e (List.mem_cons_of_mem _ (List.mem_append_left _ he))
  exact (hr.ownsParsed Builder.ownsParsed_empty ⟨offset, Token.lexed_tokenize source offset⟩
    hshallow).finish _

/-- **A nested list reads the same on its own.**  Let `p` be the position after the opening
parenthesis of a node at any depth and `q` that of its closing parenthesis.  Unless the node is an
`An+B` pseudo-class, the text between them, read at `p`, gives the list that the node owns. -/
theorem arguments_parse (source : String) (offset : Nat)
    (h : offset + source.utf8ByteSize < UInt64.size) (hs : Shallow (parseLogged source offset).2) :
    ∃ list, parse? source offset = .ok list ∧
      ∀ s ∈ list, ∀ span sigil name args,
        NodeRef.Within (.node (.functional span sigil name (some args))) (.selector s) →
        ¬sigil.IsNth name →
        ∃ p q w, p = sigil.argumentsStart span.start name ∧ q + 1 = span.stop ∧
          (⟨p - 1, p⟩ : Span).Shows source offset "(" ∧
          (⟨p, q⟩ : Span).Shows source offset w ∧
          (⟨q, q + 1⟩ : Span).Shows source offset ")" ∧
          parse? w p = .ok args := by
  refine ⟨parse source offset, parse?_of_fits h, ?_⟩
  intro s hmem span sigil name args hin hnth
  have hall := (parse_covers source offset).2.2 s hmem
  have hnode := hin.cuts hall (parse_cuts s hmem)
  have hargs : Laid 1 Selector.span Selector.print (sigil.argumentsStart span.start name) args :=
    (hall _ hin).2
  have hparsed : Parsed args := (parse_ownsParsed hs s hmem _ hin).resolve_left hnth
  simp only [NodeRef.print, NodeRef.span, Node.span, Node.print, Selector.printArguments] at hnode
  obtain ⟨hopen, htext, hclose, hstop⟩ := hnode.parens (p := sigil.argumentsStart span.start name)
    rfl rfl
  have hfits : sigil.argumentsStart span.start name + (Selector.printList args).utf8ByteSize <
      UInt64.size := Nat.lt_of_le_of_lt htext.shows.stop_le h
  refine ⟨_, _, _, rfl, hstop, hopen.shows, htext.shows, hclose.shows, ?_⟩
  rw [parse?_of_fits hfits, hparsed.parse_eq hargs]

/-- The bracket that stays open ends before the parenthesis, in the list as in its text alone. -/
theorem arguments_parse_unclosed :
    3 + ":is(a,[b) c".utf8ByteSize < UInt64.size ∧ Shallow (parseLogged ":is(a,[b) c" 3).2 ∧
      ∃ list, parse? ":is(a,[b) c" 3 = .ok list ∧ ∃ s ∈ list, ∃ span args,
        NodeRef.Within (.node (.functional span (.colon []) "is" (some args))) (.selector s) ∧
        ¬(Sigil.colon []).IsNth "is" ∧
        ∃ p q w, p = (Sigil.colon []).argumentsStart span.start "is" ∧ q + 1 = span.stop ∧
          (⟨p - 1, p⟩ : Span).Shows ":is(a,[b) c" 3 "(" ∧
          (⟨p, q⟩ : Span).Shows ":is(a,[b) c" 3 w ∧
          (⟨q, q + 1⟩ : Span).Shows ":is(a,[b) c" 3 ")" ∧
          parse? w p = .ok args := by
  obtain ⟨list, hlist, hall⟩ := arguments_parse ":is(a,[b) c" 3 (by decide) (by decide +kernel)
  let args : List Selector :=
    [⟨⟨7, 8⟩, "", "", [.element ⟨7, 8⟩ .type "a" none]⟩,
      ⟨⟨9, 11⟩, "", "", [.invalid ⟨9, 11⟩ "[b"]⟩]
  let s : Selector :=
    ⟨⟨3, 14⟩, "", "",
      [.functional ⟨3, 12⟩ (.colon []) "is" (some args),
        .combinator ⟨⟨12, 13⟩, .descendant, " ", "", "", false⟩,
        .element ⟨13, 14⟩ .type "c" none]⟩
  have hparse : parse ":is(a,[b) c" 3 = [s] := by decide +kernel
  obtain rfl : [s] = list := by
    rw [parse?_of_fits (by decide), hparse] at hlist
    exact Except.ok.inj hlist
  have hin : NodeRef.Within (.node (.functional ⟨3, 12⟩ (.colon []) "is" (some args)))
      (.selector s) := .child (List.mem_cons_self ..) .self
  have hnth : ¬(Sigil.colon []).IsNth "is" := by
    unfold Sigil.IsNth
    decide +kernel
  exact ⟨by decide, by decide +kernel, [s], hlist, s, List.mem_singleton_self s, _, args, hin, hnth,
    hall s (List.mem_singleton_self s) _ _ _ _ hin hnth⟩

end Selectors