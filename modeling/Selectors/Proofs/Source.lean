import Selectors.Proofs.Coverage.List

/-!
# Trees and the text they were read from

A tree that was read from a text prints to that text (`print_parse`), and every item in it stands
where its span says (`parse_shows_source`): the text between the two ends of the span is the text
of the item, and items side by side leave out nothing but the commas between selectors.
-/

namespace Selectors

/-- The items that an item holds lie side by side and fill it up, apart from its own blanks, marks
and names, and from the commas between selectors. -/
def NodeRef.Tiled : NodeRef → Prop
  | selector s =>
    Tiles 0 (s.span.start + s.before.utf8ByteSize) (s.span.stop - s.after.utf8ByteSize)
      (s.nodes.map Node.span)
  | node (.functional span sigil name (some list)) =>
    Tiles 1 (sigil.argumentsStart span.start name) (span.stop - 1) (list.map Selector.span)
  | node (.nth n) =>
    Tiles 0 (n.span.start + n.before.utf8ByteSize) n.span.stop (n.nodes.map NthNode.span)
  | node (.compound span nodes _) => Tiles 0 span.start span.stop (nodes.map Node.span)
  | _ => True

/-! ### From an item to the items in it -/

section

variable {source u v w : String} {offset p : Nat} {s : Span}

theorem Span.Cuts.stop_eq (h : s.Cuts source offset w) : s.stop = s.start + w.utf8ByteSize := by
  obtain ⟨a, b, -, rfl⟩ := h
  rfl

/-- An item of a list that is laid out in a part of the source. -/
theorem Laid.cuts {α : Type} {gap : Nat} {span : α → Span} {print : α → String} {as bs : List α}
    {a : α} {x y : String} (h : Laid gap span print p (as ++ a :: bs))
    (hs : s.Cuts source offset (u ++ (x ++ print a ++ y) ++ v))
    (hp : p = s.start + u.utf8ByteSize) (hx : extent gap print as = x.utf8ByteSize) :
    (span a).Cuts source offset (print a) := by
  rw [(laid_append.1 h).2.1, hp, hx]
  refine Span.Cuts.part (u := u ++ x) (w := y ++ v) (s := s) ?_ ?_
  · simpa only [String.append_assoc] using hs
  · rw [String.utf8ByteSize_append, Nat.add_assoc]

theorem Comment.cuts {cs : List Comment} (h : Laid 0 Comment.span Comment.print p cs)
    (hs : s.Cuts source offset (u ++ Comment.printAll cs ++ v))
    (hp : p = s.start + u.utf8ByteSize) :
    ∀ c ∈ cs, c.span.Cuts source offset c.print := by
  intro c hc
  obtain ⟨as, bs, rfl⟩ := List.append_of_mem hc
  refine h.cuts (u := u) (v := v) (x := printAll as) (y := printAll bs) ?_ hp (extent_eq as)
  simpa [Comment.printAll, String.append_assoc] using hs

theorem NthNode.cuts {ns : List NthNode} (h : Laid 0 NthNode.span NthNode.print p ns)
    (hs : s.Cuts source offset (u ++ NthNode.printAll ns ++ v))
    (hp : p = s.start + u.utf8ByteSize) :
    ∀ n ∈ ns, n.span.Cuts source offset n.print := by
  intro n hn
  obtain ⟨as, bs, rfl⟩ := List.append_of_mem hn
  refine h.cuts (u := u) (v := v) (x := printAll as) (y := printAll bs) ?_ hp (extent_eq as)
  simpa [NthNode.printAll, String.append_assoc] using hs

theorem Node.cuts {ns : List Node} (h : Laid 0 Node.span Node.print p ns)
    (hs : s.Cuts source offset (u ++ Node.printAll ns ++ v))
    (hp : p = s.start + u.utf8ByteSize) :
    ∀ n ∈ ns, n.span.Cuts source offset n.print := by
  intro n hn
  obtain ⟨as, bs, rfl⟩ := List.append_of_mem hn
  refine h.cuts (u := u) (v := v) (x := printAll as) (y := printAll bs) ?_ hp (extent_eq as)
  simpa [Node.printAll, String.append_assoc] using hs

theorem Selector.printList_append_cons (as bs : List Selector) (a : Selector) :
    printList (as ++ a :: bs) = printEach as ++ a.print ++ printTail bs := by
  induction as with
  | nil => simp [printList, printEach]
  | cons b as ih =>
    obtain ⟨c, cs, hc⟩ : ∃ c cs, as ++ a :: bs = c :: cs := by cases as <;> simp
    rw [List.cons_append, hc, printList_cons_cons, ← hc, ih, printEach]
    simp only [String.append_assoc]

theorem Selector.cuts {ss : List Selector} (h : Laid 1 Selector.span Selector.print p ss)
    (hs : s.Cuts source offset (u ++ Selector.printList ss ++ v))
    (hp : p = s.start + u.utf8ByteSize) :
    ∀ t ∈ ss, t.span.Cuts source offset t.print := by
  intro t ht
  obtain ⟨as, bs, rfl⟩ := List.append_of_mem ht
  refine h.cuts (u := u) (v := v) (x := printEach as) (y := printTail bs) ?_ hp (extent_eq as)
  rwa [← printList_append_cons]

/-- Selectors that are laid out tile the text of the list. -/
theorem Selector.tiles {q : Nat} {ss : List Selector}
    (h : Laid 1 Selector.span Selector.print p ss)
    (hq : q = p + (Selector.printList ss).utf8ByteSize) : Tiles 1 p q (ss.map Selector.span) := by
  cases hn : ss using List.reverseRecOn with
  | nil => exact ⟨.nil, by simp, by simp⟩
  | append_singleton as a _ =>
    subst hn
    refine h.tiles ?_
    rw [hq, printList_concat, extent_append, extent_eq, String.utf8ByteSize_append]
    simp only [extent]
    omega

/-- The comments in a mark stand in the source when the mark does. -/
theorem Sigil.Arranged.cuts {sigil : Sigil} (h : sigil.Arranged p)
    (hs : s.Cuts source offset (sigil.opening ++ v)) (hp : p = s.start) :
    ∀ c ∈ sigil.comments, c.span.Cuts source offset c.print := by
  cases sigil with
  | hash | brackets | ampersand => simp [Sigil.comments]
  | dot cs => exact Comment.cuts h (u := ".") hs (by rw [hp]; rfl)
  | colon cs => exact Comment.cuts h (u := ":") hs (by rw [hp]; rfl)
  | colons first second =>
    obtain ⟨hfirst, hsecond⟩ := h
    intro c hc
    obtain hc | hc := List.mem_append.1 hc
    · refine Comment.cuts hfirst (u := ":") (v := ":" ++ Comment.printAll second ++ v) ?_
        (by rw [hp]; rfl) c hc
      simpa only [Sigil.opening, String.append_assoc] using hs
    · exact Comment.cuts hsecond hs (by rw [hp]) c hc

/-- The comments around a bar stand in the source when the namespace does. -/
theorem Namespace.cuts {ns : Namespace} (h : ns.Arranged p)
    (hs : s.Cuts source offset (ns.print ++ v)) (hp : p = s.start) :
    ∀ c ∈ ns.beforeComments ++ ns.afterComments, c.span.Cuts source offset c.print := by
  obtain ⟨hbefore, hafter⟩ := h
  intro c hc
  obtain hc | hc := List.mem_append.1 hc
  · refine Comment.cuts hbefore (u := ns.value)
      (v := "|" ++ Comment.printAll ns.afterComments ++ v) ?_ (by rw [hp]) c hc
    simpa only [Namespace.print, String.append_assoc] using hs
  · exact Comment.cuts hafter hs (by rw [hp]) c hc

end

namespace NodeRef

variable {source : String} {offset : Nat} {r x : NodeRef}

/-- The items directly under an item stand in the source when the item does. -/
theorem Arranged.children (h : r.Arranged) (hs : r.span.Cuts source offset r.print) :
    ∀ c ∈ r.children.toList, c.span.Cuts source offset c.print := by
  cases r with
  | selector s =>
    have := Node.cuts (u := s.before) (v := s.after) h (by rwa [← Selector.print_eq]) rfl
    exact List.forall_mem_map.2 this
  | part n => simp [NodeRef.children, Siblings.toList]
  | node n =>
    cases n with
    | element | combinator | comment | invalid => simp [NodeRef.children, Siblings.toList]
    | functional span sigil name args =>
      cases args with
      | none => simp [NodeRef.children, Siblings.toList]
      | some list =>
        have hone : "(".utf8ByteSize = 1 := rfl
        have := Selector.cuts (u := sigil.opening ++ name ++ sigil.closing ++ "(") (v := ")")
          (s := span) h.2 (by simpa [NodeRef.span, NodeRef.print, Node.span, Node.print,
            Selector.printArguments, String.append_assoc] using hs)
          (by simp only [Sigil.argumentsStart, String.utf8ByteSize_append, hone]; omega)
        exact List.forall_mem_map.2 this
    | nth n =>
      have := NthNode.cuts (u := n.before) (v := n.after) h.1 hs rfl
      exact List.forall_mem_map.2 this
    | compound span ns invalid =>
      have := Node.cuts (u := "") (v := "") (s := span) h
        (by simpa [NodeRef.span, NodeRef.print, Node.span, Node.print] using hs) rfl
      exact List.forall_mem_map.2 this

/-- The comments in a name stand in the source when the item does. -/
theorem Arranged.comments (h : r.Arranged) (hs : r.span.Cuts source offset r.print) :
    ∀ c ∈ r.comments, c.span.Cuts source offset c.print := by
  cases r with
  | selector s => simp [NodeRef.comments]
  | part n => simp [NodeRef.comments]
  | node n =>
    cases n with
    | combinator | comment | invalid | nth | compound => simp [NodeRef.comments, Node.comments]
    | element span kind name ns =>
      cases ns with
      | none => simp [NodeRef.comments, Node.comments]
      | some ns => exact Namespace.cuts h (s := span) (v := name) hs rfl
    | functional span sigil name args =>
      have harr : sigil.Arranged span.start := by
        cases args with
        | none => exact h
        | some list => exact h.1
      refine harr.cuts (s := span) (v := name ++ sigil.closing ++ Selector.printArguments args)
        ?_ rfl
      simpa only [NodeRef.span, NodeRef.print, Node.span, Node.print, String.append_assoc] using hs

theorem Arranged.tiled (h : r.Arranged) (hs : r.span.Cuts source offset r.print) : r.Tiled := by
  have hstop := hs.stop_eq
  cases r with
  | selector s =>
    refine h.tiles ?_
    have hstop : s.span.stop = s.span.start + s.print.utf8ByteSize := hstop
    rw [Selector.print_eq, String.utf8ByteSize_append, String.utf8ByteSize_append] at hstop
    rw [Node.extent_eq]
    omega
  | part n => trivial
  | node n =>
    cases n with
    | element | combinator | comment | invalid => trivial
    | functional span sigil name args =>
      cases args with
      | none => trivial
      | some list =>
        have hone : "(".utf8ByteSize = 1 := rfl
        have hone' : ")".utf8ByteSize = 1 := rfl
        refine Selector.tiles h.2 ?_
        simp only [NodeRef.span, Node.span, NodeRef.print, Node.print, Selector.printArguments,
          String.utf8ByteSize_append, hone, hone'] at hstop
        simp only [Sigil.argumentsStart, String.utf8ByteSize_append]
        omega
    | nth n =>
      obtain ⟨hl, hafter⟩ := h
      refine hl.tiles ?_
      simp only [NodeRef.span, Node.span, NodeRef.print, Node.print, Nth.print, hafter,
        String.append_empty, String.utf8ByteSize_append] at hstop
      rw [NthNode.extent_eq]
      omega
    | compound span ns invalid =>
      refine Laid.tiles h ?_
      simp only [NodeRef.span, Node.span, NodeRef.print, Node.print] at hstop
      rw [Node.extent_eq]
      omega

/-- Every item under an item that stands in the source stands there too. -/
theorem Within.cuts (hx : Within x r) (h : r.Every Arranged)
    (hs : r.span.Cuts source offset r.print) : x.span.Cuts source offset x.print := by
  induction hx with
  | self => exact hs
  | child hc _ ih => exact ih ((every_iff.1 h).2 _ hc) (h.self.children hs _ hc)

end NodeRef

/-! ### Parsed trees -/

/-- **A parsed tree covers its text.** -/
theorem parse_covers (source : String) (offset : Nat) :
    Selector.printList (parse source offset) = source ∧
      Laid 1 Selector.span Selector.print offset (parse source offset) ∧
      ∀ s ∈ parse source offset, (NodeRef.selector s).Every NodeRef.Arranged := by
  have hjoin := join_tokenize source offset
  have hr := reads_readList (offset + source.utf8ByteSize) 0 {} (tokenize source offset)
  obtain ⟨us, happ, hcov⟩ := hr.covers (.empty (p := offset))
    (by simpa using Token.covering_tokenize source offset) (by simp [hjoin])
  have hclosed := hr.closer_eq_none rfl
  rw [hclosed, hr.rest_eq_nil hclosed, Option.toList_none, List.append_nil,
    List.append_nil] at happ
  rw [happ, hjoin, String.empty_append] at hcov
  exact hcov.finish _ rfl

/-- Every selector of a text stands in it. -/
theorem parse_cuts {source : String} {offset : Nat} :
    ∀ s ∈ parse source offset, s.span.Cuts source offset s.print := by
  obtain ⟨hprint, hlaid, -⟩ := parse_covers source offset
  have hself : (Span.ofText offset source).Cuts source offset source :=
    ⟨"", "", by simp, by simp⟩
  exact Selector.cuts (u := "") (v := "") hlaid (by rw [hprint]; simpa using hself) rfl

theorem parse?_of_fits {source : String} {offset : Nat}
    (h : offset + source.utf8ByteSize < UInt64.size) :
    parse? source offset = .ok (parse source offset) := by
  have hfits : offsetFits source offset = true := by simp [offsetFits, h]
  rw [parse?, parseLogged?, if_pos hfits]
  rfl

/-- **Printing the tree of a text gives the text back**, whatever the text is. -/
theorem print_parse (source : String) (offset : Nat)
    (h : offset + source.utf8ByteSize < UInt64.size) :
    (parse? source offset).map Selector.printList = .ok source := by
  rw [parse?_of_fits h]
  exact congrArg Except.ok (parse_covers source offset).1

theorem print_parse_unclosed :
    3 + "a  :is( b,(c".utf8ByteSize < UInt64.size ∧
      (parse? "a  :is( b,(c" 3).map Selector.printList = .ok "a  :is( b,(c" :=
  ⟨by decide, print_parse "a  :is( b,(c" 3 (by decide)⟩

/-- **Every item of a parsed tree stands where its span says.**  The selectors of a text cover it
up to the commas between them; each item at any depth, and each comment stored in a name, has a
span on character boundaries between which the text reads what the item prints; and items side by
side leave no gap. -/
theorem parse_shows_source (source : String) (offset : Nat)
    (h : offset + source.utf8ByteSize < UInt64.size) :
    ∃ list, parse? source offset = .ok list ∧
      Tiles 1 offset (offset + source.utf8ByteSize) (list.map Selector.span) ∧
      ∀ s ∈ list, (NodeRef.selector s).Every fun r =>
        r.span.Shows source offset r.print ∧
          (∀ c ∈ r.comments, c.span.Shows source offset c.print) ∧ r.Tiled := by
  obtain ⟨hprint, hlaid, hall⟩ := parse_covers source offset
  refine ⟨parse source offset, parse?_of_fits h, Selector.tiles hlaid (by rw [hprint]), ?_⟩
  -- the text stands in itself, and so do the selectors that its list prints to
  have hself : (Span.ofText offset source).Cuts source offset source :=
    ⟨"", "", by simp, by simp⟩
  intro s hs r hr
  have hcuts := Selector.cuts (u := "") (v := "") hlaid (by rw [hprint]; simpa using hself) rfl s hs
  have hin := hr.cuts (hall s hs) hcuts
  have harr := hall s hs r hr
  exact ⟨hin.shows, fun c hc => (harr.comments hin c hc).shows, harr.tiled hin⟩

theorem parse_shows_source_unclosed :
    7 + "a/**/|b ,:nth-child(2n+1 of".utf8ByteSize < UInt64.size ∧
      ∃ list, parse? "a/**/|b ,:nth-child(2n+1 of" 7 = .ok list ∧
        Tiles 1 7 (7 + "a/**/|b ,:nth-child(2n+1 of".utf8ByteSize) (list.map Selector.span) ∧
        ∀ s ∈ list, (NodeRef.selector s).Every fun r =>
          r.span.Shows "a/**/|b ,:nth-child(2n+1 of" 7 r.print ∧
            (∀ c ∈ r.comments, c.span.Shows "a/**/|b ,:nth-child(2n+1 of" 7 c.print) ∧ r.Tiled :=
  ⟨by decide, parse_shows_source _ 7 (by decide)⟩

end Selectors
