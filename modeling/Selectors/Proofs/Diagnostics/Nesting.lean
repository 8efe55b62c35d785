import Selectors.Proofs.Grouping
import Selectors.Proofs.Preorder
import Selectors.Proofs.Source

/-!
# Spans nested in one another

In a tree that was read from a text, the items under an item stand one after the other inside its
span (`NodeRef.Nested`).  Nothing else is needed for pre-order to be the order of positions
(`NodeRef.preorder_ordered`), and grouping keeps it: a compound spans its members, from the first
to the last.

* `parse_nested`: parsed trees are nested, and lie in their text.
* `groupAll_nested`: so do their groupings.
-/

namespace Selectors

/-! ### Spans in a row -/

/-- The spans stand one after the other between two positions. -/
def Span.Ordered : Nat → List Span → Nat → Prop
  | p, [], q => p ≤ q
  | p, s :: ss, q => p ≤ s.start ∧ s.start ≤ s.stop ∧ Ordered s.stop ss q

namespace Span

variable {p p' q q' : Nat} {s : Span} {ss ts : List Span}

theorem Ordered.le (h : Ordered p ss q) : p ≤ q := by
  induction ss generalizing p with
  | nil => exact h
  | cons s ss ih => exact (h.1.trans h.2.1).trans (ih h.2.2)

theorem Ordered.mono (h : Ordered p ss q) (hp : p' ≤ p) (hq : q ≤ q') : Ordered p' ss q' := by
  induction ss generalizing p p' with
  | nil => exact (hp.trans h).trans hq
  | cons s ss ih => exact ⟨hp.trans h.1, h.2.1, ih h.2.2 (Nat.le_refl _)⟩

theorem ordered_append :
    Ordered p (ss ++ ts) q ↔ ∃ m, Ordered p ss m ∧ Ordered m ts q := by
  induction ss generalizing p with
  | nil => exact ⟨fun h => ⟨p, Nat.le_refl p, h⟩, fun ⟨_, hm, h⟩ => h.mono hm (Nat.le_refl q)⟩
  | cons s ss ih => simp only [List.cons_append, Ordered, ih, and_assoc, exists_and_left]

theorem Ordered.sublist (h : Ordered p ts q) (hs : ss.Sublist ts) : Ordered p ss q := by
  induction hs generalizing p with
  | slnil => exact h
  | cons s hs ih => exact ih (h.2.2.mono (h.1.trans h.2.1) (Nat.le_refl q))
  | cons_cons s hs ih => exact ⟨h.1, h.2.1, ih h.2.2⟩

/-- Spans in a row are just as well in a row between the start of the first and the end of the
last. -/
theorem Ordered.tighten (h : Ordered p (s :: ss) q) :
    p ≤ s.start ∧ Ordered s.start (s :: ss) (ss.getLast?.getD s).stop ∧
      (ss.getLast?.getD s).stop ≤ q := by
  induction ss generalizing p s with
  | nil => exact ⟨h.1, ⟨Nat.le_refl _, h.2.1, Nat.le_refl _⟩, h.2.2⟩
  | cons t ss ih =>
    obtain ⟨hstart, hinner, hstop⟩ := ih h.2.2
    rw [List.getLast?_cons, Option.getD_some]
    exact ⟨h.1, ⟨Nat.le_refl _, h.2.1, hinner.mono hstart (Nat.le_refl _)⟩, hstop⟩

end Span

/-- Spans that tile a place are in a row there. -/
theorem Tiles.ordered {gap p p' q q' : Nat} {ss : List Span} (h : Tiles gap p q ss)
    (hle : ∀ s ∈ ss, s.start ≤ s.stop) (hp : p' ≤ p) (hq : q ≤ q') (hnil : ss = [] → p' ≤ q') :
    Span.Ordered p' ss q' := by
  induction ss generalizing p p' with
  | nil => exact hnil rfl
  | cons s ss ih =>
    obtain ⟨hnext, hchain⟩ := List.isChain_cons.1 h.consecutive
    obtain ⟨hs, hss⟩ := List.forall_mem_cons.1 hle
    have hlast := h.last
    refine ⟨?_, hs, ih ⟨hchain, hnext, fun t ht => hlast t ?_⟩ hss (Nat.le_add_right _ _) ?_⟩
    · rw [h.first s rfl]
      exact hp
    · rw [List.getLast?_cons, Option.mem_def.1 ht]
      rfl
    · rintro rfl
      rw [hlast s rfl]
      exact hq

/-! ### Trees -/

namespace NodeRef

/-- The items under an item stand one after the other inside its span. -/
def Nested (r : NodeRef) : Prop :=
  Span.Ordered r.span.start (r.children.toList.map span) r.span.stop

theorem nested_selector {s : Selector} :
    (selector s).Nested ↔ Span.Ordered s.span.start (s.nodes.map Node.span) s.span.stop := by
  rw [Nested, children, Siblings.toList, List.map_map]
  rfl

theorem nested_functional {span : Span} {sigil : Sigil} {name : String} {list : List Selector} :
    (node (.functional span sigil name (some list))).Nested ↔
      Span.Ordered span.start (list.map Selector.span) span.stop := by
  rw [Nested, children, Siblings.toList, List.map_map]
  rfl

theorem nested_compound {span : Span} {ns : List Node} {invalid : Bool} :
    (node (.compound span ns invalid)).Nested ↔
      Span.Ordered span.start (ns.map Node.span) span.stop := by
  rw [Nested, children, Siblings.toList, List.map_map]
  rfl

theorem Tiled.nested {r : NodeRef} (h : r.Tiled) (hr : r.span.start ≤ r.span.stop)
    (hcs : ∀ c ∈ r.children.toList, c.span.start ≤ c.span.stop) : r.Nested := by
  have hle : ∀ s ∈ r.children.toList.map span, s.start ≤ s.stop := List.forall_mem_map.2 hcs
  unfold Nested
  cases r with
  | part n => exact hr
  | selector s =>
    simp only [children, Siblings.toList, List.map_map] at hle ⊢
    exact h.ordered hle (Nat.le_add_right _ _) (Nat.sub_le _ _) fun _ => hr
  | node n =>
    cases n with
    | element | combinator | comment | invalid => exact hr
    | functional s sigil name args =>
      cases args with
      | none => exact hr
      | some list =>
        simp only [children, Siblings.toList, List.map_map] at hle ⊢
        refine h.ordered hle ?_ (Nat.sub_le _ _) fun _ => hr
        rw [Sigil.argumentsStart, Nat.add_assoc]
        exact Nat.le_add_right _ _
    | nth n =>
      simp only [children, Siblings.toList, List.map_map] at hle ⊢
      exact h.ordered hle (Nat.le_add_right _ _) (Nat.le_refl _) fun _ => hr
    | compound s ns invalid =>
      simp only [children, Siblings.toList, List.map_map] at hle ⊢
      exact h.ordered hle (Nat.le_refl _) (Nat.le_refl _) fun _ => hr

/-- **In nested trees, pre-order is the order of positions**, and no item leaves the place of the
tree. -/
theorem preorder_ordered {p q : Nat} {rs : List NodeRef} (h : Span.Ordered p (rs.map span) q)
    (hrs : ∀ r ∈ rs, r.Every Nested) :
    (preorder rs).Pairwise (fun a b => a.span.start ≤ b.span.start) ∧
      ∀ x ∈ preorder rs, p ≤ x.span.start ∧ x.span.start ≤ x.span.stop ∧ x.span.stop ≤ q := by
  fun_induction preorder rs generalizing p q with
  | case1 => simp
  | case2 r rs ihc ihr =>
    obtain ⟨hstart, hspan, hlater⟩ := h
    obtain ⟨hr, hrs⟩ := List.forall_mem_cons.1 hrs
    obtain ⟨hnested, hcs⟩ := every_iff.1 hr
    obtain ⟨hcsorted, hcin⟩ := ihc hnested hcs
    obtain ⟨hrsorted, hrin⟩ := ihr hlater hrs
    constructor
    · refine List.pairwise_cons.2 ⟨fun b hb => ?_, List.pairwise_append.2
        ⟨hcsorted, hrsorted, fun a ha b hb => ?_⟩⟩
      · rcases List.mem_append.1 hb with hb | hb
        · exact (hcin b hb).1
        · exact hspan.trans (hrin b hb).1
      · -- what is below an item ends before its later siblings start
        obtain ⟨-, hale, hastop⟩ := hcin a ha
        exact (hale.trans hastop).trans (hrin b hb).1
    · have hstop := hlater.le
      simp only [List.forall_mem_cons, List.forall_mem_append]
      refine ⟨⟨hstart, hspan, hstop⟩, fun x hx => ?_, fun x hx => ?_⟩
      · obtain ⟨hx₁, hx₂, hx₃⟩ := hcin x hx
        exact ⟨hstart.trans hx₁, hx₂, hx₃.trans hstop⟩
      · obtain ⟨hx₁, hx₂, hx₃⟩ := hrin x hx
        exact ⟨(hstart.trans hspan).trans hx₁, hx₂, hx₃⟩

/-- Items side by side in a tree: some of those at its top, or of those directly under one item. -/
def SideBySide (tree root : List NodeRef) : Prop :=
  root.Sublist tree ∨ ∃ x ∈ preorder tree, root.Sublist x.children.toList

/-- Items side by side in a nested tree stand in a row inside the place of the tree. -/
theorem SideBySide.ordered {p q : Nat} {tree root : List NodeRef} (h : SideBySide tree root)
    (htree : Span.Ordered p (tree.map span) q) (hnested : ∀ r ∈ tree, r.Every Nested) :
    Span.Ordered p (root.map span) q ∧ ∀ r ∈ root, r.Every Nested := by
  rcases h with hsub | ⟨x, hx, hsub⟩
  · exact ⟨htree.sublist (hsub.map span), fun r hr => hnested r (hsub.subset hr)⟩
  · obtain ⟨hstart, -, hstop⟩ := (preorder_ordered htree hnested).2 x hx
    obtain ⟨r, hr, hwithin⟩ := mem_preorder.1 hx
    have hevery : x.Every Nested := fun y hy => hnested r hr y (hy.trans hwithin)
    obtain ⟨hself, hcs⟩ := every_iff.1 hevery
    exact ⟨(Span.Ordered.sublist hself (hsub.map span)).mono hstart hstop,
      fun c hc => hcs c (hsub.subset hc)⟩

end NodeRef

open NodeRef

/-! ### Parsed trees -/

/-- **Parsed trees are nested** and lie in their text. -/
theorem parse_nested (source : String) (offset : Nat) :
    Span.Ordered offset ((parse source offset).map Selector.span)
        (offset + source.utf8ByteSize) ∧
      ∀ s ∈ parse source offset, (NodeRef.selector s).Every Nested := by
  obtain ⟨hprint, hlaid, hall⟩ := parse_covers source offset
  have hcuts : ∀ s ∈ parse source offset, s.span.Cuts source offset s.print := parse_cuts
  constructor
  · have htiles := Selector.tiles hlaid (q := offset + source.utf8ByteSize) (by rw [hprint])
    refine htiles.ordered ?_ (Nat.le_refl _) (Nat.le_refl _) fun _ => Nat.le_add_right _ _
    exact List.forall_mem_map.2 fun s hs => (hcuts s hs).shows.start_le
  · intro s hs r hr
    have hin := hr.cuts (hall s hs) (hcuts s hs)
    have harranged := hall s hs r hr
    exact (harranged.tiled hin).nested hin.shows.start_le
      fun c hc => (harranged.children hin c hc).shows.start_le

/-! ### Grouping -/

namespace Grouping

variable {o : CompoundOptions} {g : Grouping} {n : Node} {ns : List Node} {p q q' : Nat}

/-- The nodes taken so far are nested and stand in a row, first the settled ones. -/
structure Nested (p q : Nat) (g : Grouping) : Prop where
  ordered : ∃ m, Span.Ordered p (g.settled.reverse.map Node.span) m ∧
    Span.Ordered m (g.run.reverse.map Node.span) q
  settled : ∀ n ∈ g.settled, (NodeRef.node n).Every NodeRef.Nested
  run : ∀ n ∈ g.run, (NodeRef.node n).Every NodeRef.Nested

/-- A compound spans its members. -/
theorem Nested.close (h : g.Nested p q) :
    Span.Ordered p (g.close.settled.reverse.map Node.span) q ∧
      ∀ n ∈ g.close.settled, (NodeRef.node n).Every NodeRef.Nested := by
  obtain ⟨⟨m, hsettled, hrun⟩, hevery, hmembers⟩ := h
  unfold Grouping.close
  split
  · rename_i hnil
    rw [hnil] at hrun
    exact ⟨hsettled.mono (Nat.le_refl p) hrun, hevery⟩
  · rename_i first rest hcons
    rw [hcons, List.map_cons] at hrun
    obtain ⟨hstart, hinner, hstop⟩ := hrun.tighten
    have hspan : (Compound.ofMembers first rest).span =
        ⟨first.span.start, ((rest.map Node.span).getLast?.getD first.span).stop⟩ := by
      rw [List.getLast?_map, Compound.ofMembers]
      cases rest.getLast? with
      | none => rfl
      | some last => rfl
    constructor
    · rw [List.reverse_cons, List.map_append]
      refine Span.ordered_append.2 ⟨m, hsettled, ?_⟩
      rw [List.map_singleton, hspan]
      exact ⟨hstart, hinner.le, hstop⟩
    · refine List.forall_mem_cons.2 ⟨every_iff.2 ⟨?_, ?_⟩, hevery⟩
      · rw [← congrArg Span.stop hspan] at hinner
        exact nested_compound.2 hinner
      · refine List.forall_mem_map.2 fun n hn => hmembers n ?_
        rw [← List.mem_reverse, hcons]
        exact hn

theorem Nested.push (h : g.Nested p q) (hn : Span.Ordered q [n.span] q')
    (hevery : (NodeRef.node n).Every NodeRef.Nested) : (g.push o n).Nested p q' := by
  obtain ⟨hclosed, hclosedEvery⟩ := h.close
  unfold Grouping.push
  split
  · obtain ⟨m, hsettled, hrun⟩ := h.ordered
    refine ⟨⟨m, hsettled, ?_⟩, h.settled, List.forall_mem_cons.2 ⟨hevery, h.run⟩⟩
    rw [List.reverse_cons, List.map_append]
    exact Span.ordered_append.2 ⟨q, hrun, hn⟩
  · split
    · exact ⟨⟨q, hclosed, hn⟩, hclosedEvery, List.forall_mem_singleton.2 hevery⟩
    · refine ⟨⟨q', ?_, ?_⟩, List.forall_mem_cons.2 ⟨hevery, hclosedEvery⟩, ?_⟩
      · rw [List.reverse_cons, List.map_append]
        exact Span.ordered_append.2 ⟨q, hclosed, hn⟩
      · rw [g.run_close]
        exact Nat.le_refl q'
      · simp [g.run_close]

theorem Nested.foldl (h : g.Nested p q) (hns : Span.Ordered q (ns.map Node.span) q')
    (hevery : ∀ n ∈ ns, (NodeRef.node n).Every NodeRef.Nested) :
    (ns.foldl (Grouping.push o) g).Nested p q' := by
  induction ns generalizing g q with
  | nil =>
    obtain ⟨m, hsettled, hrun⟩ := h.ordered
    exact ⟨⟨m, hsettled, hrun.mono (Nat.le_refl m) hns⟩, h.settled, h.run⟩
  | cons n ns ih =>
    obtain ⟨hstart, hspan, hlater⟩ := hns
    obtain ⟨hn, hns⟩ := List.forall_mem_cons.1 hevery
    exact ih (h.push ⟨hstart, hspan, Nat.le_refl _⟩ hn) hlater hns

end Grouping

/-- Wrapped nodes stand in a row where the nodes did. -/
theorem Compound.wrap_nested (o : CompoundOptions) {p q : Nat} {ns : List Node}
    (h : Span.Ordered p (ns.map Node.span) q)
    (hns : ∀ n ∈ ns, (NodeRef.node n).Every NodeRef.Nested) :
    Span.Ordered p ((wrap o ns).map Node.span) q ∧
      ∀ n ∈ wrap o ns, (NodeRef.node n).Every NodeRef.Nested := by
  have hempty : Grouping.Nested p p {} :=
    ⟨⟨p, Nat.le_refl p, Nat.le_refl p⟩, by simp, by simp⟩
  obtain ⟨hordered, hevery⟩ := (hempty.foldl (o := o) h hns).close
  exact ⟨hordered, fun n hn => hevery n (List.mem_reverse.1 hn)⟩

/-- The first item is where the second one is, and nested if that is. -/
def NodeRef.KeepsPlace (r' r : NodeRef) : Prop :=
  r'.span = r.span ∧ (r.Every NodeRef.Nested → r'.Every NodeRef.Nested)

theorem NodeRef.keepsPlace_all {α : Type} {item : α → NodeRef} {as' as : List α}
    (h : List.Forall₂ (fun a' a => KeepsPlace (item a') (item a)) as' as) :
    as'.map (fun a => (item a).span) = as.map (fun a => (item a).span) ∧
      ((∀ a ∈ as, (item a).Every Nested) → ∀ a ∈ as', (item a).Every Nested) := by
  induction h with
  | nil => simp
  | cons h _ ih =>
    refine ⟨by rw [List.map_cons, List.map_cons, h.1, ih.1], fun hall => ?_⟩
    obtain ⟨hfirst, hlater⟩ := List.forall_mem_cons.1 hall
    exact List.forall_mem_cons.2 ⟨h.2 hfirst, ih.2 hlater⟩

/-- Grouping keeps items in their place, and nested. -/
theorem Grouping.keeps_place (o : CompoundOptions) :
    Keeps o (fun s' s => KeepsPlace (.selector s') (.selector s))
      (fun n' n => KeepsPlace (.node n') (.node n)) where
  leaf _ _ := ⟨rfl, id⟩
  functional h span sigil name := by
    obtain ⟨hspans, hall⟩ := keepsPlace_all h
    refine ⟨rfl, fun hr => ?_⟩
    obtain ⟨hself, hlist⟩ := every_functional.1 hr
    have hrow := nested_functional.1 hself
    exact every_functional.2 ⟨nested_functional.2 (hspans.symm ▸ hrow), hall hlist⟩
  compound h span invalid := by
    obtain ⟨hspans, hall⟩ := keepsPlace_all h
    refine ⟨rfl, fun hr => ?_⟩
    obtain ⟨hself, hnodes⟩ := every_compound.1 hr
    have hrow := nested_compound.1 hself
    exact every_compound.2 ⟨nested_compound.2 (hspans.symm ▸ hrow), hall hnodes⟩
  wrap h span before after := by
    obtain ⟨hspans, hall⟩ := keepsPlace_all h
    refine ⟨rfl, fun hr => ?_⟩
    obtain ⟨hself, hnodes⟩ := every_selector.1 hr
    have hrow := nested_selector.1 hself
    obtain ⟨hordered, hevery⟩ := Compound.wrap_nested o (hspans.symm ▸ hrow) (hall hnodes)
    exact every_selector.2 ⟨nested_selector.2 hordered, hevery⟩

/-- **Grouping any number of times keeps a tree nested, and where it is.** -/
theorem groupAll_nested {p q : Nat} {list : List Selector} (options : List CompoundOptions)
    (hordered : Span.Ordered p (list.map Selector.span) q)
    (hevery : ∀ s ∈ list, (NodeRef.selector s).Every NodeRef.Nested) :
    let grouped := options.foldl (fun list o => Selector.groupAll o list) list
    Span.Ordered p (grouped.map Selector.span) q ∧
      ∀ s ∈ grouped, (NodeRef.selector s).Every NodeRef.Nested := by
  induction options generalizing list with
  | nil => exact ⟨hordered, hevery⟩
  | cons o options ih =>
    obtain ⟨hspans, hall⟩ := keepsPlace_all ((Grouping.keeps_place o).selectorsAll list)
    exact ih (hspans.symm ▸ hordered) (hall hevery)

end Selectors
