import Selectors.Proofs.Canonical.Lists
import Selectors.Proofs.Preorder

/-!
# Parsing printed trees

A canonical tree is read back from its text, equal to the tree that was printed in all but the
spans (`parse_printList`).  Nothing in it is marked as a problem: a canonical tree has no
diagnostics, and whether an item has one does not depend on spans.
-/

namespace Selectors

open Lexer Canonical

/-! ### Problems without places -/

namespace NodeRef

/-- The item without its spans. -/
def unplaced : NodeRef → NodeRef
  | selector s => selector s.unplaced
  | node n => node n.unplaced
  | part p => part p.unplaced

theorem children_unplaced (r : NodeRef) :
    r.unplaced.children.toList = r.children.toList.map unplaced := by
  cases r with
  | part p => rfl
  | selector s =>
    rw [unplaced, Selector.unplaced_eq]
    simp [children, Siblings.toList, unplaced, Function.comp_def]
  | node n =>
    cases n with
    | functional span sigil name args =>
      cases args with
      | none => rfl
      | some list =>
        simp [unplaced, Node.unplaced, Selector.unplacedArguments, Selector.unplacedAll_eq,
          children, Siblings.toList, Function.comp_def]
    | nth n => simp [unplaced, Node.unplaced, Nth.unplaced, children, Siblings.toList,
        Function.comp_def]
    | compound span ns invalid =>
      simp [unplaced, Node.unplaced, Node.unplacedAll_eq, children, Siblings.toList,
        Function.comp_def]
    | element | combinator | comment | invalid => rfl

theorem preorder_unplaced (rs : List NodeRef) :
    preorder (rs.map unplaced) = (preorder rs).map unplaced := by
  fun_induction preorder rs with
  | case1 => rw [List.map_nil, preorder]
  | case2 r rs ihc ihr =>
    rw [List.map_cons, preorder, children_unplaced, ihc, ihr, List.map_cons, List.map_append]

/-- Whether an item has a diagnostic does not depend on spans. -/
theorem diagnostic?_unplaced (r : NodeRef) :
    r.unplaced.diagnostic? = none ↔ r.diagnostic? = none := by
  cases r with
  | selector s => exact Iff.rfl
  | part p =>
    cases p with
    | part role p => cases h : p.invalid <;> simp [unplaced, NthNode.unplaced, diagnostic?, h]
    | comment c => exact Iff.rfl
  | node n =>
    cases n with
    | element span kind name ns =>
      cases ns with
      | none => exact Iff.rfl
      | some ns => simp [unplaced, Node.unplaced, Namespace.unplaced, diagnostic?]
    | combinator c =>
      cases h : c.invalid <;> simp [unplaced, Node.unplaced, Combinator.unplaced, diagnostic?, h]
    | compound span ns invalid => cases invalid <;> simp [unplaced, Node.unplaced, diagnostic?]
    | functional | comment | nth => exact Iff.rfl
    | invalid span text => simp [unplaced, Node.unplaced, diagnostic?]

end NodeRef

open NodeRef

/-- Trees that differ in spans only have diagnostics or not together. -/
theorem diagnostics_eq_nil_of_unplaced {rs ts : List NodeRef}
    (h : rs.map NodeRef.unplaced = ts.map NodeRef.unplaced) (ht : diagnostics ts = []) :
    diagnostics rs = [] := by
  rw [diagnostics_eq_nil] at ht ⊢
  have hpre : (preorder rs).map NodeRef.unplaced = (preorder ts).map NodeRef.unplaced := by
    rw [← preorder_unplaced, h, preorder_unplaced]
  intro r hr
  obtain ⟨t, hmem, hrt⟩ : ∃ t ∈ preorder ts, t.unplaced = r.unplaced :=
    List.mem_map.1 (hpre ▸ List.mem_map_of_mem hr)
  rw [← diagnostic?_unplaced, ← hrt, diagnostic?_unplaced]
  exact ht t hmem

/-! ### Canonical trees have no problems -/

/-- The item marks no problem. -/
def NodeRef.Clean (r : NodeRef) : Prop := r.diagnostic? = none

section

variable {nested : List Selector → Prop}

theorem Canonical.Head.clean {n : Node} (h : Head n) : (NodeRef.node n).Every Clean := by
  cases h with
  | @element span kind name ns hname hns =>
    refine (every_of_childless rfl).2 ?_
    cases ns with
    | none => rfl
    | some ns =>
      obtain ⟨-, -, -, herror⟩ := hns ns rfl
      simp [Clean, diagnostic?, herror]

variable (hnested : ∀ list, nested list → ∀ s ∈ list, (NodeRef.selector s).Every Clean)
include hnested

theorem Canonical.Member.clean {n : Node} (h : Member nested n) :
    (NodeRef.node n).Every Clean := by
  cases h with
  | @functional span sigil name args hname hargs =>
    cases args with
    | none => exact (every_of_childless rfl).2 rfl
    | some list => exact every_functional.2 ⟨rfl, hnested list (hargs list rfl)⟩

theorem Canonical.Chain.clean {ns : List Node} (h : Chain nested ns) :
    ∀ n ∈ ns, (NodeRef.node n).Every Clean := by
  intro n hn
  rcases h.mem n hn with (hn | hn) | ⟨c, rfl, hfits⟩
  · exact hn.clean
  · exact hn.clean hnested
  · refine (every_of_childless rfl).2 ?_
    simp [Clean, diagnostic?, hfits.1]

end

/-- No item of a canonical tree marks a problem. -/
theorem Canonical.clean {n : Nat} {list : List Selector} (h : Canonical n list) :
    ∀ s ∈ list, (NodeRef.selector s).Every Clean := by
  induction n using Nat.strongRecOn generalizing list with
  | ind n ih =>
    obtain ⟨nested, -, hentries, hinner⟩ := h.entries
    intro s hs
    refine every_selector.2 ⟨rfl, (hentries s hs).nodes.clean fun list hl => ?_⟩
    obtain ⟨m, rfl, rfl | hl⟩ := hinner list hl
    · simp
    · exact ih m (Nat.lt_succ_self m) hl

theorem Canonical.diagnostics_eq_nil {n : Nat} {list : List Selector} (h : Canonical n list) :
    diagnostics (list.map .selector) = [] := by
  refine Selectors.diagnostics_eq_nil.2 fun r hr => ?_
  obtain ⟨t, ht, hr⟩ := mem_preorder.1 hr
  obtain ⟨s, hs, rfl⟩ := List.mem_map.1 ht
  exact h.clean s hs r hr

/-! ### Whole texts -/

theorem breaks_nil : Breaks [] := by simp [Breaks]

theorem endsGap_nil : EndsGap [] := by simp [EndsGap]

theorem cut_nil (p : Nat) : cut p [] = [] := by
  rw [cut, lexemes]
  rfl

/-- A canonical list is read back when nothing comes after it. -/
theorem Canonical.leads_done {t : List Selector} (h : Canonical maxDepth t) (stop : Nat) :
    ∃ b, Leads stop 0 {} (cut 0 (Selector.printList t).toList) b [] ∧
      ∀ x, (b.finish x).map Selector.unplaced = t.map Selector.unplaced := by
  obtain ⟨b, q, hlead, hlist⟩ := h.leads (Nat.add_zero maxDepth) breaks_nil endsGap_nil 0
  rw [List.append_nil, cut_nil] at hlead
  exact ⟨b, hlead, hlist⟩

/-- **A canonical tree is read back from its text**, equal in all but the spans, and no problem is
found in it.  Of a program whose tokens have lengths of 32 bits, this speaks if the text is shorter
than 4 GiB. -/
theorem parse_printList (t : List Selector) (h : Canonical maxDepth t) :
    (parse (Selector.printList t)).map Selector.unplaced = t.map Selector.unplaced ∧
      diagnostics ((parse (Selector.printList t)).map .selector) = [] := by
  generalize hstop : 0 + (Selector.printList t).utf8ByteSize = stop
  have hparse : (parse (Selector.printList t)).map Selector.unplaced =
      t.map Selector.unplaced := by
    obtain ⟨b, hlead, hlist⟩ := h.leads_done stop
    -- the reading that stops after the list is the one that the reader gives
    obtain ⟨es, hread⟩ := hlead _ .done
    have hbuilder : b = (readList stop 0 {} (cut 0 (Selector.printList t).toList)).val.builder :=
      congrArg Reading.builder hread.eq_readList
    have hfinish := hlist stop
    rw [hbuilder, ← hstop] at hfinish
    exact hfinish
  have hselector : ∀ ss : List Selector, (ss.map NodeRef.selector).map NodeRef.unplaced =
      (ss.map Selector.unplaced).map NodeRef.selector := by
    intro ss
    rw [List.map_map, List.map_map]
    rfl
  refine ⟨hparse, diagnostics_eq_nil_of_unplaced ?_ h.diagnostics_eq_nil⟩
  rw [hselector, hselector, hparse]

theorem parse_printList_nested :
    ∃ t, Selector.printList t = " a|b:is([x=1]) > &" ∧ Canonical maxDepth t ∧
      (parse (Selector.printList t)).map Selector.unplaced = t.map Selector.unplaced ∧
      diagnostics ((parse (Selector.printList t)).map .selector) = [] := by
  have hinner : Canonical 127 [⟨default, "", "", [.functional default .brackets "x=1" none]⟩] := by
    refine ⟨by simp, fun s hs => ?_⟩
    obtain rfl := List.mem_singleton.1 hs
    refine ⟨by decide, by decide, @Chain.single _ none _ ⟨by simp, by simp, fun n hn => ?_⟩⟩
    obtain rfl := List.mem_singleton.1 hn
    exact .functional (by decide : IsAttributeText _) (by simp) (by simp)
  have h : Canonical (127 + 1) [⟨default, " ", "",
      [.element default .type "b" (some { value := "a" }),
        .functional default (.colon []) "is"
          (some [⟨default, "", "", [.functional default .brackets "x=1" none]⟩]),
        .combinator { span := default, kind := .child, text := ">", before := " ", after := " " },
        .functional default .ampersand "&" none]⟩] := by
    refine ⟨by simp, fun s hs => ?_⟩
    obtain rfl := List.mem_singleton.1 hs
    refine ⟨by decide, by decide, @Chain.cons _ (some _) [_] [_] _ ⟨by simp, ?_, ?_⟩
      ⟨rfl, .inr ⟨by decide, rfl, by decide, by decide⟩⟩
      (@Chain.single _ none [_] ⟨by simp, by simp, ?_⟩)⟩
    · intro n hn
      obtain rfl := Option.some.inj hn
      refine .element (by decide : IsName "b") fun ns hns => ?_
      obtain rfl := Option.some.inj hns
      exact ⟨.inl (by decide), rfl, rfl, rfl⟩
    · intro n hn
      obtain rfl := List.mem_singleton.1 hn
      refine .functional ⟨rfl, by decide⟩ (fun list hl => ?_) fun list hl _ => ?_
      · obtain rfl := Option.some.inj hl
        exact .inr hinner
      · exact (by decide : ¬isNthName "is")
    · intro n hn
      obtain rfl := List.mem_singleton.1 hn
      exact .functional rfl (by simp) (by simp)
  exact ⟨_, rfl, h, parse_printList _ h⟩

end Selectors
