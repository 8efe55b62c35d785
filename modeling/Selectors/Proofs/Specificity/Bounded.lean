import Mathlib.Order.Bounds.Basic
import Selectors.Proofs.Specificity.Count

/-!
# Specificities of 32-bit slots

The slots of a specificity are words of 32 bits, and a sum that does not fit them is refused.
`specificity?` is the walk of `specificity` with every sum checked where it is taken: it stops at
the first one that does not fit.

What is counted is added to what was counted before, so the slots only grow, and the sums of a list
of siblings fit as soon as the last one does.  The arguments of a node are summed from zero again,
hence the sums that are taken fit when those of the whole and of every weighed argument do
(`NodeRef.argumentsFit`).

* `traverse_charge`: what the checked walk makes of a list of siblings.
* `specificity_counts`: the checked specificity is what the items count for, unless a sum overflows.
-/

namespace Selectors

namespace Specificity

/-- The specificity, if the sums that it took fit. -/
def ifFits (fit : Bool) (c : Specificity) : Except Overflow Specificity :=
  if fit then .ok c else .error .overflow

/-- Adds what an argument list counts for, if there is one. -/
def addArguments? (argument : List Selector → Except Overflow Specificity)
    (total : Specificity) : Option (List Selector) → Except Overflow Specificity
  | none => .ok total
  | some list => argument list >>= total.add?

end Specificity

/-- Adds what a node counts for by itself, when `argument` finds what an argument list counts for:
the weight of the node, one sum after another. -/
def Node.charge? (argument : List Selector → Except Overflow Specificity) (total : Specificity) :
    Node → Except Overflow Specificity
  | .element _ .type _ _ => total.add? { types := 1 }
  | .functional _ sigil name args =>
    match sigil with
    | .hash => total.add? { ids := 1 }
    | .dot _ | .brackets => total.add? { classes := 1 }
    | .colons _ _ => total.add? { types := 1 }
    | .ampersand => .ok total
    | .colon _ =>
      match Specificity.pseudoWeight name with
      | .nothing => .ok total
      | .oneClass => total.add? { classes := 1 }
      | .argument => total.addArguments? argument args
      | .oneClassAndArgument => do
        let total ← total.add? { classes := 1 }
        total.addArguments? argument args
  | _ => .ok total

/-- How a checked walk weighs the items that it visits. -/
def Specificity.charge (argument : List Selector → Except Overflow Specificity) (v : Visit) :
    Except Overflow Specificity → Except Overflow Specificity × Control
  | .error e => (.error e, .stop)
  | .ok total =>
    match v.item with
    | .node (.compound _ _ _) => (.ok total, .descend)
    | .node n =>
      match n.charge? argument total with
      | .ok total => (.ok total, .skip 0)
      | .error e => (.error e, .stop)
    | _ => (.ok total, .descend)

/-- The sum over the items under `root`, every sum checked, of which arguments nested deeper than
`depth` count nothing. -/
def specificityWithin? : Nat → List NodeRef → Except Overflow Specificity
  | 0, _ => .ok {}
  | depth + 1, root =>
    let argument (list : List Selector) : Except Overflow Specificity :=
      list.foldlM (fun most s => do return most.max (← specificityWithin? depth [.selector s])) {}
    walk {} (Specificity.charge argument) root (.ok {})

/-- The specificity of the items of `root` together, unless a sum on the way to it overflows. -/
def specificity? (root : List NodeRef) : Except Overflow Specificity :=
  specificityWithin? (NodeRef.sizeAll root + 1) root

/-! ### The sums that are taken -/

mutual

/-- Whether the sums of the weighed arguments in a selector fit. -/
def Selector.argumentsFit : Selector → Bool
  | ⟨_, _, _, nodes⟩ => Node.argumentsFitAll nodes

/-- Whether the sums of the weighed arguments of a node, or in it, fit. -/
def Node.argumentsFit : Node → Bool
  | .functional _ (.colon _) name (some list) =>
    match Specificity.pseudoWeight name with
    | .nothing | .oneClass => true
    | .argument | .oneClassAndArgument => Selector.sumsFit list
  | .compound _ nodes _ => Node.argumentsFitAll nodes
  | _ => true

/-- Whether the sums of the weighed arguments of nodes fit. -/
def Node.argumentsFitAll : List Node → Bool
  | [] => true
  | n :: ns => n.argumentsFit && Node.argumentsFitAll ns

/-- Whether the sums of each selector of a list fit, those of its own arguments included. -/
def Selector.sumsFit : List Selector → Bool
  | [] => true
  | s :: ss => s.count.fits && s.argumentsFit && Selector.sumsFit ss

end

namespace NodeRef

/-- Whether the sums of the weighed arguments in an item fit. -/
def argumentsFit : NodeRef → Bool
  | selector s => s.argumentsFit
  | node n => n.argumentsFit
  | part _ => true

theorem all_argumentsFit_map_node (ns : List Node) :
    (ns.map node).all argumentsFit = Node.argumentsFitAll ns := by
  induction ns with
  | nil => rfl
  | cons n ns ih =>
    rw [List.map_cons, List.all_cons, ih]
    rfl

theorem Holds.argumentsFit_eq {r : NodeRef} (h : r.Holds) :
    r.argumentsFit = r.children.toList.all argumentsFit := by
  cases r with
  | selector s =>
    rw [children, Siblings.toList, all_argumentsFit_map_node]
    cases s
    rfl
  | part p => rfl
  | node n =>
    cases n with
    | compound span ns invalid =>
      rw [children, Siblings.toList, all_argumentsFit_map_node]
      rfl
    | element span kind name ns => cases kind <;> cases h
    | functional span sigil name args => cases sigil <;> cases h
    | _ => cases h

end NodeRef

namespace Specificity

theorem fits_iff {a : Specificity} :
    a.fits ↔ a.inline < UInt32.size ∧ a.ids < UInt32.size ∧ a.classes < UInt32.size ∧
      a.types < UInt32.size := by
  simp [fits, slots]

/-- Slots only grow. -/
theorem fits_of_add {a b : Specificity} (h : (a + b).fits) : a.fits := by
  simp only [fits_iff, inline_add, ids_add, classes_add, types_add] at *
  omega

theorem add?_eq (a b : Specificity) : a.add? b = ifFits (a + b).fits (a + b) := rfl

theorem ifFits_bind (fit : Bool) (c : Specificity) (f : Specificity → Except Overflow Specificity) :
    ifFits fit c >>= f = if fit then f c else .error .overflow := by
  cases fit <;> rfl

/-- To find the greatest of a list, all of it must fit. -/
theorem foldlM_max {α : Type} {g : α → Except Overflow Specificity} {f : α → Specificity}
    {fit : α → Bool} {l : List α} (h : ∀ x ∈ l, g x = ifFits (fit x) (f x)) (a : Specificity) :
    l.foldlM (fun most x => do return most.max (← g x)) a =
      ifFits (l.all fit) (l.foldl (fun most x => most.max (f x)) a) := by
  induction l generalizing a with
  | nil => rfl
  | cons x l ih =>
    rw [List.forall_mem_cons] at h
    rw [List.foldlM_cons, List.all_cons, List.foldl_cons, h.1]
    cases fit x with
    | false => rfl
    | true => exact ih h.2 _

end Specificity

namespace Selector

theorem foldl_max_count (list : List Selector) :
    list.foldl (fun most s => most.max s.count) 0 = countMost list := by
  refine eq_of_forall_ge_iff fun c => ?_
  rw [Specificity.foldl_max_le_iff, countMost_le_iff]
  exact and_iff_right (Specificity.zero_le c)

theorem sumsFit_eq_all (list : List Selector) :
    sumsFit list = list.all fun s => s.count.fits && s.argumentsFit := by
  induction list with
  | nil => rfl
  | cons s ss ih => rw [sumsFit, ih, List.all_cons]

/-- The greatest of a list and of nothing, one of which it is. -/
theorem isGreatest_countMost (list : List Selector) :
    IsGreatest (insert 0 (count '' {s | s ∈ list})) (countMost list) := by
  refine ⟨?_, ?_⟩
  · induction list with
    | nil => exact .inl rfl
    | cons s ss ih =>
      rw [countMost, Specificity.max]
      split
      · rcases ih with h | ⟨t, ht, h⟩
        · exact .inl h
        · exact .inr ⟨t, List.mem_cons_of_mem _ ht, h⟩
      · exact .inr ⟨s, List.mem_cons_self, rfl⟩
  · rintro c (rfl | ⟨s, hs, rfl⟩)
    · exact Specificity.zero_le _
    · exact count_le_countMost hs

end Selector

/-! ### The checked walk -/

/-- Charging for a node that is no compound adds what it counts for, unless that, or the arguments
of the node, overflow. -/
theorem Node.charge?_eq {argument : List Selector → Except Overflow Specificity} {n : Node}
    {total : Specificity} (hn : n.kind ≠ .compound)
    (h : ∀ list ∈ n.arguments?,
      argument list = Specificity.ifFits (Selector.sumsFit list) (Selector.countMost list))
    (htotal : total.fits) :
    n.charge? argument total =
      Specificity.ifFits ((total + n.count).fits && n.argumentsFit) (total + n.count) := by
  have hnothing : .ok total = Specificity.ifFits ((total + 0).fits && true) (total + 0) := by
    rw [add_zero, htotal]
    rfl
  have hcharge (c : Specificity) :
      total.add? c = Specificity.ifFits ((total + c).fits && true) (total + c) := by
    rw [Bool.and_true]
    rfl
  -- arguments are charged to a total that may have grown by the pseudo-class itself
  have harguments (span : Span) (sigil : Sigil) (name : String) (list : List Selector)
      (hlist : n = .functional span sigil name (some list)) (total : Specificity) :
      total.addArguments? argument (some list) = Specificity.ifFits
        ((total + Selector.countMost list).fits && Selector.sumsFit list)
        (total + Selector.countMost list) := by
    subst hlist
    rw [Specificity.addArguments?, h list rfl, Specificity.ifFits_bind]
    cases Selector.sumsFit list
    · rw [Bool.and_false]
      rfl
    · rw [Bool.and_true]
      rfl
  cases n with
  | element span kind name ns =>
    cases kind with
    | type => exact hcharge _
    | universal => exact hnothing
  | functional span sigil name args =>
    cases sigil with
    | hash | dot _ | brackets | colons _ _ => exact hcharge _
    | ampersand => exact hnothing
    | colon comments =>
      cases args with
      | none =>
        simp only [charge?, count, Sigil.count, argumentsFit, Selector.countArguments]
        cases Specificity.pseudoWeight name with
        | nothing | argument => exact hnothing
        | oneClass => exact hcharge _
        | oneClassAndArgument =>
          have hone := hcharge { classes := 1 }
          simp only [Specificity.addArguments?, hone, Specificity.ifFits_bind, add_zero]
          rfl
      | some list =>
        simp only [charge?, count, Sigil.count, argumentsFit, Selector.countArguments]
        cases Specificity.pseudoWeight name with
        | nothing => exact hnothing
        | oneClass => exact hcharge _
        | argument => exact harguments span _ name list rfl total
        | oneClassAndArgument =>
          simp only [Specificity.add?_eq, Specificity.ifFits_bind,
            harguments span _ name list rfl, add_assoc]
          split
          · rfl
          · rename_i hone
            rw [← add_assoc, Bool.eq_false_iff.2 fun hall => hone (Specificity.fits_of_add hall)]
            rfl
  | compound => exact absurd rfl hn
  | _ => exact hnothing

namespace Specificity

variable {argument : List Selector → Except Overflow Specificity}

/-- A checked walk goes into items that hold others, and charges for the others. -/
theorem charge_eq (argument : List Selector → Except Overflow Specificity) (v : Visit)
    (total : Specificity) :
    v.item.Holds ∧ charge argument v (.ok total) = (.ok total, .descend) ∨
      ∃ n, v.item = .node n ∧ n.kind ≠ .compound ∧
        charge argument v (.ok total) =
          match n.charge? argument total with
          | .ok total => (.ok total, .skip 0)
          | .error e => (.error e, .stop) := by
  obtain ⟨r, index, siblings, parents⟩ := v
  cases r with
  | selector s => exact .inl ⟨trivial, rfl⟩
  | part p => exact .inl ⟨trivial, rfl⟩
  | node n =>
    cases n with
    | compound span ns invalid => exact .inl ⟨rfl, rfl⟩
    | element span kind name ns => exact .inr ⟨_, rfl, by cases kind <;> nofun, rfl⟩
    | functional span sigil name args => exact .inr ⟨_, rfl, by cases sigil <;> nofun, rfl⟩
    | _ => exact .inr ⟨_, rfl, nofun, rfl⟩

end Specificity

namespace Traversal

/-- How a checked walk leaves items, when all their sums fit and when they do not. -/
def Charged (t : Traversal (Except Overflow Specificity)) (fit : Bool) (total : Specificity) :
    Prop :=
  t.exit = (if fit then .leave 0 else .stop) ∧ t.state = Specificity.ifFits fit total

theorem Charged.after {t : Traversal (Except Overflow Specificity)} {fit : Bool}
    {total : Specificity} (h : t.Charged fit total) (calls : List Visit) :
    (t.after calls).Charged fit total := h

/-- Later siblings are charged for when nothing overflowed before. -/
theorem Charged.andThen {t : Traversal (Except Overflow Specificity)}
    {later : Except Overflow Specificity → Traversal (Except Overflow Specificity)}
    {fit fit' : Bool} (total : Specificity) {total' : Specificity} (h : t.Charged fit total)
    (hlater : fit → (later (.ok total)).Charged fit' total') :
    (t.andThen later).Charged (fit && fit') total' := by
  obtain ⟨calls, state, exit⟩ := t
  obtain ⟨rfl, rfl⟩ := h
  cases fit with
  | false => exact ⟨rfl, rfl⟩
  | true => exact (hlater rfl).after calls

end Traversal

/-- Charging for the items of a list, and for what is under them, adds what they count for, unless
that, or the arguments of one of them, overflow: then the walk stops. -/
theorem traverse_charge {argument : List Selector → Except Overflow Specificity} {depth : Nat}
    (hargument : ∀ list, Selector.sizeAll list < depth →
      argument list = Specificity.ifFits (Selector.sumsFit list) (Selector.countMost list))
    (parents siblings rs : List NodeRef) (index : Nat) (total : Specificity) (htotal : total.fits)
    (hsize : NodeRef.sizeAll rs ≤ depth) :
    (traverse {} (Specificity.charge argument) parents siblings index rs (.ok total)).Charged
      ((total + NodeRef.countAll rs).fits && rs.all NodeRef.argumentsFit)
      (total + NodeRef.countAll rs) := by
  fun_induction NodeRef.preorder rs generalizing parents siblings index total with
  | case1 =>
    have hzero : total + NodeRef.countAll [] = total := add_zero total
    rw [hzero, htotal, traverse]
    exact ⟨rfl, rfl⟩
  | case2 r rs ihc ihr =>
    have hr := r.size_eq
    rw [NodeRef.sizeAll] at hsize
    -- the sums of the whole fit when those of the first item and then those of the others do
    have hfits : ((total + r.count + NodeRef.countAll rs).fits &&
          (r :: rs).all NodeRef.argumentsFit) =
        (((total + r.count).fits && r.argumentsFit) &&
          ((total + r.count + NodeRef.countAll rs).fits && rs.all NodeRef.argumentsFit)) := by
      have hgrow := @Specificity.fits_of_add (total + r.count) (NodeRef.countAll rs)
      grind
    rw [traverse, NodeRef.countAll_cons, ← add_assoc, hfits]
    refine Traversal.Charged.andThen (total + r.count) ?_ fun hfit =>
      ihr parents siblings (index + 1) _ (by grind) (by omega)
    rcases Specificity.charge_eq argument ⟨r, index, siblings, parents⟩ total with
      ⟨hholds, hvisit⟩ | ⟨n, hn, hkind, hvisit⟩
    · rw [hholds.count_eq, hholds.argumentsFit_eq]
      simp only [hvisit]
      exact (ihc (parents ++ [r]) r.children.toList 0 total htotal (by omega)).after _
    · obtain rfl : r = .node n := hn
      have hcharge : n.charge? argument total = Specificity.ifFits
          ((total + n.count).fits && n.argumentsFit) (total + n.count) := by
        refine Node.charge?_eq hkind (fun list hlist => hargument list ?_) htotal
        rw [NodeRef.sizeAll_of_arguments hlist] at hr
        omega
      simp only [hvisit, hcharge, NodeRef.count, NodeRef.argumentsFit]
      cases (total + n.count).fits && n.argumentsFit <;> exact ⟨rfl, rfl⟩

/-- Unless arguments are nested too deep, all sums are checked. -/
theorem specificityWithin?_eq {depth : Nat} {root : List NodeRef}
    (h : NodeRef.sizeAll root < depth) :
    specificityWithin? depth root = Specificity.ifFits
      ((NodeRef.countAll root).fits && root.all NodeRef.argumentsFit) (NodeRef.countAll root) := by
  induction depth generalizing root with
  | zero => omega
  | succ depth ih =>
    have hargument : ∀ list, Selector.sizeAll list < depth →
        (list.foldlM (fun most s => do
            return most.max (← specificityWithin? depth [.selector s])) {}) =
          Specificity.ifFits (Selector.sumsFit list) (Selector.countMost list) := by
      intro list hlist
      rw [Selector.sumsFit_eq_all, ← Selector.foldl_max_count]
      refine Specificity.foldlM_max (fun s hs => ?_) 0
      have := Selector.size_le_sizeAll hs
      rw [ih (by simp only [NodeRef.sizeAll, NodeRef.size]; omega)]
      simp [NodeRef.countAll, NodeRef.count, NodeRef.argumentsFit]
    have hwalk := traverse_charge hargument [] root root 0 0 rfl (by omega)
    rw [zero_add] at hwalk
    rw [specificityWithin?, walk_eq_state]
    exact hwalk.2

/-! ### The first slot -/

theorem Sigil.inline_count {most : Specificity} (h : most.inline = 0) (name : String)
    (sigil : Sigil) : (sigil.count most name).inline = 0 := by
  cases sigil with
  | colon comments =>
    rw [count]
    split <;> simp [h]
  | _ => rfl

mutual

/-- Nothing in a selector is an inline style. -/
theorem Selector.inline_count : ∀ s : Selector, s.count.inline = 0
  | ⟨_, _, _, nodes⟩ => Node.inline_countAll nodes

theorem Node.inline_count : ∀ n : Node, n.count.inline = 0
  | .element _ .type _ _ | .element _ .universal _ _ => rfl
  | .functional _ sigil name args =>
    Sigil.inline_count (Selector.inline_countArguments args) name sigil
  | .compound _ nodes _ => Node.inline_countAll nodes
  | .combinator _ | .comment _ | .invalid _ _ | .nth _ => rfl

theorem Node.inline_countAll : ∀ ns : List Node, (Node.countAll ns).inline = 0
  | [] => rfl
  | n :: ns => by
    rw [Node.countAll, Specificity.inline_add, Node.inline_count n, Node.inline_countAll ns]

theorem Selector.inline_countArguments : ∀ args, (Selector.countArguments args).inline = 0
  | none => rfl
  | some list => Selector.inline_countMost list

theorem Selector.inline_countMost : ∀ list : List Selector, (Selector.countMost list).inline = 0
  | [] => rfl
  | s :: ss => by
    rw [Selector.countMost, Specificity.max]
    split
    · exact Selector.inline_countMost ss
    · exact Selector.inline_count s

end

theorem NodeRef.inline_countAll (rs : List NodeRef) : (countAll rs).inline = 0 := by
  induction rs with
  | nil => rfl
  | cons r rs ih =>
    rw [countAll_cons, Specificity.inline_add, ih]
    cases r with
    | selector s => exact s.inline_count
    | node n => exact n.inline_count
    | part p => rfl

/-- A pseudo-class counts by its name, in which the case of letters does not matter. -/
theorem Node.count_pseudoClass (span : Span) (comments : List Comment) (name : String)
    (args : Option (List Selector)) :
    (functional span (.colon comments) name args).count =
      (let lower := name.toList.map Char.toLower
      if lower = "where".toList then 0
      else if lower ∈ ["is".toList, "not".toList, "has".toList] then Selector.countArguments args
      else if "nth-".toList <+: lower then { classes := 1 } + Selector.countArguments args
      else { classes := 1 }) := by
  simp only [count, Sigil.count, Specificity.pseudoWeight, List.mem_cons, List.not_mem_nil,
    or_false, List.isPrefixOf_iff_prefix]
  split_ifs <;> rfl

/-- **The specificity of items is what they count for together, and nothing is counted twice or
missed**: the walk with checked sums finds it unless a sum that it takes does not fit, and then it
finds nothing.  The first slot stays empty, a pseudo-class counts by its name, and an argument list
counts for the greatest of its selectors. -/
theorem specificity_counts (root : List NodeRef) :
    specificity root = NodeRef.countAll root ∧
      specificity? root = (if (NodeRef.countAll root).fits ∧ root.all NodeRef.argumentsFit then
        .ok (NodeRef.countAll root) else .error .overflow) ∧
      (NodeRef.countAll root).inline = 0 ∧
      (∀ span comments name args, (Node.functional span (.colon comments) name args).count =
        (let lower := name.toList.map Char.toLower
        if lower = "where".toList then 0
        else if lower ∈ ["is".toList, "not".toList, "has".toList] then Selector.countArguments args
        else if "nth-".toList <+: lower then { classes := 1 } + Selector.countArguments args
        else { classes := 1 })) ∧
      ∀ list, IsGreatest (insert 0 (Selector.count '' {s | s ∈ list}))
        (Selector.countMost list) := by
  refine ⟨specificity_eq root, ?_, NodeRef.inline_countAll root, Node.count_pseudoClass,
    Selector.isGreatest_countMost⟩
  rw [specificity?, specificityWithin?_eq (Nat.lt_succ_self _), Specificity.ifFits]
  simp only [Bool.and_eq_true]

end Selectors
