import Selectors.Proofs.Preorder
import Selectors.Proofs.Specificity.Order

/-!
# What items count for

The specificity of items is found by a walk that adds up what it visits.  `count` says the same by
recursion on the tree: selectors and compounds count for their nodes together, other nodes for
themselves, and what an argument list adds is the greatest of its selectors.

* `Node.weight_eq_count`: the weight that the walk gives a node is what the node counts for.
* `specificity_eq`: the specificity of items is what they count for together.
-/

namespace Selectors

/-- What a functional node counts for when the most specific of its arguments counts for `most`. -/
def Sigil.count (most : Specificity) (name : String) : Sigil → Specificity
  | hash => { ids := 1 }
  | dot _ | brackets => { classes := 1 }
  | colons _ _ => { types := 1 }
  | ampersand => 0
  | colon _ =>
    match Specificity.pseudoWeight name with
    | .nothing => 0
    | .argument => most
    | .oneClassAndArgument => { classes := 1 } + most
    | .oneClass => { classes := 1 }

mutual

/-- What a selector counts for. -/
def Selector.count : Selector → Specificity
  | ⟨_, _, _, nodes⟩ => Node.countAll nodes

/-- What a node counts for. -/
def Node.count : Node → Specificity
  | .element _ .type _ _ => { types := 1 }
  | .element _ .universal _ _ => 0
  | .functional _ sigil name args => sigil.count (Selector.countArguments args) name
  | .compound _ nodes _ => Node.countAll nodes
  | .combinator _ | .comment _ | .invalid _ _ | .nth _ => 0

/-- What nodes count for together. -/
def Node.countAll : List Node → Specificity
  | [] => 0
  | n :: ns => n.count + Node.countAll ns

/-- What the most specific argument counts for; nothing when there is none. -/
def Selector.countArguments : Option (List Selector) → Specificity
  | none => 0
  | some list => Selector.countMost list

/-- What the most specific selector of a list counts for; nothing when there is none. -/
def Selector.countMost : List Selector → Specificity
  | [] => 0
  | s :: ss => s.count.max (Selector.countMost ss)

end

/-- What an item counts for. -/
def NodeRef.count : NodeRef → Specificity
  | selector s => s.count
  | node n => n.count
  | part _ => 0

/-- What items count for together. -/
def NodeRef.countAll (rs : List NodeRef) : Specificity := (rs.map count).sum

/-! ### Lists -/

theorem Node.countAll_eq_sum (ns : List Node) : countAll ns = (ns.map count).sum := by
  induction ns with
  | nil => rfl
  | cons n ns ih => rw [countAll, ih, List.map_cons, List.sum_cons]

theorem NodeRef.countAll_map_node (ns : List Node) : countAll (ns.map node) = Node.countAll ns := by
  rw [countAll, Node.countAll_eq_sum, List.map_map]
  rfl

theorem Selector.countMost_le_iff {list : List Selector} {c : Specificity} :
    countMost list ≤ c ↔ ∀ s ∈ list, s.count ≤ c := by
  induction list with
  | nil => simp [countMost, Specificity.zero_le]
  | cons s ss ih => rw [countMost, Specificity.max_le_iff, ih, List.forall_mem_cons]

theorem Selector.count_le_countMost {list : List Selector} {s : Selector} (h : s ∈ list) :
    s.count ≤ countMost list := countMost_le_iff.1 le_rfl s h

/-! ### The walk -/

theorem Selector.size_le_sizeAll {list : List Selector} {s : Selector} (h : s ∈ list) :
    s.size ≤ sizeAll list := by
  induction list with
  | nil => cases h
  | cons t ts ih =>
    rw [sizeAll]
    rcases List.mem_cons.1 h with rfl | h
    · omega
    · have := ih h
      omega

/-- The weight of a node that is no compound is what it counts for, if its arguments are weighed
by what they count for. -/
theorem Node.weight_eq_count {argument : List Selector → Specificity} {n : Node}
    (hn : n.kind ≠ .compound)
    (h : ∀ list ∈ n.arguments?, argument list = Selector.countMost list) :
    n.weight argument = n.count := by
  cases n with
  | element span kind name ns => cases kind <;> rfl
  | functional span sigil name args =>
    have hargs : (args.map argument).getD {} = Selector.countArguments args := by
      cases args with
      | none => rfl
      | some list => exact h list rfl
    cases sigil with
    | colon comments =>
      simp only [Node.weight, Node.count, Sigil.count, hargs]
      cases Specificity.pseudoWeight name <;> rfl
    | _ => rfl
  | compound => exact absurd rfl hn
  | _ => rfl

namespace NodeRef

/-- Items that count for what stands under them, and nothing else. -/
def Holds : NodeRef → Prop
  | selector _ | part _ => True
  | node n => n.kind = .compound

theorem Holds.count_eq {r : NodeRef} (h : r.Holds) : r.count = countAll r.children.toList := by
  cases r with
  | selector s =>
    rw [children, Siblings.toList, countAll_map_node, count]
    cases s
    rfl
  | part p => rfl
  | node n =>
    cases n with
    | compound span ns invalid => rw [children, Siblings.toList, countAll_map_node]; rfl
    | element span kind name ns => cases kind <;> cases h
    | functional span sigil name args => cases sigil <;> cases h
    | _ => cases h

/-- The children of a node with arguments are these. -/
theorem sizeAll_of_arguments {n : Node} {list : List Selector} (h : list ∈ n.arguments?) :
    sizeAll (node n).children.toList = Selector.sizeAll list := by
  cases n with
  | functional span sigil name args =>
    obtain rfl : args = some list := h
    exact sizeAll_map_selector list
  | _ => cases h

theorem countAll_cons (r : NodeRef) (rs : List NodeRef) :
    countAll (r :: rs) = r.count + countAll rs := by
  rw [countAll, List.map_cons, List.sum_cons]
  rfl

end NodeRef

/-- How a walk weighs the items that it visits. -/
def Specificity.weigh (argument : List Selector → Specificity) (v : Visit) (total : Specificity) :
    Specificity × Control :=
  match v.item with
  | .node (.compound _ _ _) => (total, .descend)
  | .node n => (total + n.weight argument, .skip 0)
  | _ => (total, .descend)

/-- The walk goes into items that hold others, and past the others, which it weighs. -/
theorem Specificity.weigh_eq (argument : List Selector → Specificity) (v : Visit)
    (total : Specificity) :
    v.item.Holds ∧ weigh argument v total = (total, .descend) ∨
      ∃ n, v.item = .node n ∧ n.kind ≠ .compound ∧
        weigh argument v total = (total + n.weight argument, .skip 0) := by
  obtain ⟨r, index, siblings, parents⟩ := v
  cases r with
  | selector s => exact .inl ⟨trivial, rfl⟩
  | part p => exact .inl ⟨trivial, rfl⟩
  | node n =>
    cases n with
    | compound span ns invalid => exact .inl ⟨rfl, rfl⟩
    | element span kind name ns => exact .inr ⟨_, rfl, by cases kind <;> nofun, rfl⟩
    | functional span sigil name args => exact .inr ⟨_, rfl, by cases sigil <;> nofun, rfl⟩
    | _ => exact .inr ⟨_, rfl, nofun, rfl⟩

section

variable {argument : List Selector → Specificity} {depth : Nat}

/-- Weighing the items of a list, and what is under them, adds what they count for. -/
theorem traverse_weigh
    (hargument : ∀ list, Selector.sizeAll list < depth → argument list = Selector.countMost list)
    (parents siblings rs : List NodeRef) (index : Nat) (total : Specificity)
    (hsize : NodeRef.sizeAll rs ≤ depth) :
    (traverse {} (Specificity.weigh argument) parents siblings index rs total).exit = .leave 0 ∧
      (traverse {} (Specificity.weigh argument) parents siblings index rs total).state =
        total + NodeRef.countAll rs := by
  fun_induction NodeRef.preorder rs generalizing parents siblings index total with
  | case1 => simp [traverse, NodeRef.countAll]
  | case2 r rs ihc ihr =>
    have hr := r.size_eq
    rw [NodeRef.sizeAll] at hsize
    have hlater := fun total => ihr parents siblings (index + 1) total (by omega)
    have hchildren := fun total =>
      ihc (parents ++ [r]) r.children.toList 0 total (by omega)
    rw [traverse, NodeRef.countAll_cons, ← add_assoc]
    rcases Specificity.weigh_eq argument ⟨r, index, siblings, parents⟩ total with
      ⟨hholds, hvisit⟩ | ⟨n, hn, hkind, hvisit⟩
    · rw [hholds.count_eq]
      simp [hvisit, Traversal.andThen, hchildren, hlater]
    · obtain rfl : r = .node n := hn
      have hcount : n.weight argument = n.count := by
        refine Node.weight_eq_count hkind fun list hlist => hargument list ?_
        have := NodeRef.sizeAll_of_arguments hlist
        rw [this] at hr
        omega
      simp [hvisit, Traversal.andThen, hlater, hcount, NodeRef.count]

end

/-- Unless arguments are nested too deep, all of them are counted. -/
theorem specificityWithin_eq {depth : Nat} {root : List NodeRef}
    (h : NodeRef.sizeAll root < depth) : specificityWithin depth root = NodeRef.countAll root := by
  induction depth generalizing root with
  | zero => omega
  | succ depth ih =>
    have hargument : ∀ list, Selector.sizeAll list < depth →
        (list.foldl (fun most s => most.max (specificityWithin depth [.selector s])) {}) =
          Selector.countMost list := by
      intro list hlist
      have hone : ∀ s ∈ list, specificityWithin depth [.selector s] = s.count := by
        intro s hs
        have := Selector.size_le_sizeAll hs
        rw [ih (by simp only [NodeRef.sizeAll, NodeRef.size]; omega)]
        simp [NodeRef.countAll, NodeRef.count]
      refine eq_of_forall_ge_iff fun c => ?_
      rw [Specificity.foldl_max_le_iff, Selector.countMost_le_iff]
      refine ⟨fun hc s hs => hone s hs ▸ hc.2 s hs, fun hc => ⟨Specificity.zero_le c, ?_⟩⟩
      exact fun s hs => (hone s hs).symm ▸ hc s hs
    rw [specificityWithin, walk_eq_state]
    have := (traverse_weigh hargument [] root root 0 0 (by omega)).2
    rw [zero_add] at this
    exact this

/-- **The specificity of items is what they count for together.** -/
theorem specificity_eq (root : List NodeRef) : specificity root = NodeRef.countAll root :=
  specificityWithin_eq (Nat.lt_succ_self _)

end Selectors
