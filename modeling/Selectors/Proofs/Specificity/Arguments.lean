import Mathlib.Order.Monotone.Basic
import Selectors.Fragment
import Selectors.Proofs.Specificity.Count

/-!
# Other arguments for a node

The arguments of a node may be replaced by another list.  Whatever stands around the node, the
specificity of the tree depends on the list only by its most specific selector, and it does so
monotonically: `Selector.Tracks` and `Node.Tracks` say so of what is around the node, and each step
of the path to it keeps it (`Specificity.exists_monotone_sum_set`,
`Selector.exists_monotone_countMost_set`).

So no tree becomes less specific when each of the arguments finds its like or better among the new
ones, and neither the order nor the number of equal arguments matters (`specificity_setArguments`).
-/

namespace Selectors

/-! ### Replacing arguments -/

mutual

/-- Replaces the arguments of the node at a path from a selector. -/
def Selector.setArguments? (list : List Selector) : List Nat → Selector → Option Selector
  | [], _ => none
  | i :: path, s => do
    let n ← Node.setArguments? list path (← s.nodes[i]?)
    some { s with nodes := s.nodes.set i n }

/-- Replaces the arguments of the node at a path from a node; a node without an argument list does
not get one. -/
def Node.setArguments? (list : List Selector) : List Nat → Node → Option Node
  | [], .functional span sigil name (some _) => some (.functional span sigil name (some list))
  | i :: path, .functional span sigil name (some args) => do
    let s ← Selector.setArguments? list path (← args[i]?)
    some (.functional span sigil name (some (args.set i s)))
  | i :: path, .compound span nodes invalid => do
    let n ← Node.setArguments? list path (← nodes[i]?)
    some (.compound span (nodes.set i n) invalid)
  | _, _ => none

end

namespace Fragment

/-- Replaces the arguments of the node at a path. -/
def setArguments? (list : List Selector) (path : List Nat) : Fragment → Option Fragment
  | .list selectors =>
    match path with
    | [] => none
    | i :: path => do
      let s ← Selector.setArguments? list path (← selectors[i]?)
      some (.list (selectors.set i s))
  | selector s => (s.setArguments? list path).map selector
  | node n => (n.setArguments? list path).map node
  | part _ => none

/-- The items that a fragment is made of. -/
def items : Fragment → List NodeRef
  | list selectors => selectors.map .selector
  | selector s => [.selector s]
  | node n => [.node n]
  | part p => [.part p]

end Fragment

/-! ### Lists with one place changed -/

namespace Specificity

/-- A sum grows with each of its terms. -/
theorem exists_monotone_sum_set {α : Type} (g : α → Specificity) (l : List α) (i : Nat) :
    ∃ f : Specificity → Specificity, Monotone f ∧ ∀ a, ((l.set i a).map g).sum = f (g a) := by
  induction l generalizing i with
  | nil => exact ⟨fun _ => 0, monotone_const, fun a => rfl⟩
  | cons b l ih =>
    cases i with
    | zero =>
      refine ⟨fun x => x + (l.map g).sum, fun x y hxy => add_le_add_left hxy _, fun a => ?_⟩
      rw [List.set_cons_zero, List.map_cons, List.sum_cons]
    | succ i =>
      obtain ⟨f, hf, hset⟩ := ih i
      refine ⟨fun x => g b + f x, fun x y hxy => add_le_add_right (hf hxy) _, fun a => ?_⟩
      rw [List.set_cons_succ, List.map_cons, List.sum_cons, hset]

theorem max_mono {a a' b b' : Specificity} (ha : a ≤ a') (hb : b ≤ b') : a.max b ≤ a'.max b' := by
  obtain ⟨ha', hb'⟩ := max_le_iff.1 (le_refl (a'.max b'))
  exact max_le_iff.2 ⟨ha.trans ha', hb.trans hb'⟩

end Specificity

/-- The most specific argument grows with each of them. -/
theorem Selector.exists_monotone_countMost_set (list : List Selector) (i : Nat) :
    ∃ f : Specificity → Specificity, Monotone f ∧ ∀ s, countMost (list.set i s) = f s.count := by
  induction list generalizing i with
  | nil => exact ⟨fun _ => 0, monotone_const, fun s => rfl⟩
  | cons t list ih =>
    cases i with
    | zero =>
      exact ⟨fun x => x.max (countMost list), fun x y hxy => Specificity.max_mono hxy le_rfl,
        fun s => rfl⟩
    | succ i =>
      obtain ⟨f, hf, hset⟩ := ih i
      refine ⟨fun x => t.count.max (f x), fun x y hxy => Specificity.max_mono le_rfl (hf hxy),
        fun s => ?_⟩
      rw [List.set_cons_succ, countMost, hset]

/-- What a node counts for grows with its most specific argument. -/
theorem Sigil.count_mono (sigil : Sigil) (name : String) :
    Monotone fun most => sigil.count most name := by
  intro x y hxy
  cases sigil with
  | colon comments =>
    simp only [count]
    cases Specificity.pseudoWeight name with
    | nothing => exact le_rfl
    | argument => exact hxy
    | oneClassAndArgument => exact add_le_add_right hxy _
    | oneClass => exact le_rfl
  | _ => exact le_rfl

/-! ### Paths -/

section

variable (span : Span) (sigil : Sigil) (name : String) (list : List Selector)

/-- The node at a path from an item has the given arguments. -/
def NodeRef.HasArguments (path : List Nat) (r : NodeRef) : Prop :=
  r.descend? path = some (.node (.functional span sigil name (some list)))

/-- Arguments at a path from a selector may be replaced by any others, and what the selector counts
for grows with the most specific of them. -/
def Selector.Tracks (path : List Nat) (s : Selector) : Prop :=
  ∃ f : Specificity → Specificity, Monotone f ∧ s.count = f (countMost list) ∧
    ∀ list', ∃ s', s.setArguments? list' path = some s' ∧
      (NodeRef.selector s').HasArguments span sigil name list' path ∧ s'.count = f (countMost list')

/-- Arguments at a path from a node may be replaced by any others, and what the node counts for
grows with the most specific of them. -/
def Node.Tracks (path : List Nat) (n : Node) : Prop :=
  ∃ f : Specificity → Specificity, Monotone f ∧ n.count = f (Selector.countMost list) ∧
    ∀ list', ∃ n', n.setArguments? list' path = some n' ∧
      (NodeRef.node n').HasArguments span sigil name list' path ∧
      n'.count = f (Selector.countMost list')

end

section

variable {span : Span} {sigil : Sigil} {name : String} {list : List Selector} {i : Nat}
  {path : List Nat}

theorem NodeRef.hasArguments_cons {r : NodeRef} :
    r.HasArguments span sigil name list (i :: path) ↔
      ∃ c, r.children.toList[i]? = some c ∧ c.HasArguments span sigil name list path :=
  Option.bind_eq_some_iff

theorem getElem?_map_eq_some {α β : Type} {l : List α} {g : α → β} {b : β} :
    (l.map g)[i]? = some b ↔ ∃ a, l[i]? = some a ∧ g a = b := by
  rw [List.getElem?_map, Option.map_eq_some_iff]

theorem getElem?_map_set {α β : Type} {l : List α} {a : α} (g : α → β) (b : α)
    (h : l[i]? = some a) : ((l.set i b).map g)[i]? = some (g b) :=
  getElem?_map_eq_some.2
    ⟨b, List.getElem?_set_self (List.getElem?_eq_some_iff.1 h).1, rfl⟩

theorem set_of_getElem? {α : Type} {l : List α} {a : α} (h : l[i]? = some a) : l.set i a = l := by
  obtain ⟨hi, rfl⟩ := List.getElem?_eq_some_iff.1 h
  exact List.set_getElem_self hi

theorem Node.tracks_here :
    (Node.functional span sigil name (some list)).Tracks span sigil name list [] :=
  ⟨_, sigil.count_mono name, rfl, fun _ => ⟨_, rfl, rfl, rfl⟩⟩

/-- What nodes count for together grows with the arguments at a path from one of them. -/
theorem Node.Tracks.countAll {nodes : List Node} {n : Node} (hn : nodes[i]? = some n)
    (h : n.Tracks span sigil name list path) :
    ∃ f : Specificity → Specificity, Monotone f ∧
      Node.countAll nodes = f (Selector.countMost list) ∧
      ∀ list', ∃ n', n.setArguments? list' path = some n' ∧
        (NodeRef.node n').HasArguments span sigil name list' path ∧
        Node.countAll (nodes.set i n') = f (Selector.countMost list') := by
  obtain ⟨f, hf, hcount, hset⟩ := h
  obtain ⟨g, hg, hsum⟩ := Specificity.exists_monotone_sum_set Node.count nodes i
  have hall : ∀ m, Node.countAll (nodes.set i m) = g m.count := fun m => by
    rw [Node.countAll_eq_sum, hsum]
  refine ⟨g ∘ f, hg.comp hf, ?_, fun list' => ?_⟩
  · rw [Function.comp_apply, ← hcount, ← hall, set_of_getElem? hn]
  · obtain ⟨n', hn', hargs, hcount'⟩ := hset list'
    exact ⟨n', hn', hargs, by rw [hall, hcount', Function.comp_apply]⟩

theorem Selector.tracks_of_node {s : Selector} {n : Node} (hn : s.nodes[i]? = some n)
    (h : n.Tracks span sigil name list path) : s.Tracks span sigil name list (i :: path) := by
  obtain ⟨f, hf, hcount, hset⟩ := h.countAll hn
  obtain ⟨span', before, after, nodes⟩ := s
  refine ⟨f, hf, hcount, fun list' => ?_⟩
  obtain ⟨n', hn', hargs, hcount'⟩ := hset list'
  refine ⟨⟨span', before, after, nodes.set i n'⟩, ?_, ?_, hcount'⟩
  · simp [setArguments?, hn, hn']
  · exact NodeRef.hasArguments_cons.2 ⟨_, getElem?_map_set NodeRef.node n' hn, hargs⟩

theorem Node.tracks_of_member {span' : Span} {nodes : List Node} {invalid : Bool} {n : Node}
    (hn : nodes[i]? = some n) (h : n.Tracks span sigil name list path) :
    (Node.compound span' nodes invalid).Tracks span sigil name list (i :: path) := by
  obtain ⟨f, hf, hcount, hset⟩ := h.countAll hn
  refine ⟨f, hf, hcount, fun list' => ?_⟩
  obtain ⟨n', hn', hargs, hcount'⟩ := hset list'
  refine ⟨.compound span' (nodes.set i n') invalid, ?_, ?_, hcount'⟩
  · simp [setArguments?, hn, hn']
  · exact NodeRef.hasArguments_cons.2 ⟨_, getElem?_map_set NodeRef.node n' hn, hargs⟩

theorem Node.tracks_of_argument {span' : Span} {sigil' : Sigil} {name' : String}
    {args : List Selector} {s : Selector} (hs : args[i]? = some s)
    (h : s.Tracks span sigil name list path) :
    (Node.functional span' sigil' name' (some args)).Tracks span sigil name list (i :: path) := by
  obtain ⟨f, hf, hcount, hset⟩ := h
  obtain ⟨g, hg, hmost⟩ := Selector.exists_monotone_countMost_set args i
  refine ⟨_, (sigil'.count_mono name').comp (hg.comp hf), ?_, fun list' => ?_⟩
  · simp only [count, Selector.countArguments, Function.comp_apply, ← hcount, ← hmost,
      set_of_getElem? hs]
  · obtain ⟨s', hs', hargs, hcount'⟩ := hset list'
    refine ⟨.functional span' sigil' name' (some (args.set i s')), ?_, ?_, ?_⟩
    · simp [setArguments?, hs, hs']
    · exact NodeRef.hasArguments_cons.2 ⟨_, getElem?_map_set NodeRef.selector s' hs, hargs⟩
    · simp only [count, Selector.countArguments, Function.comp_apply, ← hcount', ← hmost]

mutual

theorem Selector.tracks_of_hasArguments : ∀ (path : List Nat) (s : Selector),
    (NodeRef.selector s).HasArguments span sigil name list path → s.Tracks span sigil name list path
  | [], s, h => by cases h
  | i :: path, s, h => by
    obtain ⟨c, hc, hpath⟩ := NodeRef.hasArguments_cons.1 h
    obtain ⟨n, hn, rfl⟩ := getElem?_map_eq_some.1 hc
    exact Selector.tracks_of_node hn (Node.tracks_of_hasArguments path n hpath)

theorem Node.tracks_of_hasArguments : ∀ (path : List Nat) (n : Node),
    (NodeRef.node n).HasArguments span sigil name list path → n.Tracks span sigil name list path
  | [], n, h => by
    obtain rfl : n = _ := NodeRef.node.inj (Option.some.inj h)
    exact Node.tracks_here
  | i :: path, n, h => by
    obtain ⟨c, hc, hpath⟩ := NodeRef.hasArguments_cons.1 h
    cases n with
    | functional span' sigil' name' args => 
      cases args with
      | none => cases hc
      | some args =>
        obtain ⟨s, hs, rfl⟩ := getElem?_map_eq_some.1 hc
        exact Node.tracks_of_argument hs (Selector.tracks_of_hasArguments path s hpath)
    | compound span' nodes invalid =>
      obtain ⟨m, hm, rfl⟩ := getElem?_map_eq_some.1 hc
      exact Node.tracks_of_member hm (Node.tracks_of_hasArguments path m hpath)
    | nth nth =>
      obtain ⟨m, hm, rfl⟩ := getElem?_map_eq_some.1 hc
      cases path <;> cases hpath
    | _ => cases hc

end

/-- What a fragment counts for grows with the arguments at a path from its root. -/
theorem Fragment.exists_setArguments {t : Fragment}
    (h : t.item? path = some (.node (.functional span sigil name (some list)))) :
    ∃ f : Specificity → Specificity, Monotone f ∧
      NodeRef.countAll t.items = f (Selector.countMost list) ∧
      ∀ list', ∃ t', t.setArguments? list' path = some t' ∧
        t'.item? path = some (.node (.functional span sigil name (some list'))) ∧
        NodeRef.countAll t'.items = f (Selector.countMost list') := by
  have hone : ∀ r : NodeRef, NodeRef.countAll [r] = r.count := fun r => add_zero _
  cases t with
  | list selectors =>
    cases path with
    | nil => cases h
    | cons i path =>
      obtain ⟨s, hs, hargs⟩ := Option.bind_eq_some_iff.1 h
      obtain ⟨f, hf, hcount, hset⟩ := Selector.tracks_of_hasArguments path s hargs
      obtain ⟨g, hg, hsum⟩ := Specificity.exists_monotone_sum_set Selector.count selectors i
      have hall : ∀ s', NodeRef.countAll ((selectors.set i s').map .selector) = g s'.count :=
        fun s' => by rw [NodeRef.countAll, List.map_map, ← hsum]; rfl
      refine ⟨g ∘ f, hg.comp hf, ?_, fun list' => ?_⟩
      · rw [Function.comp_apply, ← hcount, ← hall, set_of_getElem? hs, items]
      · obtain ⟨s', hs', hargs', hcount'⟩ := hset list'
        refine ⟨.list (selectors.set i s'), by simp [setArguments?, hs, hs'], ?_, ?_⟩
        · exact Option.bind_eq_some_iff.2
            ⟨s', List.getElem?_set_self (List.getElem?_eq_some_iff.1 hs).1, hargs'⟩
        · rw [items, hall, hcount', Function.comp_apply]
  | selector s =>
    obtain ⟨f, hf, hcount, hset⟩ := Selector.tracks_of_hasArguments path s h
    refine ⟨f, hf, (hone _).trans hcount, fun list' => ?_⟩
    obtain ⟨s', hs', hargs, hcount'⟩ := hset list'
    exact ⟨.selector s', by simp [setArguments?, hs'], hargs, (hone _).trans hcount'⟩
  | node n =>
    obtain ⟨f, hf, hcount, hset⟩ := Node.tracks_of_hasArguments path n h
    refine ⟨f, hf, (hone _).trans hcount, fun list' => ?_⟩
    obtain ⟨n', hn', hargs, hcount'⟩ := hset list'
    exact ⟨.node n', by simp [setArguments?, hn'], hargs, (hone _).trans hcount'⟩
  | part p => cases path <;> cases h

end

theorem Selector.specificity_eq (s : Selector) : specificity [.selector s] = s.count := by
  rw [Selectors.specificity_eq]
  exact add_zero _

/-- Arguments that each find their like or better among others count for no more than those. -/
theorem Selector.countMost_mono {list list' : List Selector}
    (h : ∀ s ∈ list, ∃ s' ∈ list', s.count ≤ s'.count) : countMost list ≤ countMost list' := by
  refine countMost_le_iff.2 fun s hs => ?_
  obtain ⟨s', hs', hle⟩ := h s hs
  exact hle.trans (count_le_countMost hs')

/-- **The specificity of a tree grows with the arguments of any node in it**, and neither their
order nor the number of equal ones matters. -/
theorem specificity_setArguments {t : Fragment} {path : List Nat} {span : Span} {sigil : Sigil}
    {name : String} {list : List Selector}
    (h : t.item? path = some (.node (.functional span sigil name (some list))))
    (list' : List Selector) :
    ∃ t', t.setArguments? list' path = some t' ∧
      t'.item? path = some (.node (.functional span sigil name (some list'))) ∧
      ((∀ s ∈ list, ∃ s' ∈ list', specificity [.selector s] ≤ specificity [.selector s']) →
        specificity t.items ≤ specificity t'.items) ∧
      ((∀ s, s ∈ list' ↔ s ∈ list) → specificity t'.items = specificity t.items) := by
  obtain ⟨f, hf, hcount, hset⟩ := Fragment.exists_setArguments h
  obtain ⟨t', ht', hitem, hcount'⟩ := hset list'
  refine ⟨t', ht', hitem, fun hbetter => ?_, fun hsame => ?_⟩
  · simp only [Selector.specificity_eq] at hbetter
    rw [specificity_eq, specificity_eq, hcount, hcount']
    exact hf (Selector.countMost_mono hbetter)
  · have hmost : Selector.countMost list' = Selector.countMost list := by
      refine le_antisymm ?_ ?_
      · exact Selector.countMost_mono fun s hs => ⟨s, (hsame s).1 hs, le_rfl⟩
      · exact Selector.countMost_mono fun s hs => ⟨s, (hsame s).2 hs, le_rfl⟩
    rw [specificity_eq, specificity_eq, hcount, hcount', hmost]

/-- In `a:not(b:is(.c, d))`, other arguments for `:is`. -/
theorem specificity_setArguments_nested :
    let c : Selector := ⟨⟨11, 13⟩, "", "", [.functional ⟨11, 13⟩ (.dot []) "c" none]⟩
    let d : Selector := ⟨⟨14, 16⟩, " ", "", [.element ⟨15, 16⟩ .type "d" none]⟩
    let id : Selector := ⟨⟨11, 14⟩, "", "", [.functional ⟨11, 14⟩ .hash "id" none]⟩
    let outer (list : List Selector) : Fragment :=
      .list [⟨⟨0, 18⟩, "", "", [.element ⟨0, 1⟩ .type "a" none,
        .functional ⟨1, 18⟩ (.colon []) "not" (some [⟨⟨6, 17⟩, "", "", [
          .element ⟨6, 7⟩ .type "b" none,
          .functional ⟨7, 17⟩ (.colon []) "is" (some list)]⟩])]⟩]
    (outer [c, d]).item? [0, 1, 0, 1] =
        some (.node (.functional ⟨7, 17⟩ (.colon []) "is" (some [c, d]))) ∧
      (outer [c, d]).setArguments? [id] [0, 1, 0, 1] = some (outer [id]) ∧
      specificity (outer [c, d]).items ≤ specificity (outer [id]).items ∧
      (outer [c, d]).setArguments? [d, c, d] [0, 1, 0, 1] = some (outer [d, c, d]) ∧
      specificity (outer [d, c, d]).items = specificity (outer [c, d]).items := by
  intro c d id outer
  have hitem : (outer [c, d]).item? [0, 1, 0, 1] =
      some (.node (.functional ⟨7, 17⟩ (.colon []) "is" (some [c, d]))) := rfl
  obtain ⟨t, ht, -, hle, -⟩ := specificity_setArguments hitem [id]
  obtain rfl : outer [id] = t := Option.some.inj ht
  obtain ⟨u, hu, -, -, heq⟩ := specificity_setArguments hitem [d, c, d]
  obtain rfl : outer [d, c, d] = u := Option.some.inj hu
  have hc : c.count ≤ id.count := by decide
  have hd : d.count ≤ id.count := by decide
  refine ⟨hitem, ht, hle fun s hs => ⟨id, List.mem_singleton_self id, ?_⟩, hu, heq fun s => ?_⟩
  · rw [Selector.specificity_eq, Selector.specificity_eq]
    rcases List.mem_cons.1 hs with rfl | hs
    · exact hc
    · exact List.mem_singleton.1 hs ▸ hd
  · grind

end Selectors
