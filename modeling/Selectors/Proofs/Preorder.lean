import Selectors.Diagnostic
import Selectors.Proofs.Items
import Selectors.Proofs.Traversal

/-!
# Pre-order

A walk that always descends meets the items of a tree in pre-order, each with all that is below
it before the next one (`walk_descend`).  So the diagnostics of a tree are those of its items in
pre-order, up to sorting (`diagnostics_eq`), and there are none just when no item has one.
-/

namespace Selectors

namespace NodeRef

/-- The items and all below them, each before those below it. -/
def preorder : List NodeRef → List NodeRef
  | [] => []
  | r :: rs => r :: (preorder r.children.toList ++ preorder rs)
termination_by rs => sizeAll rs
decreasing_by
  all_goals
    have := size_eq r
    simp only [sizeAll]
    omega

theorem preorder_append (rs ts : List NodeRef) :
    preorder (rs ++ ts) = preorder rs ++ preorder ts := by
  induction rs with
  | nil => rw [preorder, List.nil_append, List.nil_append]
  | cons r rs ih =>
    rw [List.cons_append, preorder, preorder, ih, List.cons_append, List.append_assoc]

/-- **Pre-order has the items anywhere below.** -/
theorem mem_preorder {x : NodeRef} {rs : List NodeRef} :
    x ∈ preorder rs ↔ ∃ r ∈ rs, Within x r := by
  fun_induction preorder rs with
  | case1 => simp
  | case2 r rs ihc ihr =>
    rw [List.mem_cons, List.mem_append, ihc, ihr]
    constructor
    · rintro (rfl | ⟨c, hc, hx⟩ | ⟨t, ht, hx⟩)
      · exact ⟨x, List.mem_cons_self .., .self⟩
      · exact ⟨r, List.mem_cons_self .., .child hc hx⟩
      · exact ⟨t, List.mem_cons_of_mem r ht, hx⟩
    · rintro ⟨t, ht, hx⟩
      rcases List.mem_cons.1 ht with rfl | ht
      · cases hx with
        | self => exact .inl rfl
        | child hc hx => exact .inr (.inl ⟨_, hc, hx⟩)
      · exact .inr (.inr ⟨t, ht, hx⟩)

end NodeRef

open NodeRef

/-! ### Walks that always descend -/

section

variable {σ : Type} {visit : Visit → σ → σ × Control} {act : σ → NodeRef → σ}

/-- Such a walk neither stops nor gives up a list. -/
theorem traverse_descend (hvisit : ∀ v s, visit v s = (act s v.item, .descend))
    (parents siblings rs : List NodeRef) (index : Nat) (s : σ) :
    (traverse {} visit parents siblings index rs s).exit = .leave 0 ∧
      (traverse {} visit parents siblings index rs s).state = (preorder rs).foldl act s := by
  fun_induction preorder rs generalizing parents siblings index s with
  | case1 => simp [traverse]
  | case2 r rs ihc ihr =>
    obtain ⟨hcexit, hcstate⟩ := ihc (parents ++ [r]) r.children.toList 0 (act s r)
    obtain ⟨hrexit, hrstate⟩ :=
      ihr parents siblings (index + 1) ((preorder r.children.toList).foldl act (act s r))
    rw [traverse]
    simp [hvisit, Traversal.andThen, hcexit, hcstate, hrexit, hrstate]

/-- **A walk that always descends acts on the items in pre-order.** -/
theorem walk_descend (act : σ → NodeRef → σ) (hvisit : ∀ v s, visit v s = (act s v.item, .descend))
    (root : List NodeRef) (s : σ) : walk {} visit root s = (preorder root).foldl act s := by
  rw [walk_eq_state]
  exact (traverse_descend hvisit [] root root 0 s).2

end

/-! ### Diagnostics -/

theorem foldl_append_toList {α : Type} (f : NodeRef → Option α) (rs : List NodeRef)
    (found : List α) :
    rs.foldl (fun found r => found ++ (f r).toList) found = found ++ rs.filterMap f := by
  induction rs generalizing found with
  | nil => simp
  | cons r rs ih =>
    rw [List.foldl_cons, ih]
    cases h : f r <;> simp [h]

/-- **The diagnostics of a tree are those of its items in pre-order**, sorted. -/
theorem diagnostics_eq (root : List NodeRef) :
    diagnostics root =
      ((preorder root).filterMap diagnostic?).mergeSort fun a b => a.span.start ≤ b.span.start := by
  rw [diagnostics, walk_descend (fun found r => found ++ r.diagnostic?.toList) fun _ _ => rfl,
    foldl_append_toList, List.nil_append]

theorem diagnostics_eq_nil {root : List NodeRef} :
    diagnostics root = [] ↔ ∀ r ∈ preorder root, r.diagnostic? = none := by
  rw [diagnostics_eq, ← List.length_eq_zero_iff, List.length_mergeSort, List.length_eq_zero_iff,
    List.filterMap_eq_nil_iff]

end Selectors
