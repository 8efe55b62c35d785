import Mathlib.Data.List.Basic

/-!
# Stable sorting

A list is sorted by a key if keys never go down, and stably so if elements with the same key keep
their order.  There is one such list only (`StableSort.eq`), so that sorting may be exchanged with
whatever keeps both, as leaving elements out does (`StableSort.filter`).
-/

namespace Selectors

variable {α : Type} {key : α → Nat} {as bs cs : List α}

/-- The second list has the elements of the first in the order of their keys, and elements with the
same key in the order of the first list. -/
structure StableSort (key : α → Nat) (as bs : List α) : Prop where
  perm : bs.Perm as
  sorted : bs.Pairwise fun a b => key a ≤ key b
  stable : ∀ k, bs.filter (fun b => key b = k) = as.filter fun a => key a = k

theorem stableSort_mergeSort (key : α → Nat) (as : List α) :
    StableSort key as (as.mergeSort fun a b => key a ≤ key b) := by
  have hperm := as.mergeSort_perm fun a b => key a ≤ key b
  have htrans : ∀ a b c : α, decide (key a ≤ key b) → decide (key b ≤ key c) →
      decide (key a ≤ key c) := by
    simp only [decide_eq_true_eq]
    exact fun a b c hab hbc => Nat.le_trans hab hbc
  have htotal : ∀ a b : α, (decide (key a ≤ key b) || decide (key b ≤ key a)) = true := by
    simpa using fun a b => Nat.le_total (key a) (key b)
  refine ⟨hperm, by simpa using as.pairwise_mergeSort htrans htotal, fun k => ?_⟩
  -- elements with one key are sorted as they stand, and so all of them stay in order
  have hkeys : (as.filter fun a => key a = k).Pairwise fun a b => decide (key a ≤ key b) := by
    refine List.pairwise_of_forall_mem_list fun a ha b hb => ?_
    have hak : key a = k := by simpa using (List.mem_filter.1 ha).2
    have hbk : key b = k := by simpa using (List.mem_filter.1 hb).2
    simp [hak, hbk]
  have hsub := (List.sublist_mergeSort htrans htotal hkeys List.filter_sublist).filter
    fun a => key a = k
  rw [List.filter_filter] at hsub
  simp only [Bool.and_self] at hsub
  exact (hsub.eq_of_length (hperm.filter _).length_eq.symm).symm

/-- Sorted lists with the same elements for every key are the same. -/
theorem eq_of_filter_eq (hb : bs.Pairwise fun a b => key a ≤ key b)
    (hc : cs.Pairwise fun a b => key a ≤ key b)
    (h : ∀ k, bs.filter (fun b => key b = k) = cs.filter fun c => key c = k) : bs = cs := by
  induction bs generalizing cs with
  | nil =>
    cases cs with
    | nil => rfl
    | cons c cs => simpa using h (key c)
  | cons b bs ih =>
    cases cs with
    | nil => simpa using h (key b)
    | cons c cs =>
      obtain ⟨hbfirst, hbs⟩ := List.pairwise_cons.1 hb
      obtain ⟨hcfirst, hcs⟩ := List.pairwise_cons.1 hc
      -- each head is an element of the other list, where no key is smaller than the first
      have hbc : key b ≤ key c := by
        have hmem : c ∈ (b :: bs).filter fun a => key a = key c := by simp [h]
        rcases List.mem_cons.1 (List.mem_filter.1 hmem).1 with rfl | hmem
        · exact Nat.le_refl _
        · exact hbfirst c hmem
      have hcb : key c ≤ key b := by
        have hmem : b ∈ (c :: cs).filter fun a => key a = key b := by simp [← h]
        rcases List.mem_cons.1 (List.mem_filter.1 hmem).1 with rfl | hmem
        · exact Nat.le_refl _
        · exact hcfirst b hmem
      have hkey : key b = key c := Nat.le_antisymm hbc hcb
      have hheads := h (key c)
      rw [List.filter_cons_of_pos (by simpa using hkey), List.filter_cons_of_pos (by simp),
        List.cons.injEq] at hheads
      obtain ⟨rfl, htails⟩ := hheads
      refine congrArg (b :: ·) (ih hbs hcs fun k => ?_)
      by_cases hk : key b = k
      · subst hk
        exact htails
      · have hrest := h k
        rwa [List.filter_cons_of_neg (by simpa using hk),
          List.filter_cons_of_neg (by simpa using hk)] at hrest

namespace StableSort

/-- There is one way to sort stably. -/
theorem eq (hb : StableSort key as bs) (hc : StableSort key as cs) : bs = cs :=
  eq_of_filter_eq hb.sorted hc.sorted fun k => (hb.stable k).trans (hc.stable k).symm

/-- Elements may be left out before or after sorting. -/
theorem filter (h : StableSort key as bs) (p : α → Bool) :
    StableSort key (as.filter p) (bs.filter p) := by
  refine ⟨h.perm.filter p, h.sorted.filter p, fun k => ?_⟩
  rw [List.filter_comm, h.stable, List.filter_comm]

end StableSort

end Selectors
