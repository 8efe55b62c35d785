import Mathlib.Algebra.Order.Monoid.Defs
import Mathlib.Order.Basic
import Selectors.Specificity

/-!
# Sums and order of specificities

Specificities are added slot by slot and compared from the most significant slot down.  The two go
together: adding keeps the order (`IsOrderedAddMonoid`).  The greater of two specificities is their
least upper bound, so the greatest of a list is the least specificity above all of it
(`foldl_max_le_iff`).
-/

namespace Selectors

namespace Specificity

@[ext] theorem ext {a b : Specificity} (hinline : a.inline = b.inline) (hids : a.ids = b.ids)
    (hclasses : a.classes = b.classes) (htypes : a.types = b.types) : a = b := by
  cases a
  cases b
  simp_all

/-! ### Sums -/

instance : Zero Specificity := ⟨{}⟩

section

variable (a b : Specificity)

@[simp] theorem inline_zero : (0 : Specificity).inline = 0 := rfl
@[simp] theorem ids_zero : (0 : Specificity).ids = 0 := rfl
@[simp] theorem classes_zero : (0 : Specificity).classes = 0 := rfl
@[simp] theorem types_zero : (0 : Specificity).types = 0 := rfl
@[simp] theorem inline_add : (a + b).inline = a.inline + b.inline := rfl
@[simp] theorem ids_add : (a + b).ids = a.ids + b.ids := rfl
@[simp] theorem classes_add : (a + b).classes = a.classes + b.classes := rfl
@[simp] theorem types_add : (a + b).types = a.types + b.types := rfl

end

instance : AddCommMonoid Specificity where
  add_assoc a b c := by ext <;> simp [Nat.add_assoc]
  zero_add a := by ext <;> simp
  add_zero a := by ext <;> simp
  add_comm a b := by ext <;> simp [Nat.add_comm]
  nsmul := nsmulRec

/-! ### Order -/

instance : LE Specificity := ⟨fun a b => a.compare b ≠ .gt⟩

instance : DecidableLE Specificity := fun a b => inferInstanceAs (Decidable (a.compare b ≠ .gt))

theorem le_def {a b : Specificity} : a ≤ b ↔ a.compare b ≠ .gt := Iff.rfl

/-- The first slot in which two specificities differ decides. -/
theorem le_iff {a b : Specificity} :
    a ≤ b ↔ a.inline < b.inline ∨ a.inline = b.inline ∧ (a.ids < b.ids ∨ a.ids = b.ids ∧
      (a.classes < b.classes ∨ a.classes = b.classes ∧ a.types ≤ b.types)) := by
  simp only [le_def, compare, Nat.compare_eq_ite_lt]
  split_ifs <;> simp [Ordering.then] <;> omega

instance : PartialOrder Specificity where
  le_refl a := by simp [le_iff]
  le_trans a b c hab hbc := by
    rw [le_iff] at *
    omega
  le_antisymm a b hab hba := by
    rw [le_iff] at *
    ext <;> omega

instance : IsOrderedAddMonoid Specificity where
  add_le_add_left a b h c := by
    rw [le_iff] at *
    simp only [inline_add, ids_add, classes_add, types_add]
    omega

theorem zero_le (a : Specificity) : 0 ≤ a := by
  rw [le_iff]
  simp
  omega

/-! ### Greatest ones -/

theorem max_le_iff {a b c : Specificity} : a.max b ≤ c ↔ a ≤ c ∧ b ≤ c := by
  rw [max]
  split
  · rename_i h
    have hab : a ≤ b := by
      have hnot : ¬b ≤ a := fun hle => hle h
      rw [le_iff] at *
      omega
    exact ⟨fun hb => ⟨hab.trans hb, hb⟩, And.right⟩
  · rename_i h
    exact ⟨fun ha => ⟨ha, le_trans h ha⟩, And.left⟩

/-- Taking the greater one over and over gives an upper bound, and the least one. -/
theorem foldl_max_le_iff {α : Type} {f : α → Specificity} {l : List α} {a c : Specificity} :
    l.foldl (fun most x => most.max (f x)) a ≤ c ↔ a ≤ c ∧ ∀ x ∈ l, f x ≤ c := by
  induction l generalizing a with
  | nil => simp
  | cons x l ih => rw [List.foldl_cons, ih, max_le_iff, List.forall_mem_cons, and_assoc]

end Specificity

end Selectors
