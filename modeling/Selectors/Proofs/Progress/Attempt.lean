import Selectors.Proofs.Checked.Arithmetic

/-!
# Attempts

A program that checks its arithmetic and loops without a bound may give a result, stop at a fault, or
never end.  `Attempt.Ends` says that it does end, which faults may stop it, and what is known of its
result.
-/

namespace Selectors

/-- What a program comes to: a result or a fault, if it ends. -/
abbrev Attempt := ExceptT Fault Option

namespace Attempt

variable {α β : Type} {F : Fault → Prop} {p : α → Prop} {q : β → Prop} {x : Attempt α}

/-- A step that ends. -/
def of (x : Except Fault α) : Attempt α := ExceptT.mk (some x)

/-- The attempt ends: with a result that has the property `p`, or with a fault that has `F`. -/
def Ends (F : Fault → Prop) (x : Attempt α) (p : α → Prop) : Prop :=
  (∃ a, x = pure a ∧ p a) ∨ ∃ e, x = throw e ∧ F e

theorem Ends.pure {a : α} (h : p a) : Ends F (pure a) p := .inl ⟨a, rfl, h⟩

theorem Ends.throw {e : Fault} (h : F e) : Ends F (throw e) p := .inr ⟨e, rfl, h⟩

theorem Ends.bind {f : α → Attempt β} (h : Ends F x p) (hf : ∀ a, p a → Ends F (f a) q) :
    Ends F (x >>= f) q := by
  rcases h with ⟨a, rfl, ha⟩ | ⟨e, rfl, he⟩
  · rw [pure_bind]
    exact hf a ha
  · exact .throw he

theorem Ends.mono {p' : α → Prop} (h : Ends F x p) (hp : ∀ a, p a → p' a) : Ends F x p' := by
  rcases h with ⟨a, rfl, ha⟩ | ⟨e, rfl, he⟩
  · exact .pure (hp a ha)
  · exact .throw he

/-- A step that fails only as it may. -/
theorem Ends.of {y : Except Fault α} (hok : ∀ a, y = .ok a → p a)
    (herror : ∀ e, y = .error e → F e) : Ends F (of y) p := by
  cases y with
  | ok a => exact .pure (hok a rfl)
  | error e => exact .throw (herror e rfl)

end Attempt

end Selectors
