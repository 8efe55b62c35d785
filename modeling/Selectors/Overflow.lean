/-!
# Overflow

Numbers are unbounded inside this library.  Where a sum is handed on as a word of 64 or 32 bits,
it is refused if it does not fit: offsets of tokens, the place that a cursor looks ahead to, and
the slots of a specificity.

A number that does not fit its word stops a program only if the program was built with checks
(`Build`).  The counter of open blocks is such a word.
-/

namespace Selectors

/-- A sum that does not fit its word. -/
inductive Overflow where
  | overflow
  deriving DecidableEq, Repr

/-- The text of the error. -/
def Overflow.message : Overflow → String
  | overflow => "attempt to add with overflow"

/-- How a program is built: what it does where a number does not fit its word. -/
inductive Build where
  /-- It fails.  It fails also where it would go on with an empty text, since the text that it looks
  for is not there. -/
  | strict
  /-- It fails. -/
  | checked
  /-- It goes on with the number that the word holds. -/
  | wrapping
  deriving DecidableEq, Repr

namespace Build

/-- A number in a signed word of 32 bits. -/
def int32 (m : Build) (n : Int) : Except Overflow Int :=
  if -2147483648 ≤ n ∧ n ≤ 2147483647 then .ok n
  else if m = .wrapping then .ok (n.bmod 4294967296)
  else .error .overflow

/-- Below this number, a counter in a signed word of 32 bits is zero only if it should be. -/
def reach (m : Build) : Int := if m = .wrapping then 4294967296 else 2147483648

variable {m : Build} {i n : Int}

theorem reach_pos (m : Build) : 1 < m.reach := by
  unfold reach
  split <;> decide

theorem int32_wrapping (i : Int) : wrapping.int32 i = .ok (i.bmod 4294967296) := by
  unfold int32
  split
  · rw [Int.bmod_eq_of_le (by omega) (by omega)]
  · rfl

theorem int32_of_ne (hm : m ≠ .wrapping) (i : Int) :
    m.int32 i = if -2147483648 ≤ i ∧ i ≤ 2147483647 then .ok i else .error .overflow := by
  rw [int32, if_neg hm]

/-- A counter that holds its number goes on as the number does. -/
theorem int32_add (h : m.int32 i = .ok n) (j : Int) : m.int32 (n + j) = m.int32 (i + j) := by
  by_cases hm : m = .wrapping
  · subst hm
    rw [int32_wrapping] at h
    rw [int32_wrapping, int32_wrapping, ← Except.ok.inj h, Int.bmod_add_bmod]
  · rw [int32_of_ne hm] at h
    split at h
    · rw [Except.ok.inj h]
    · cases h

theorem int32_eq_zero (h : m.int32 i = .ok n) (hpos : 0 ≤ i) (hreach : i < m.reach) :
    n = 0 ↔ i = 0 := by
  by_cases hm : m = .wrapping
  · subst hm
    rw [int32_wrapping] at h
    have hsize : wrapping.reach = 4294967296 := rfl
    rw [← Except.ok.inj h, ← Int.dvd_iff_bmod_eq_zero]
    omega
  · rw [int32_of_ne hm] at h
    split at h
    · rw [Except.ok.inj h]
    · cases h

theorem exists_int32 (hpos : 0 ≤ i) (hreach : i < m.reach) : ∃ n, m.int32 i = .ok n := by
  by_cases hm : m = .wrapping
  · subst hm
    exact ⟨_, int32_wrapping i⟩
  · rw [reach, if_neg hm] at hreach
    rw [int32_of_ne hm, if_pos (by omega)]
    exact ⟨i, rfl⟩

/-- A build with checks fails at the first number that it does not reach. -/
theorem int32_error (hm : m ≠ .wrapping) (hreach : m.reach ≤ i) : m.int32 i = .error .overflow := by
  rw [reach, if_neg hm] at hreach
  rw [int32_of_ne hm, if_neg (by omega)]

end Build

end Selectors
