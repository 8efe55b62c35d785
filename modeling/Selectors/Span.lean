/-!
# Spans

Positions are byte offsets into UTF-8 text, possibly shifted by a constant.  A span is a pair of
positions; trees read from JSON may hold spans whose end lies before their start, so the order of
the two is not part of the type.
-/

namespace Selectors

/-- A half-open range of byte offsets. -/
structure Span where
  /-- Offset of the first byte. -/
  start : Nat
  /-- Offset just after the last byte. -/
  stop : Nat
  deriving DecidableEq, Repr, Inhabited

namespace Span

/-- Number of bytes covered, `0` when the end lies before the start. -/
def length (s : Span) : Nat := s.stop - s.start

/-- The span moved `k` bytes to the right. -/
def shift (k : Nat) (s : Span) : Span := ⟨s.start + k, s.stop + k⟩

/-- The empty span at `p`. -/
def point (p : Nat) : Span := ⟨p, p⟩

@[simp] theorem shift_zero (s : Span) : s.shift 0 = s := rfl

@[simp] theorem shift_shift (s : Span) (j k : Nat) : (s.shift j).shift k = s.shift (j + k) := by
  simp [shift, Nat.add_assoc]

@[simp] theorem length_shift (s : Span) (k : Nat) : (s.shift k).length = s.length := by
  simp only [length, shift]; omega

end Span

end Selectors
