import Selectors.Proofs.Blocks
import Selectors.Proofs.Progress.Reader

/-!
# Places in front of what is left

A cursor that is left in front of a suffix of its tokens is known by the suffix
(`TokenCursor.before`).  A move of a reader splits the tokens that are left, and the cursor is
behind those that were taken.  A block may end at any place that is not before its start: where it
is closed, where it is cut, or at the first end token (`leaves_readBlock`).
-/

namespace Selectors

namespace TokenCursor

variable {c : TokenCursor} {t : Token} {ts rest : List Token} {k : TokenKind}

/-! ### Suffixes -/

/-- The number of tokens before a suffix, behind its first token. -/
theorem succ_length_sub {us : List Token} (h : t :: ts <:+ us) :
    us.length - (t :: ts).length + 1 = us.length - ts.length := by
  have := h.length_le
  rw [List.length_cons] at this ⊢
  omega

theorem drop_length_sub {us : List Token} (h : ts <:+ us) : us.drop (us.length - ts.length) = ts := by
  obtain ⟨vs, rfl⟩ := h
  simp

/-- The cursor moved in front of the tokens that are left. -/
def before (c : TokenCursor) (rest : List Token) : TokenCursor :=
  c.seek (c.toList.length - rest.length)

@[simp] theorem index_before (c : TokenCursor) (rest : List Token) :
    (c.before rest).index = c.toList.length - rest.length := index_seek c _

theorem sound_before (c : TokenCursor) (rest : List Token) : (c.before rest).Sound :=
  sound_seek c _

theorem ahead_before (h : rest <:+ c.toList) : (c.before rest).ahead = rest :=
  drop_length_sub h

theorem next_before (h : t :: ts <:+ c.toList) : (c.before (t :: ts)).next = (t, c.before ts) := by
  have hahead := ahead_before h
  have hsound := (sound_before c (t :: ts)).next hahead
  have hindex : (c.before (t :: ts)).next.2.index = c.toList.length - ts.length := by
    rw [index_next, index_before, succ_length_sub h]
  refine Prod.ext (by rw [next_of_ahead hahead]) ?_
  rw [← hsound.seek_index, hindex, seek_next, before, seek_seek]
  rfl

/-- An end token is read behind the last token, and is given back. -/
theorem next_before_nil (c : TokenCursor) :
    (c.before []).next.1.kind = .eof ∧ (c.before []).next.2.back = c.before [] := by
  refine ⟨?_, back_next (sound_before c [])⟩
  rw [next, ahead_before List.nil_suffix]
  rfl

/-- The cursor `d` is in front of a suffix of the tokens `ts`. -/
def Leaves (c : TokenCursor) (ts : List Token) (d : TokenCursor) : Prop :=
  ∃ rest, rest <:+ ts ∧ d = c.before rest

theorem Leaves.of_suffix {us : List Token} {d : TokenCursor} (h : c.Leaves us d) (hus : us <:+ ts) :
    c.Leaves ts d := by
  obtain ⟨rest, hrest, hd⟩ := h
  exact ⟨rest, hrest.trans hus, hd⟩

/-- The places of the tokens that are left. -/
def places (c : TokenCursor) (ts : List Token) : List Nat :=
  List.range' (c.toList.length - ts.length) ts.length

section

variable {m : Build} {opener closer : TokenKind} {cut : Token → Bool} {b : OpenBlock} {start : Nat}
  {r : Block × TokenCursor}

end

end TokenCursor

end Selectors
