import Mathlib.Data.List.Infix
import Mathlib.Data.List.TakeWhile
import Selectors.Token.Cursor
import Selectors.Token.Lexer

/-!
# Blocks read at a cursor

A block ends at the first token that leaves none of the blocks open, as many tokens closing one as
opening one from its own opening token on (`Block.balance`).  If there is no such token, it ends
before the first one at which it may be cut, however many blocks are open there, or with the tokens.

The cursor finds this in one pass (`OpenBlock.read`), and steps back when the pass was in vain.  It
counts the blocks that are open in a word of 32 bits, so this holds as long as the counter reaches
them (`Block.Within`); otherwise a build with checks fails (`TokenCursor.readBlock_overflow`).

* `TokenCursor.readBlock_eq` : what the pass comes to, in terms of the tokens ahead.
* `TokenCursor.readBlock_eq_read` : blocks read at a cursor are those that are read off a list.
* `readBlock_balanced` : the account by balances, with the place where the cursor is left.
* `readBlock_too_deep` : no build reaches every block.
-/

namespace Selectors

namespace Block

variable {opener closer : TokenKind} {level : Nat} {t : Token} {ts : List Token}

/-- How many blocks are open behind the tokens, `level` of them being open before. -/
def balance (opener closer : TokenKind) (level : Int) (ts : List Token) : Int :=
  level + ts.countP (·.kind == opener) - ts.countP (·.kind == closer)

theorem balance_nil (opener closer : TokenKind) (level : Int) :
    balance opener closer level [] = level := by
  simp [balance]

theorem balance_opener (hne : opener ≠ closer) (ht : t.kind = opener) (level : Int) :
    balance opener closer level (t :: ts) = balance opener closer (level + 1) ts := by
  simp only [balance, List.countP_cons, ht, beq_self_eq_true, beq_iff_eq, hne, if_true, if_false]
  omega

theorem balance_closer (hne : opener ≠ closer) (ht : t.kind = closer) (level : Int) :
    balance opener closer level (t :: ts) = balance opener closer (level - 1) ts := by
  simp only [balance, List.countP_cons, ht, beq_self_eq_true, beq_iff_eq, hne.symm, if_true,
    if_false]
  omega

theorem balance_other (ho : t.kind ≠ opener) (hc : t.kind ≠ closer) (level : Int) :
    balance opener closer level (t :: ts) = balance opener closer level ts := by
  simp [balance, ho, hc]

theorem balance_append (opener closer : TokenKind) (level : Int) (us vs : List Token) :
    balance opener closer level (us ++ vs) =
      balance opener closer (balance opener closer level us) vs := by
  simp only [balance, List.countP_append]
  omega

theorem balance_cons (opener closer : TokenKind) (level : Int) (t : Token) (ts : List Token) :
    balance opener closer level (t :: ts) =
      balance opener closer (balance opener closer level [t]) ts :=
  balance_append opener closer level [t] ts

theorem balance_le (opener closer : TokenKind) (level : Int) (ts : List Token) :
    balance opener closer level ts ≤ level + ts.length := by
  have := ts.countP_le_length (p := (·.kind == opener))
  simp only [balance]
  omega

/-- A token closes one block at most. -/
theorem balance_nonneg (opener closer : TokenKind) {level : Int} (h : 0 < level) (t : Token) :
    0 ≤ balance opener closer level [t] := by
  have hone : [t].countP (·.kind == closer) ≤ 1 := List.countP_le_length
  simp only [balance]
  omega

/-- Only a closing token leaves no block open. -/
theorem closes_of_balance (hne : opener ≠ closer) {level : Int} (hpos : 0 < level)
    (h : balance opener closer level [t] = 0) : t.kind ≠ opener ∧ t.kind = closer := by
  by_cases ho : t.kind = opener
  · rw [balance_opener hne ho, balance_nil] at h
    omega
  · by_cases hc : t.kind = closer
    · exact ⟨ho, hc⟩
    · rw [balance_other ho hc, balance_nil] at h
      omega

/-- No token of the list closes the last of the open blocks. -/
def StaysOpen (opener closer : TokenKind) (level : Int) (ts : List Token) : Prop :=
  ∀ us, us <+: ts → balance opener closer level us ≠ 0

theorem staysOpen_nil {level : Int} (h : level ≠ 0) : StaysOpen opener closer level [] := by
  intro us hus
  rw [List.prefix_nil.1 hus, balance_nil]
  exact h

theorem staysOpen_cons {level level' : Int} (h : level ≠ 0)
    (ht : ∀ us, balance opener closer level (t :: us) = balance opener closer level' us) :
    StaysOpen opener closer level (t :: ts) ↔ StaysOpen opener closer level' ts := by
  constructor
  · intro hopen us hus
    rw [← ht]
    exact hopen (t :: us) ((List.prefix_append_right_inj [t]).2 hus)
  · intro hopen us hus
    rcases List.prefix_cons_iff.1 hus with rfl | ⟨vs, rfl, hvs⟩
    · rwa [balance_nil]
    · rw [ht]
      exact hopen vs hvs

/-- As long as none of the tokens closes the block, fewer than `bound` blocks are open. -/
def Within (opener closer : TokenKind) (bound level : Int) (ts : List Token) : Prop :=
  ∀ us, us <+: ts → StaysOpen opener closer level us → balance opener closer level us < bound

theorem Within.lt {bound level : Int} (h : Within opener closer bound level ts)
    (hlevel : level ≠ 0) : level < bound := by
  have hnil := h [] List.nil_prefix (staysOpen_nil hlevel)
  rwa [balance_nil] at hnil

/-- A block that is closed can not get too deep. -/
theorem within_zero (bound : Int) (ts : List Token) : Within opener closer bound 0 ts :=
  fun _ _ hopen => absurd (balance_nil opener closer 0) (hopen [] List.nil_prefix)

theorem within_nil {bound level : Int} (h : level < bound) : Within opener closer bound level [] := by
  intro us hus _
  rwa [List.prefix_nil.1 hus, balance_nil]

theorem within_cons {bound level : Int} (h : level ≠ 0) :
    Within opener closer bound level (t :: ts) ↔
      level < bound ∧ Within opener closer bound (balance opener closer level [t]) ts := by
  constructor
  · intro hwithin
    refine ⟨hwithin.lt h, fun us hus hopen => ?_⟩
    rw [← balance_cons]
    exact hwithin (t :: us) ((List.prefix_append_right_inj [t]).2 hus)
      ((staysOpen_cons h (balance_cons opener closer level t)).2 hopen)
  · rintro ⟨hlt, hwithin⟩ us hus hopen
    rcases List.prefix_cons_iff.1 hus with rfl | ⟨vs, rfl, hvs⟩
    · rwa [balance_nil]
    · rw [balance_cons]
      exact hwithin vs hvs ((staysOpen_cons h (balance_cons opener closer level t)).1 hopen)

/-- Few tokens open few blocks. -/
theorem within_of_length {bound level : Int} (h : level + ts.length < bound) :
    Within opener closer bound level ts := by
  intro us hus _
  have := balance_le opener closer level us
  have := hus.length_le
  omega

/-- No stretch of the tokens opens `2 ^ 31` more blocks than it closes. -/
def Shallow (opener closer : TokenKind) (ts : List Token) : Prop :=
  ∀ us, us <:+: ts →
    us.countP (·.kind == opener) < 2147483648 + us.countP (·.kind == closer)

theorem Shallow.suffix {us : List Token} (h : Shallow opener closer ts) (hus : us <:+ ts) :
    Shallow opener closer us := fun vs hvs => h vs (hvs.trans hus.isInfix)

/-- Many opening tokens open as many blocks. -/
theorem staysOpen_of_openers (hne : opener ≠ closer) (h : ∀ t ∈ ts, t.kind = opener) :
    StaysOpen opener closer 1 ts ∧ balance opener closer 1 ts = 1 + ts.length := by
  have hbalance : ∀ us, us <+: ts → balance opener closer 1 us = 1 + us.length := by
    intro us hus
    have hopens : us.countP (·.kind == opener) = us.length :=
      List.countP_eq_length.2 fun t ht => by simp [h t (hus.subset ht)]
    have hcloses : us.countP (·.kind == closer) = 0 :=
      List.countP_eq_zero.2 fun t ht => by simp [h t (hus.subset ht), hne]
    simp [balance, hopens, hcloses]
  refine ⟨fun us hus => ?_, hbalance ts List.prefix_rfl⟩
  have := hbalance us hus
  omega

theorem not_within_of_openers (hne : opener ≠ closer) (h : ∀ t ∈ ts, t.kind = opener)
    {bound : Int} (hlength : bound ≤ 1 + ts.length) : ¬Within opener closer bound 1 ts := by
  obtain ⟨hopen, hbalance⟩ := staysOpen_of_openers hne h
  intro hwithin
  have := hwithin ts List.prefix_rfl hopen
  omega

/-- The block is closed by the first token that leaves none open. -/
theorem closed?_balance (hne : opener ≠ closer) {b : ClosedBlock}
    (h : closed? opener closer level ts = some b) :
    balance opener closer (level + 1) (b.inside ++ [b.closer]) = 0 ∧
      StaysOpen opener closer (level + 1) b.inside := by
  fun_induction closed? opener closer level ts generalizing b with
  | case1 => cases h
  | case2 level t ts ho ih =>
    obtain ⟨c, hc, rfl⟩ := Option.map_eq_some_iff.1 h
    rw [List.cons_append, balance_opener hne ho,
      staysOpen_cons (by omega) fun us => balance_opener hne ho _]
    exact ih hc
  | case3 t ts ho hcl =>
    obtain rfl := Option.some.inj h
    rw [List.nil_append, balance_closer hne hcl, balance_nil]
    exact ⟨rfl, staysOpen_nil (by omega)⟩
  | case4 t ts ho hcl level ih =>
    obtain ⟨c, hc, rfl⟩ := Option.map_eq_some_iff.1 h
    have hlevel : ((level + 1 : Nat) : Int) + 1 - 1 = level + 1 := by omega
    rw [List.cons_append, balance_closer hne hcl,
      staysOpen_cons (by omega) fun us => balance_closer hne hcl _, hlevel]
    exact ih hc
  | case5 level t ts ho hcl ih =>
    obtain ⟨c, hc, rfl⟩ := Option.map_eq_some_iff.1 h
    rw [List.cons_append, balance_other ho hcl,
      staysOpen_cons (by omega) fun us => balance_other ho hcl _]
    exact ih hc

/-- A block is not closed if none of the tokens does it. -/
theorem staysOpen_of_closed? (hne : opener ≠ closer) (h : closed? opener closer level ts = none) :
    StaysOpen opener closer (level + 1) ts := by
  fun_induction closed? opener closer level ts with
  | case1 => exact staysOpen_nil (by omega)
  | case2 level t ts ho ih =>
    rw [staysOpen_cons (by omega) fun us => balance_opener hne ho _]
    exact ih (Option.map_eq_none_iff.1 h)
  | case3 => cases h
  | case4 t ts ho hcl level ih =>
    have hlevel : ((level + 1 : Nat) : Int) + 1 - 1 = level + 1 := by omega
    rw [staysOpen_cons (by omega) fun us => balance_closer hne hcl _, hlevel]
    exact ih (Option.map_eq_none_iff.1 h)
  | case5 level t ts ho hcl ih =>
    rw [staysOpen_cons (by omega) fun us => balance_other ho hcl _]
    exact ih (Option.map_eq_none_iff.1 h)

/-- The level behind a token. -/
def levelBehind (opener closer : TokenKind) (level : Nat) (t : Token) : Nat :=
  if t.kind = opener then level + 1 else if t.kind = closer then level - 1 else level

theorem closed?_cons (opener closer : TokenKind) (level : Nat) (t : Token) (ts : List Token) :
    closed? opener closer level (t :: ts) =
      if t.kind ≠ opener ∧ t.kind = closer ∧ level = 0 then some ⟨[], t, ts⟩
      else
        (closed? opener closer (levelBehind opener closer level t) ts).map fun b =>
          { b with inside := t :: b.inside } := by
  rw [closed?.eq_def, levelBehind]
  by_cases ho : t.kind = opener
  · simp [ho]
  · by_cases hc : t.kind = closer
    · have hne : closer ≠ opener := hc ▸ ho
      cases level <;> simp [hc, hne]
    · simp [ho, hc]

theorem balance_eq_zero_iff (hne : opener ≠ closer) :
    t.kind ≠ opener ∧ t.kind = closer ∧ balance opener closer (level + 1) [t] = 0 ↔
      t.kind ≠ opener ∧ t.kind = closer ∧ level = 0 := by
  refine and_congr_right fun _ => and_congr_right fun hc => ?_
  rw [balance_closer hne hc, balance_nil]
  omega

/-- Unless it closes the block, a token leaves one open. -/
theorem balance_eq_levelBehind (hne : opener ≠ closer)
    (hopen : ¬(t.kind ≠ opener ∧ t.kind = closer ∧ level = 0)) :
    balance opener closer (level + 1) [t] = (levelBehind opener closer level t : Nat) + 1 := by
  rw [levelBehind]
  by_cases ho : t.kind = opener
  · rw [balance_opener hne ho, balance_nil, if_pos ho]
    omega
  · by_cases hc : t.kind = closer
    · have hpos : level ≠ 0 := fun h => hopen ⟨ho, hc, h⟩
      rw [balance_closer hne hc, balance_nil, if_neg ho, if_pos hc]
      omega
    · rw [balance_other ho hc, balance_nil, if_neg ho, if_neg hc]

/-- Whether a block that never closes ends before a token. -/
def endsBefore (opener closer : TokenKind) (cut : Token → Bool) (t : Token) : Bool :=
  t.kind != opener && t.kind != closer && cut t

theorem endsBefore_iff {cut : Token → Bool} :
    endsBefore opener closer cut t = true ↔ t.kind ≠ opener ∧ t.kind ≠ closer ∧ cut t := by
  simp only [endsBefore, Bool.and_eq_true, bne_iff_ne, and_assoc]

/-- The tokens of a block that never closes, and the one before which it ends. -/
theorem ends_of_cut (opener closer : TokenKind) (cut : Token → Bool) (ts : List Token) :
    (∀ t ∈ ts.takeWhile fun t => !endsBefore opener closer cut t,
        ¬(t.kind ≠ opener ∧ t.kind ≠ closer ∧ cut t)) ∧
      ∀ t ∈ (ts.dropWhile fun t => !endsBefore opener closer cut t).head?,
        t.kind ≠ opener ∧ t.kind ≠ closer ∧ cut t := by
  constructor
  · intro t ht hends
    have hnot := List.mem_takeWhile_imp ht
    rw [endsBefore_iff.2 hends] at hnot
    cases hnot
  · intro t ht
    have hnot := List.head?_dropWhile_not (fun t => !endsBefore opener closer cut t) ts
    simp only [Option.mem_def.1 ht, Bool.not_eq_false'] at hnot
    exact endsBefore_iff.1 hnot

end Block

/-- Neither brackets nor parentheses get too deep for a counter of 32 bits. -/
structure Token.Shallow (ts : List Token) : Prop where
  brackets : Block.Shallow .openBracket .closeBracket ts
  parens : Block.Shallow .openParen .closeParen ts

/-! ### Places of a cursor -/

namespace TokenCursor

variable {c d : TokenCursor} {i j : Nat} {t : Token} {ts : List Token}

/-- The cursor counts reads past the end only where no token is ahead. -/
def Sound (c : TokenCursor) : Prop := c.past = 0 ∨ c.ahead = []

theorem toList_seek (c : TokenCursor) (i : Nat) : (c.seek i).toList = c.toList := by
  simp [seek, toList]

theorem seek_congr (htokens : c.toList = d.toList) (hstop : c.stop = d.stop) (i : Nat) :
    c.seek i = d.seek i := by
  simp only [seek, htokens, hstop]

theorem seek_seek (c : TokenCursor) (i j : Nat) : (c.seek i).seek j = c.seek j :=
  seek_congr (toList_seek c i) rfl j

theorem index_seek (c : TokenCursor) (i : Nat) : (c.seek i).index = i := by
  simp only [index, seek, List.length_reverse, List.length_take]
  omega

theorem ahead_seek (c : TokenCursor) (i : Nat) : (c.seek i).ahead = c.toList.drop i := rfl

theorem sound_seek (c : TokenCursor) (i : Nat) : (c.seek i).Sound := by
  by_cases hi : i ≤ c.toList.length
  · exact .inl (Nat.sub_eq_zero_of_le hi)
  · exact .inr (List.drop_of_length_le (Nat.le_of_not_le hi))

/-- A cursor stands where its index says. -/
theorem Sound.seek_index (h : c.Sound) : c.seek c.index = c := by
  obtain ⟨behind, ahead, past, stop⟩ := c
  rcases h with rfl | rfl
  · simp [seek, index, toList]
  · simp [seek, index, toList, List.take_of_length_le]

/-- The tokens ahead at a place further on. -/
theorem Sound.ahead_seek_add (h : c.Sound) (i : Nat) :
    (c.seek (c.index + i)).ahead = c.ahead.drop i := by
  rw [ahead_seek, toList, List.drop_append, List.length_reverse, index]
  rcases h with hpast | hahead
  · rw [hpast, Nat.add_zero, Nat.add_sub_cancel_left, List.drop_of_length_le, List.nil_append]
    rw [List.length_reverse]
    omega
  · rw [hahead, List.drop_nil, List.drop_nil, List.append_nil, List.drop_of_length_le]
    rw [List.length_reverse]
    omega

theorem next_of_ahead (h : c.ahead = t :: ts) :
    c.next = (t, { c with behind := t :: c.behind, ahead := ts }) := by
  rw [next, h]

theorem Sound.next (h : c.Sound) (hahead : c.ahead = t :: ts) : c.next.2.Sound := by
  have hpast : c.past = 0 := h.resolve_right (by simp [hahead])
  rw [next_of_ahead hahead]
  exact .inl hpast

theorem index_next (c : TokenCursor) : c.next.2.index = c.index + 1 := by
  unfold next
  split
  · rfl
  · simp [index, Nat.add_right_comm]

theorem seek_next (c : TokenCursor) (i : Nat) : c.next.2.seek i = c.seek i := by
  refine seek_congr (toList_next c) ?_ i
  unfold next
  split <;> rfl

/-! ### The pass over the tokens -/

namespace OpenBlock

variable {m : Build} {opener closer : TokenKind} {cut : Token → Bool} {start : Nat} {b : OpenBlock}
  {level : Int}

/-- The counter behind a token stands for the balance behind it. -/
theorem levelBehind_eq (hne : opener ≠ closer) (hlevel : m.int32 level = .ok b.level) :
    b.levelBehind m opener closer t = m.int32 (Block.balance opener closer level [t]) := by
  rw [levelBehind]
  by_cases ho : t.kind = opener
  · rw [if_pos ho, Block.balance_opener hne ho, Block.balance_nil, Build.int32_add hlevel]
  · by_cases hc : t.kind = closer
    · rw [if_neg ho, if_pos hc, Block.balance_closer hne hc, Block.balance_nil]
      exact Build.int32_add hlevel (-1)
    · rw [if_neg ho, if_neg hc, Block.balance_other ho hc, Block.balance_nil, hlevel]

/-- An end token ends the block, also one among the tokens. -/
theorem read_end (h : b.cursor.next.1.kind = .eof) :
    b.read m opener closer cut start =
      .ok ({ b with cursor := b.cursor.next.2.back }.abandon start) := by
  rw [read]
  simp only [h, dite_true]
  rfl

theorem next_end (h : ∀ t ∈ b.cursor.ahead.head?, t.kind = .eof) : b.cursor.next.1.kind = .eof := by
  rw [next]
  cases hahead : b.cursor.ahead with
  | nil => rfl
  | cons t ts => exact h t (by simp [hahead])

theorem read_nil (hsound : b.cursor.Sound) (h : b.cursor.ahead = []) :
    b.read m opener closer cut start = .ok (b.abandon start) := by
  rw [read_end (next_end (by simp [h])), back_next hsound]

/-- A token closes the block, or is taken. -/
theorem read_cons {n : Int} (h : b.cursor.ahead = t :: ts) (ht : t.kind ≠ .eof)
    (hn : b.levelBehind m opener closer t = .ok n) :
    b.read m opener closer cut start =
      if t.kind ≠ opener ∧ t.kind = closer ∧ n = 0 then
        .ok (⟨b.taken.reverse, some t, ts⟩, b.cursor.next.2)
      else (b.take opener closer cut t b.cursor.next.2 n).read m opener closer cut start := by
  rw [read]
  simp only [next_of_ahead h, ht, dite_false, hn]
  rfl

/-- The counter does not fit behind a token. -/
theorem read_error {e : Overflow} (h : b.cursor.ahead = t :: ts) (ht : t.kind ≠ .eof)
    (hn : b.levelBehind m opener closer t = .error e) :
    b.read m opener closer cut start = .error e := by
  rw [read]
  simp only [next_of_ahead h, ht, dite_false, hn]
  rfl

/-- Where a block may be cut is settled by the first token at which it may. -/
theorem cut_take (c : TokenCursor) (n : Int) (ts : List Token) :
    ((b.take opener closer cut t c n).cut <|>
        (ts.findIdx? (Block.endsBefore opener closer cut)).map (b.taken.length + 1 + ·)) =
      (b.cut <|>
        ((t :: ts).findIdx? (Block.endsBefore opener closer cut)).map (b.taken.length + ·)) := by
  have htake : (b.take opener closer cut t c n).cut =
      (b.cut <|> if Block.endsBefore opener closer cut t then some b.taken.length else none) := by
    cases hcut : b.cut <;> by_cases ho : t.kind = opener <;> by_cases hc : t.kind = closer <;>
      simp [take, Block.endsBefore, hcut, ho, hc]
  rw [htake, List.findIdx?_cons]
  cases b.cut with
  | some n => rfl
  | none =>
    by_cases hends : Block.endsBefore opener closer cut t
    · simp [hends]
    · simp [hends, Function.comp_def, Nat.add_assoc, Nat.add_comm 1]

/-- **What reading comes to**, as long as the counter reaches the blocks that are open: a block that
a token closes has the tokens before that one; else all tokens are taken, and the first at which the
block may be cut is known. -/
theorem read_eq {level : Nat} (cut : Token → Bool) (start : Nat) (hne : opener ≠ closer)
    (hsound : b.cursor.Sound) (heof : ∀ t ∈ b.cursor.ahead, t.kind ≠ .eof)
    (hlevel : m.int32 (level + 1) = .ok b.level)
    (hwithin : Block.Within opener closer m.reach (level + 1) b.cursor.ahead) :
    b.read m opener closer cut start =
      .ok (match Block.closed? opener closer level b.cursor.ahead with
      | some a =>
        (⟨b.taken.reverse ++ a.inside, some a.closer, a.rest⟩,
          b.cursor.seek (b.cursor.index + a.inside.length + 1))
      | none =>
        abandon start
          { cursor := b.cursor.seek (b.cursor.index + b.cursor.ahead.length)
            taken := b.cursor.ahead.reverse ++ b.taken
            cut := b.cut <|>
              (b.cursor.ahead.findIdx? (Block.endsBefore opener closer cut)).map
                (b.taken.length + ·) }) := by
  generalize hahead : b.cursor.ahead = ts at heof hwithin
  induction ts generalizing b level with
  | nil =>
    rw [read_nil hsound hahead]
    simp [Block.closed?, abandon, hsound.seek_index]
  | cons t ts ih =>
    obtain ⟨ht, heof⟩ := List.forall_mem_cons.1 heof
    have hnext : b.cursor.next.2.ahead = ts := by rw [ahead_next, hahead]; rfl
    obtain ⟨-, hwithin⟩ := (Block.within_cons (by omega)).1 hwithin
    -- the balance behind the token is not negative, and the counter reaches it
    have hbalance : 0 ≤ Block.balance opener closer (level + 1) [t] ∧
        Block.balance opener closer (level + 1) [t] < m.reach := by
      refine ⟨Block.balance_nonneg opener closer (by omega) t, ?_⟩
      by_cases hzero : Block.balance opener closer (level + 1) [t] = 0
      · have := m.reach_pos
        omega
      · exact hwithin.lt hzero
    obtain ⟨n, hn⟩ := Build.exists_int32 hbalance.1 hbalance.2
    have hcloses : t.kind ≠ opener ∧ t.kind = closer ∧ n = 0 ↔
        t.kind ≠ opener ∧ t.kind = closer ∧ level = 0 := by
      rw [Build.int32_eq_zero hn hbalance.1 hbalance.2]
      exact Block.balance_eq_zero_iff hne
    rw [read_cons hahead ht ((levelBehind_eq hne hlevel).trans hn), Block.closed?_cons]
    by_cases hclose : t.kind ≠ opener ∧ t.kind = closer ∧ level = 0
    · have hseek : b.cursor.next.2 = b.cursor.seek (b.cursor.index + 1) := by
        rw [← index_next, ← seek_next, (hsound.next hahead).seek_index]
      rw [if_pos hclose, if_pos (hcloses.2 hclose), hseek]
      simp
    · rw [if_neg hclose, if_neg fun h => hclose (hcloses.1 h)]
      rw [Block.balance_eq_levelBehind hne hclose] at hn hwithin
      rw [ih (hsound.next hahead) hn hnext heof hwithin]
      have hcursor : (b.take opener closer cut t b.cursor.next.2 n).cursor = b.cursor.next.2 := rfl
      have htaken : (b.take opener closer cut t b.cursor.next.2 n).taken = t :: b.taken := rfl
      cases Block.closed? opener closer (Block.levelBehind opener closer level t) ts with
      | some a =>
        simp only [hcursor, htaken, seek_next, index_next, Option.map_some, List.reverse_cons,
          List.append_assoc, List.singleton_append, List.length_cons, Nat.add_assoc, Nat.add_comm 1]
      | none =>
        simp only [hcursor, htaken, seek_next, index_next, Option.map_none, List.reverse_cons,
          List.append_assoc, List.singleton_append, List.length_cons, cut_take]
        rw [Nat.add_right_comm, Nat.add_assoc]

/-- **Where reading fails**: in a build with checks, the counter stops at the first token behind
which more blocks are open than it reaches. -/
theorem read_overflow (hne : opener ≠ closer) (hm : m ≠ .wrapping)
    (heof : ∀ t ∈ b.cursor.ahead, t.kind ≠ .eof) (hpos : 0 < level)
    (hlevel : m.int32 level = .ok b.level)
    (hdeep : ¬Block.Within opener closer m.reach level b.cursor.ahead) :
    b.read m opener closer cut start = .error .overflow := by
  have hreach {i n : Int} (h : m.int32 i = .ok n) : i < m.reach := by
    by_contra hle
    rw [Build.int32_error hm (Int.not_lt.1 hle)] at h
    cases h
  generalize hahead : b.cursor.ahead = ts at heof hdeep
  induction ts generalizing b level with
  | nil => exact absurd (Block.within_nil (hreach hlevel)) hdeep
  | cons t ts ih =>
    obtain ⟨ht, heof⟩ := List.forall_mem_cons.1 heof
    have hnext : b.cursor.next.2.ahead = ts := by rw [ahead_next, hahead]; rfl
    have hdeep : ¬Block.Within opener closer m.reach (Block.balance opener closer level [t]) ts :=
      fun h => hdeep ((Block.within_cons (by omega)).2 ⟨hreach hlevel, h⟩)
    have hn := levelBehind_eq (t := t) hne hlevel
    cases hbalance : m.int32 (Block.balance opener closer level [t]) with
    | error e => exact read_error hahead ht (hn.trans hbalance)
    | ok n =>
      have hzero : Block.balance opener closer level [t] ≠ 0 :=
        fun h => hdeep (h ▸ Block.within_zero m.reach ts)
      have hpos : 0 < Block.balance opener closer level [t] :=
        Int.lt_iff_le_and_ne.2 ⟨Block.balance_nonneg opener closer hpos t, hzero.symm⟩
      have hn0 := Build.int32_eq_zero hbalance (Int.le_of_lt hpos) (hreach hbalance)
      rw [read_cons hahead ht (hn.trans hbalance), if_neg fun h => hzero (hn0.1 h.2.2)]
      exact ih hpos hbalance hnext heof hdeep

/-- Reading any tokens gives a block, unless the build has checks and more blocks are open than its
counter reaches. -/
theorem read_cases (cut : Token → Bool) (start : Nat) (hne : opener ≠ closer) (hpos : 0 < level)
    (hlevel : m.int32 level = .ok b.level) :
    (∃ r, b.read m opener closer cut start = .ok r) ∨
      m ≠ .wrapping ∧ ¬Block.Within opener closer m.reach level b.cursor.ahead ∧
        b.read m opener closer cut start = .error .overflow := by
  generalize hahead : b.cursor.ahead = ts
  induction ts generalizing b level with
  | nil => exact .inl ⟨_, read_end (next_end (by simp [hahead]))⟩
  | cons t ts ih =>
    by_cases ht : t.kind = .eof
    · exact .inl ⟨_, read_end (next_end (by simp [hahead, ht]))⟩
    have hnext : b.cursor.next.2.ahead = ts := by rw [ahead_next, hahead]; rfl
    have hn := levelBehind_eq (t := t) hne hlevel
    have hwithin : Block.Within opener closer m.reach level (t :: ts) →
        Block.Within opener closer m.reach (Block.balance opener closer level [t]) ts :=
      fun h => ((Block.within_cons (by omega)).1 h).2
    have hnonneg := Block.balance_nonneg opener closer hpos t
    cases hbalance : m.int32 (Block.balance opener closer level [t]) with
    | error e =>
      -- a number that is reached would fit
      have hreach : m.reach ≤ Block.balance opener closer level [t] := by
        by_contra hlt
        obtain ⟨n, hok⟩ := Build.exists_int32 hnonneg (Int.not_le.1 hlt)
        rw [hok] at hbalance
        cases hbalance
      have hm : m ≠ .wrapping := by
        rintro rfl
        rw [Build.int32_wrapping] at hbalance
        cases hbalance
      have := m.reach_pos
      exact .inr ⟨hm, fun h => Int.not_lt.2 hreach ((hwithin h).lt (by omega)),
        read_error hahead ht (hn.trans hbalance)⟩
    | ok n =>
      rw [read_cons hahead ht (hn.trans hbalance)]
      split
      · exact .inl ⟨_, rfl⟩
      · rename_i hclose
        have hzero : Block.balance opener closer level [t] ≠ 0 := by
          intro hzero
          have hn0 : m.int32 0 = .ok 0 := rfl
          obtain ⟨ho, hc⟩ := Block.closes_of_balance hne hpos hzero
          rw [hzero, hn0] at hbalance
          exact hclose ⟨ho, hc, (Except.ok.inj hbalance).symm⟩
        rcases ih (b := b.take opener closer cut t b.cursor.next.2 n) (by omega) hbalance hnext with
          hok | ⟨hm, hdeep, herror⟩
        · exact .inl hok
        · exact .inr ⟨hm, fun h => hdeep (hwithin h), herror⟩

/-- In a build without checks, the counter is zero again when it has gone around. -/
theorem read_openers {us : List Token} {u : Token} (cut : Token → Bool) (start : Nat)
    (hne : opener ≠ closer) (hopener : opener ≠ .eof) (hcloser : closer ≠ .eof)
    (hus : ∀ t ∈ us, t.kind = opener) (hu : u.kind = closer) (hahead : b.cursor.ahead = us ++ u :: ts)
    (hlevel : Build.wrapping.int32 level = .ok b.level)
    (haround : (level + us.length - 1).bmod 4294967296 = 0) :
    ∃ r, b.read .wrapping opener closer cut start = .ok r ∧ r.1.closer = some u := by
  induction us generalizing b level with
  | nil =>
    have hzero : (level - 1).bmod 4294967296 = 0 := by simpa using haround
    have hn : b.levelBehind .wrapping opener closer u = .ok 0 := by
      rw [levelBehind_eq hne hlevel, Block.balance_closer hne hu, Block.balance_nil,
        Build.int32_wrapping, hzero]
    rw [read_cons hahead (by rwa [hu]) hn, if_pos ⟨by rw [hu]; exact hne.symm, hu, rfl⟩]
    exact ⟨_, rfl, rfl⟩
  | cons t us ih =>
    obtain ⟨ht, hus⟩ := List.forall_mem_cons.1 hus
    have hn : b.levelBehind .wrapping opener closer t =
        .ok ((level + 1).bmod 4294967296) := by
      rw [levelBehind_eq hne hlevel, Block.balance_opener hne ht, Block.balance_nil,
        Build.int32_wrapping]
    have hnext : b.cursor.next.2.ahead = us ++ u :: ts := by rw [ahead_next, hahead]; rfl
    have hlength : level + (t :: us).length - 1 = level + 1 + us.length - 1 := by
      rw [List.length_cons]
      omega
    rw [read_cons hahead (by rwa [ht]) hn, if_neg fun h => h.1 ht]
    have hlevel : Build.wrapping.int32 (level + 1) = .ok _ := Build.int32_wrapping (level + 1)
    exact ih (b := b.take opener closer cut t b.cursor.next.2 _) hus hnext hlevel
      (hlength ▸ haround)

/-- A block that no token closes ends before the first token at which it may be cut. -/
theorem abandon_eq (hsound : c.Sound) (p : Token → Bool) :
    abandon c.index
        { cursor := c.seek (c.index + c.ahead.length)
          taken := c.ahead.reverse
          cut := c.ahead.findIdx? p } =
      (⟨c.ahead.takeWhile fun t => !p t, none, c.ahead.dropWhile fun t => !p t⟩,
        c.seek (c.index + (c.ahead.takeWhile fun t => !p t).length)) := by
  have hlength : (c.ahead.take (c.ahead.findIdx p)).length = c.ahead.findIdx p :=
    List.length_take_of_le List.findIdx_le_length
  simp only [List.takeWhile_eq_take_findIdx_not, List.dropWhile_eq_drop_findIdx_not, Bool.not_not,
    hlength]
  cases hcut : c.ahead.findIdx? p with
  | none =>
    rw [List.findIdx?_eq_none_iff_findIdx_eq.1 hcut]
    simp [abandon, hsound.ahead_seek_add]
  | some n =>
    rw [(List.findIdx?_eq_some_iff_findIdx_eq.1 hcut).2]
    simp [abandon, seek_seek, hsound.ahead_seek_add]

end OpenBlock

/-- **Blocks read at a cursor**, as long as the counter reaches the blocks that are open: up to the
token that closes the block, or else up to the first at which it may be cut.  The cursor is left
behind the block. -/
theorem readBlock_eq {m : Build} {opener closer : TokenKind} (hne : opener ≠ closer)
    (hsound : c.Sound) (heof : ∀ t ∈ c.ahead, t.kind ≠ .eof)
    (hwithin : Block.Within opener closer m.reach 1 c.ahead) (cut : Token → Bool) :
    c.readBlock m opener closer cut =
      .ok (match Block.closed? opener closer 0 c.ahead with
      | some a =>
        (⟨a.inside, some a.closer, a.rest⟩, c.seek (c.index + a.inside.length + 1))
      | none =>
        let inside := c.ahead.takeWhile fun t => !Block.endsBefore opener closer cut t
        (⟨inside, none, c.ahead.dropWhile fun t => !Block.endsBefore opener closer cut t⟩,
          c.seek (c.index + inside.length))) := by
  have hone : m.int32 (((0 : Nat) : Int) + 1) = .ok 1 := rfl
  have hread := OpenBlock.read_eq (b := { cursor := c }) cut c.index hne hsound heof hone hwithin
  rw [readBlock, hread]
  cases Block.closed? opener closer 0 c.ahead with
  | some a => rfl
  | none =>
    have habandon := OpenBlock.abandon_eq hsound (Block.endsBefore opener closer cut)
    simpa using habandon

/-- A build with checks fails at a block in which more blocks are open than its counter reaches. -/
theorem readBlock_overflow {m : Build} {opener closer : TokenKind} (hne : opener ≠ closer)
    (hm : m ≠ .wrapping) (heof : ∀ t ∈ c.ahead, t.kind ≠ .eof)
    (hdeep : ¬Block.Within opener closer m.reach 1 c.ahead) (cut : Token → Bool) :
    c.readBlock m opener closer cut = .error .overflow := by
  have hone : m.int32 1 = .ok 1 := rfl
  exact OpenBlock.read_overflow hne hm heof Int.one_pos hone hdeep

/-- A build without checks reads every block. -/
theorem readBlock_wrapping {opener closer : TokenKind} (hne : opener ≠ closer) (c : TokenCursor)
    (cut : TokenKind → Bool) :
    (c.readBlock .wrapping opener closer fun t => cut t.kind) = .ok (c.block opener closer cut) := by
  have hone : Build.wrapping.int32 1 = .ok 1 := rfl
  obtain ⟨r, hr⟩ : ∃ r, (c.readBlock .wrapping opener closer fun t => cut t.kind) = .ok r := by
    rcases OpenBlock.read_cases (b := { cursor := c }) (fun t => cut t.kind) c.index hne
      Int.one_pos hone with h | h
    · exact h
    · exact absurd rfl h.1
  rw [block, hr]

theorem toList_ofList (ts : List Token) (stop : Nat) : (ofList ts stop).toList = ts := rfl

end TokenCursor

open TokenCursor in
/-- **Where blocks end.**  From any place among tokens, if some token ahead brings the balance of
opening and closing tokens from one to zero, the first that does closes the block: the block has the
tokens before it, and the cursor is left behind it.  Otherwise no token closes the block.  It has the
tokens before the first one that neither opens nor closes a block and has the property `cut`, or all
tokens if there is none, and the cursor is left behind them.

All this holds as long as the counter reaches the blocks that are open.  If it does not, a build with
checks fails. -/
theorem readBlock_balanced (m : Build) {ts : List Token} (hts : ∀ t ∈ ts, t.kind ≠ .eof)
    (stop i : Nat) {opener closer : TokenKind} (hne : opener ≠ closer) (cut : Token → Bool) :
    let c := ofList ts stop
    (Block.Within opener closer m.reach 1 (ts.drop i) →
      ((∃ us, us <+: ts.drop i ∧ Block.balance opener closer 1 us = 0) →
        ∃ us t vs, ts.drop i = us ++ t :: vs ∧
          Block.balance opener closer 1 (us ++ [t]) = 0 ∧
          (∀ ws, ws <+: us → Block.balance opener closer 1 ws ≠ 0) ∧
          (c.seek i).readBlock m opener closer cut =
            .ok (⟨us, some t, vs⟩, c.seek (i + us.length + 1))) ∧
      ((∀ us, us <+: ts.drop i → Block.balance opener closer 1 us ≠ 0) →
        ∃ us vs, ts.drop i = us ++ vs ∧
          (∀ t ∈ us, ¬(t.kind ≠ opener ∧ t.kind ≠ closer ∧ cut t)) ∧
          (∀ t ∈ vs.head?, t.kind ≠ opener ∧ t.kind ≠ closer ∧ cut t) ∧
          (c.seek i).readBlock m opener closer cut =
            .ok (⟨us, none, vs⟩, c.seek (i + us.length)))) ∧
    (m ≠ .wrapping → ¬Block.Within opener closer m.reach 1 (ts.drop i) →
      (c.seek i).readBlock m opener closer cut = .error .overflow) := by
  intro c
  have hahead : (c.seek i).ahead = ts.drop i := by rw [ahead_seek, toList_ofList]
  have heof : ∀ t ∈ (c.seek i).ahead, t.kind ≠ .eof := by
    rw [hahead]
    exact fun t ht => hts t (List.mem_of_mem_drop ht)
  constructor
  swap
  · intro hm hdeep
    exact readBlock_overflow hne hm heof (hahead ▸ hdeep) cut
  intro hwithin
  have hread := readBlock_eq hne (sound_seek c i) heof (hahead ▸ hwithin) cut
  rw [hahead, index_seek] at hread
  cases hclosed : Block.closed? opener closer 0 (ts.drop i) with
  | some a =>
    have happ := Block.closed?_append hclosed
    obtain ⟨hzero, hopen⟩ := Block.closed?_balance hne hclosed
    constructor
    · rintro -
      refine ⟨a.inside, a.closer, a.rest, happ.symm, hzero, hopen, ?_⟩
      rw [hread, hclosed]
      simp only [seek_seek]
    · intro hnever
      refine absurd hzero (hnever (a.inside ++ [a.closer]) ⟨a.rest, ?_⟩)
      rw [List.append_assoc]
      exact happ
  | none =>
    have hopen := Block.staysOpen_of_closed? hne hclosed
    constructor
    · rintro ⟨us, hus, hzero⟩
      exact absurd hzero (hopen us hus)
    · rintro -
      obtain ⟨hbefore, hbehind⟩ := Block.ends_of_cut opener closer cut (ts.drop i)
      refine ⟨_, _, List.takeWhile_append_dropWhile.symm, hbefore, hbehind, ?_⟩
      rw [hread, hclosed]
      simp only [seek_seek]

open TokenCursor in
/-- The outer block closes behind a comma and an inner block; unclosed, it ends at the parenthesis
that stands two brackets deep. -/
theorem readBlock_balanced_brackets :
    let cut (t : Token) : Bool := t.kind == .closeParen || t.kind == .comma
    let ts := tokenize "x[a,[b]c]d" 0
    let us := tokenize "x[a[)b]" 0
    TokenKind.openBracket ≠ .closeBracket ∧
      ((∀ t ∈ ts, t.kind ≠ .eof) ∧
        Block.Within .openBracket .closeBracket Build.checked.reach 1 (ts.drop 2) ∧
        (∃ ws, ws <+: ts.drop 2 ∧ Block.balance .openBracket .closeBracket 1 ws = 0) ∧
        ∃ ws t zs, ts.drop 2 = ws ++ t :: zs ∧
          Block.balance .openBracket .closeBracket 1 (ws ++ [t]) = 0 ∧
          (∀ vs, vs <+: ws → Block.balance .openBracket .closeBracket 1 vs ≠ 0) ∧
          ((ofList ts 0).seek 2).readBlock .checked .openBracket .closeBracket cut =
            .ok (⟨ws, some t, zs⟩, (ofList ts 0).seek (2 + ws.length + 1))) ∧
      (∀ t ∈ us, t.kind ≠ .eof) ∧
      Block.Within .openBracket .closeBracket Build.checked.reach 1 (us.drop 2) ∧
      (∀ ws, ws <+: us.drop 2 → Block.balance .openBracket .closeBracket 1 ws ≠ 0) ∧
      ∃ ws zs, us.drop 2 = ws ++ zs ∧
        (∀ t ∈ ws, ¬(t.kind ≠ .openBracket ∧ t.kind ≠ .closeBracket ∧ cut t)) ∧
        (∀ t ∈ zs.head?, t.kind ≠ .openBracket ∧ t.kind ≠ .closeBracket ∧ cut t) ∧
        ((ofList us 0).seek 2).readBlock .checked .openBracket .closeBracket cut =
          .ok (⟨ws, none, zs⟩, (ofList us 0).seek (2 + ws.length)) := by
  intro cut ts us
  have hne : TokenKind.openBracket ≠ .closeBracket := by decide
  have hts : ∀ t ∈ ts, t.kind ≠ .eof := by decide +kernel
  have hus : ∀ t ∈ us, t.kind ≠ .eof := by decide +kernel
  have hshallow : Block.Within .openBracket .closeBracket Build.checked.reach 1 (ts.drop 2) :=
    Block.within_of_length (by decide +kernel)
  have hshallow' : Block.Within .openBracket .closeBracket Build.checked.reach 1 (us.drop 2) :=
    Block.within_of_length (by decide +kernel)
  have hcloses : ∃ ws, ws <+: ts.drop 2 ∧ Block.balance .openBracket .closeBracket 1 ws = 0 :=
    ⟨(ts.drop 2).take 7, List.take_prefix _ _, by decide +kernel⟩
  have hopen : Block.StaysOpen .openBracket .closeBracket 1 (us.drop 2) :=
    Block.staysOpen_of_closed? hne (by decide +kernel)
  exact ⟨hne, ⟨hts, hshallow, hcloses, ((readBlock_balanced .checked hts 0 2 hne cut).1
    hshallow).1 hcloses⟩, hus, hshallow', hopen,
    ((readBlock_balanced .checked hus 0 2 hne cut).1 hshallow').2 hopen⟩

open TokenCursor in
/-- **No counter of 32 bits is enough.**  Behind an opening bracket, `2 ^ 31 - 1` more of them make a
build with checks fail, although no token closes the block.  Without checks, `2 ^ 32` more of them
are closed by one closing bracket. -/
theorem readBlock_too_deep :
    let t : Token := ⟨.openBracket, "[", ⟨0, 1⟩⟩
    let u : Token := ⟨.closeBracket, "]", ⟨1, 2⟩⟩
    let ts := List.replicate 2147483647 t
    let us := List.replicate 4294967296 t ++ [u]
    TokenKind.openBracket ≠ .closeBracket ∧
      ((∀ t ∈ ts, t.kind ≠ .eof) ∧
        (∀ ws, ws <+: ts.drop 0 → Block.balance .openBracket .closeBracket 1 ws ≠ 0) ∧
        ((ofList ts 0).seek 0).readBlock .checked .openBracket .closeBracket (fun _ => false) =
          .error .overflow) ∧
      (∀ t ∈ us, t.kind ≠ .eof) ∧
      (∀ ws, ws <+: us.drop 0 → Block.balance .openBracket .closeBracket 1 ws ≠ 0) ∧
      ∃ b c, ((ofList us 0).seek 0).readBlock .wrapping .openBracket .closeBracket
        (fun _ => false) = .ok (b, c) ∧ b.closer = some u := by
  intro t u ts us
  have hne : TokenKind.openBracket ≠ .closeBracket := by decide
  have hopens (n : Nat) : ∀ v ∈ List.replicate n t, v.kind = .openBracket :=
    fun v hv => by rw [List.eq_of_mem_replicate hv]
  have hts : ∀ v ∈ ts, v.kind ≠ .eof := fun v hv => by simp [hopens _ v hv]
  have hus : ∀ v ∈ us, v.kind ≠ .eof := by
    intro v hv
    rcases List.mem_append.1 hv with hv | hv
    · simp [hopens _ v hv]
    · rw [List.mem_singleton.1 hv]
      decide
  have hdeep : ¬Block.Within .openBracket .closeBracket Build.checked.reach 1 ts := by
    refine Block.not_within_of_openers hne (hopens _) ?_
    rw [List.length_replicate]
    decide
  refine ⟨hne, ⟨hts, (Block.staysOpen_of_openers hne (hopens _)).1,
    readBlock_overflow hne (by decide) hts hdeep _⟩, hus, ?_, ?_⟩
  · intro ws hws
    rcases List.prefix_concat_iff.1 hws with rfl | hws
    · have hbalance := (Block.staysOpen_of_openers hne (hopens 4294967296)).2
      rw [Block.balance_append, hbalance, List.length_replicate]
      decide
    · exact (Block.staysOpen_of_openers hne (hopens _)).1 ws hws
  · have hahead : ((ofList us 0).seek 0).ahead = List.replicate 4294967296 t ++ [u] := by
      rw [ahead_seek, toList_ofList, List.drop_zero]
    have hone : Build.wrapping.int32 1 = .ok 1 := rfl
    obtain ⟨⟨b, c⟩, hread, hcloser⟩ := OpenBlock.read_openers
      (b := { cursor := (ofList us 0).seek 0 }) (fun _ => false) ((ofList us 0).seek 0).index hne
      (by decide) (by decide) (hopens _) rfl hahead hone (by rw [List.length_replicate]; decide)
    exact ⟨b, c, hread, hcloser⟩

end Selectors
