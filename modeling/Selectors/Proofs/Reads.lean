import Selectors.Parser

/-!
# Rules for reading lists

`Reads` gives the reading of a list by rules, one for each way in which a token is taken: the end
of the tokens, the closing parenthesis, a comma, a parenthesized block, and any other node.  What
holds of every reading is proved by induction over these rules (`reads_readList`).
-/

namespace Selectors

/-- Reading the tokens into a builder at a nesting depth gives a reading. -/
inductive Reads (stop : Nat) : Nat → Builder → List Token → Reading → Prop where
  | done {depth : Nat} {b : Builder} : Reads stop depth b [] ⟨b, none, [], []⟩
  | close {depth : Nat} {b : Builder} {t : Token} {ts : List Token}
      (ht : t.kind = .closeParen) (hd : 0 < depth) :
      Reads stop depth b (t :: ts) ⟨b, some t, ts, []⟩
  | comma {depth : Nat} {b : Builder} {t : Token} {ts : List Token} {r : Reading}
      (ht : t.kind = .comma) (hr : Reads stop depth (b.comma t) ts r) :
      Reads stop depth b (t :: ts) r
  | parens {depth : Nat} {b : Builder} {t : Token} {ts : List Token} {o : Opening}
      {inner r : Reading} {c : Draft × List Event}
      (ht : t.kind = .openParen) (hd : depth < maxDepth)
      (ho : o = (b.current t).openParens t ts)
      (hi : Reads stop (depth + 1) o.builder o.rest inner)
      (hc : c = (b.current t).closeParens stop t
        (Token.join (Token.consumed (t :: ts) inner.rest)) inner)
      (hr : Reads stop depth (b.set c.1) inner.rest r) :
      Reads stop depth b (t :: ts) (r.after (o.events ++ inner.events ++ c.2))
  | node {depth : Nat} {b : Builder} {t : Token} {ts : List Token} {s : Step} {r : Reading}
      (hclose : ¬(t.kind = .closeParen ∧ 0 < depth)) (hcomma : t.kind ≠ .comma)
      (hparen : ¬(t.kind = .openParen ∧ depth < maxDepth))
      (hs : s = (b.current t).step depth t ts)
      (hr : Reads stop depth (b.set s.draft) s.rest r) :
      Reads stop depth b (t :: ts) (r.after s.events)

/-- Outside parentheses, nothing but the end of the tokens ends a list. -/
theorem Reads.closer_eq_none {stop depth : Nat} {b : Builder} {ts : List Token} {r : Reading}
    (h : Reads stop depth b ts r) (hd : depth = 0) : r.closer = none := by
  induction h with
  | done => rfl
  | close ht hd' => omega
  | comma ht hr ih => exact ih hd
  | parens ht hd' ho hi hc hr ihi ihr => exact ihr hd
  | node hclose hcomma hparen hs hr ih => exact ih hd

/-- The token that ends a list is a closing parenthesis. -/
theorem Reads.kind_closer {stop depth : Nat} {b : Builder} {ts : List Token} {r : Reading}
    (h : Reads stop depth b ts r) : ∀ c ∈ r.closer, c.kind = .closeParen := by
  induction h with
  | done => simp
  | close ht hd => simpa using ht
  | comma ht hr ih => exact ih
  | parens ht hd ho hi hc hr ihi ihr => exact ihr
  | node hclose hcomma hparen hs hr ih => exact ih

/-- A list that no parenthesis ends has all the tokens. -/
theorem Reads.rest_eq_nil {stop depth : Nat} {b : Builder} {ts : List Token} {r : Reading}
    (h : Reads stop depth b ts r) (hc : r.closer = none) : r.rest = [] := by
  induction h with
  | done => rfl
  | close ht hd => cases hc
  | comma ht hr ih => exact ih hc
  | parens ht hd ho hi hc' hr ihi ihr => exact ihr hc
  | node hclose hcomma hparen hs hr ih => exact ih hc

/-- **The reader follows the rules.** -/
theorem reads_readList (stop depth : Nat) (b : Builder) (ts : List Token) :
    Reads stop depth b ts (readList stop depth b ts).val := by
  induction hn : ts.length using Nat.strongRecOn generalizing depth b ts with
  | ind n ih =>
    subst hn
    rw [readList.eq_def]
    cases ts with
    | nil => exact .done
    | cons t ts =>
      dsimp only
      split
      · rename_i h
        exact .close h.1 h.2
      · rename_i hclose
        split
        · rename_i hcomma
          exact .comma hcomma (ih _ (Nat.lt_succ_self _) _ _ _ rfl)
        · rename_i hcomma
          split
          · rename_i hparen
            have ho := ((b.current t).openParens_suffix t ts).length_le
            have hi := (readList stop (depth + 1) ((b.current t).openParens t ts).builder
              ((b.current t).openParens t ts).rest).property.length_le
            refine .parens hparen.1 hparen.2 rfl (ih _ (Nat.lt_succ_of_le ho) _ _ _ rfl) rfl
              (ih _ (Nat.lt_succ_of_le (Nat.le_trans hi ho)) _ _ _ rfl)
          · rename_i hparen
            have hs := (Draft.step_suffix depth (b.current t) t ts).length_le
            exact .node hclose hcomma hparen rfl (ih _ (Nat.lt_succ_of_le hs) _ _ _ rfl)

/-- The rules allow one reading only. -/
theorem Reads.eq_readList {stop depth : Nat} {b : Builder} {ts : List Token} {r : Reading}
    (h : Reads stop depth b ts r) : r = (readList stop depth b ts).val := by
  induction h with
  | done => rw [readList.eq_def]
  | close ht hd =>
    rw [readList.eq_def]
    dsimp only
    rw [if_pos ⟨ht, hd⟩]
  | @comma depth b t ts r ht hr ih =>
    rw [readList.eq_def]
    dsimp only
    rw [if_neg (by rw [ht]; simp), if_pos ht]
    exact ih
  | @parens depth b t ts o inner r c ht hd ho hi hc hr ihi ihr =>
    subst ho ihi hc
    rw [readList.eq_def stop depth b (t :: ts)]
    dsimp only
    rw [if_neg (by rw [ht]; simp), if_neg (by rw [ht]; decide), if_pos ⟨ht, hd⟩]
    exact congrArg (Reading.after _) ihr
  | @node depth b t ts s r hclose hcomma hparen hs hr ih =>
    subst hs
    rw [readList.eq_def stop depth b (t :: ts)]
    dsimp only
    rw [if_neg hclose, if_neg hcomma, if_neg hparen]
    exact congrArg (Reading.after _) ih

/-- What is left is a suffix of the tokens. -/
theorem Reads.suffix {stop depth : Nat} {b : Builder} {ts : List Token} {r : Reading}
    (h : Reads stop depth b ts r) : r.rest <:+ ts := by
  rw [h.eq_readList]
  exact (readList stop depth b ts).property

/-- A list takes all tokens before its closing parenthesis, or all there are. -/
theorem Reads.append {stop depth : Nat} {b : Builder} {ts : List Token} {r : Reading}
    (h : Reads stop depth b ts r) : ∃ us, us ++ (r.closer.toList ++ r.rest) = ts := by
  induction h with
  | done => exact ⟨[], rfl⟩
  | close => exact ⟨[], rfl⟩
  | @comma depth b t ts r ht hr ih =>
    obtain ⟨us, rfl⟩ := ih
    exact ⟨t :: us, rfl⟩
  | @parens depth b t ts o inner r c ht hd ho hi hc hr ihi ihr =>
    obtain ⟨us, hus⟩ := ihr
    obtain ⟨vs, hvs⟩ := hi.suffix.trans (ho ▸ (b.current t).openParens_suffix t ts)
    exact ⟨t :: vs ++ us, by simp [hus, hvs]⟩
  | @node depth b t ts s r hclose hcomma hparen hs hr ih =>
    obtain ⟨us, hus⟩ := ih
    obtain ⟨vs, hvs⟩ := hs ▸ Draft.step_suffix depth (b.current t) t ts
    exact ⟨t :: vs ++ us, by simp [hus, hvs]⟩

end Selectors
