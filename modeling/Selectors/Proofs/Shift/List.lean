import Selectors.Proofs.Reads
import Selectors.Proofs.Shift.Step

/-!
# Reading text at an offset

An offset moves the tokens of a text, and by induction over the rules of reading everything that is
read from them (`Reads.shift`).  So a text read at an offset gives the tree of the text, moved
(`parseLogged_eq_shift`).
-/

namespace Selectors

variable {k : Nat}

namespace Draft

theorem close_shift (d : Draft) (stop : Nat) :
    (d.shift k).close (stop + k) = (d.close stop).shift k := by
  rw [close, close, ← Selector.trim_shift, Selector.shift_eq]
  simp only [shift, List.map_reverse]
  rfl

end Draft

namespace Builder

/-- The list being read, moved `k` bytes to the right. -/
def shift (k : Nat) (b : Builder) : Builder :=
  ⟨b.closed.map (Selector.shift k), b.draft.map (Draft.shift k)⟩

theorem current_shift (b : Builder) (t : Token) :
    (b.shift k).current (t.shift k) = (b.current t).shift k := by
  obtain ⟨closed, draft⟩ := b
  cases draft <;> rfl

theorem comma_shift (b : Builder) (t : Token) :
    (b.shift k).comma (t.shift k) = (b.comma t).shift k := by
  rw [comma, comma, current_shift]
  simp only [shift, List.map_cons, ← Draft.close_shift]
  rfl

theorem finish_shift (b : Builder) (stop : Nat) :
    (b.shift k).finish (stop + k) = (b.finish stop).map (Selector.shift k) := by
  obtain ⟨closed, draft⟩ := b
  cases draft <;> simp [finish, shift, Draft.close_shift]

end Builder

/-- The reading moved `k` bytes to the right. -/
def Reading.shift (k : Nat) (r : Reading) : Reading :=
  ⟨r.builder.shift k, r.closer.map (Token.shift k), r.rest.map (Token.shift k),
    r.events.map (Event.shift k)⟩

/-- The start of a nested list, moved `k` bytes to the right. -/
def Opening.shift (k : Nat) (o : Opening) : Opening :=
  ⟨o.builder.shift k, o.rest.map (Token.shift k), o.events.map (Event.shift k)⟩

namespace Draft

theorem takesNth_shift (d : Draft) (ts : List Token) :
    (d.shift k).takesNth (ts.map (Token.shift k)) = d.takesNth ts := by
  have hkind : ((ts.map (Token.shift k)).head?.map (·.kind)) = ts.head?.map (·.kind) := by
    cases ts <;> rfl
  obtain ⟨start, before, nodes⟩ := d
  rcases nodes with _ | ⟨n, ns⟩
  · rfl
  · cases n with
    | functional span sigil name args =>
      cases sigil with
      | colon cs =>
        simp only [takesNth, shift, List.map_cons, Node.shift, Sigil.shift, hkind]
      | _ => rfl
    | _ => rfl

theorem openParens_shift (d : Draft) (t : Token) (ts : List Token) :
    (d.shift k).openParens (t.shift k) (ts.map (Token.shift k)) = (d.openParens t ts).shift k := by
  have hstart : NthDraft.start (t.shift k).span.stop = (NthDraft.start t.span.stop).shift k := rfl
  rw [openParens, openParens, takesNth_shift]
  split
  · simp only [hstart, NthDraft.read_shift]
    generalize (NthDraft.start t.span.stop).read ts = r
    have hfinish : (r.shift k).draft.finish = r.draft.finish.shift k := r.draft.finish_shift
    have hnil : (r.draft.finish.shift k).nodes = [] ↔ r.draft.finish.nodes = [] :=
      List.map_eq_nil_iff
    have hlength : (r.draft.finish.shift k).nodes.length = r.draft.finish.nodes.length :=
      List.length_map _
    have hbefore : (r.draft.finish.shift k).before = r.draft.finish.before := rfl
    simp only [hfinish, hnil, hlength, hbefore, Opening.shift, List.map_append]
    by_cases hempty : r.draft.finish.nodes = [] ∧ r.draft.finish.before = ""
    · simp only [if_pos hempty]
      rfl
    · simp only [if_neg hempty]
      rfl
  · rfl

theorem closeParens_shift (stop : Nat) (d : Draft) (t : Token) (text : String) (inner : Reading) :
    (d.shift k).closeParens (stop + k) (t.shift k) text (inner.shift k) =
      ((d.closeParens stop t text inner).1.shift k,
        (d.closeParens stop t text inner).2.map (Event.shift k)) := by
  obtain ⟨start, before, nodes⟩ := d
  obtain ⟨builder, closer, rest, events⟩ := inner
  rcases closer with _ | c
  · rfl
  · rcases nodes with _ | ⟨n, ns⟩
    · rfl
    · cases n with
      | functional span sigil name args =>
        cases args with
        | none =>
          have hfinish := builder.finish_shift (k := k) c.span.start
          rw [← Selector.shiftAll_eq_map] at hfinish
          simp only [closeParens, shift, Reading.shift, Option.map_some, List.map_cons, Node.shift,
            Selector.shiftArguments, Token.span_shift, Span.shift, hfinish, List.map_nil]
        | some list => rfl
      | _ => rfl

end Draft

theorem Token.consumed_map_shift (ts rest : List Token) :
    consumed (ts.map (shift k)) (rest.map (shift k)) = (consumed ts rest).map (shift k) := by
  simp [consumed]

/-- **Moving the tokens moves what is read from them.** -/
theorem Reads.shift {stop depth : Nat} {b : Builder} {ts : List Token} {r : Reading}
    (h : Reads stop depth b ts r) :
    Reads (stop + k) depth (b.shift k) (ts.map (Token.shift k)) (r.shift k) := by
  have hafter : ∀ (es : List Event) (r : Reading),
      (r.after es).shift k = (r.shift k).after (es.map (Event.shift k)) := fun es r => by
    simp [Reading.after, Reading.shift]
  induction h with
  | done => exact .done
  | close ht hd => exact .close ht hd
  | @comma depth b t ts r ht hr ih =>
    rw [← Builder.comma_shift] at ih
    exact .comma ht ih
  | @parens depth b t ts o inner r c ht hd ho hi hc hr ihi ihr =>
    have hopen := (b.current t).openParens_shift (k := k) t ts
    have hclose := (b.current t).closeParens_shift (k := k) stop t
      (Token.join (Token.consumed (t :: ts) inner.rest)) inner
    rw [hafter, List.map_append, List.map_append]
    have hopened : o.shift k = ((b.shift k).current (t.shift k)).openParens (t.shift k)
        (ts.map (Token.shift k)) := by
      rw [Builder.current_shift, hopen, ho]
    have hclosed : (c.1.shift k, c.2.map (Event.shift k)) =
        ((b.shift k).current (t.shift k)).closeParens (stop + k) (t.shift k)
          (Token.join (Token.consumed ((t :: ts).map (Token.shift k)) (inner.shift k).rest))
          (inner.shift k) := by
      rw [Builder.current_shift, hc, ← hclose, Reading.shift, Token.consumed_map_shift,
        Token.join_map_shift]
    exact @Reads.parens (stop + k) depth (b.shift k) (t.shift k) _ (o.shift k) (inner.shift k) _
      (c.1.shift k, c.2.map (Event.shift k)) ht hd hopened ihi hclosed ihr
  | @node depth b t ts s r hclose hcomma hparen hs hr ih =>
    rw [hafter]
    have hstep : s.shift k = ((b.shift k).current (t.shift k)).step depth (t.shift k)
        (ts.map (Token.shift k)) := by
      rw [Builder.current_shift, Draft.step_shift, hs]
    exact @Reads.node (stop + k) depth (b.shift k) (t.shift k) _ (s.shift k) _ hclose hcomma
      hparen hstep ih

end Selectors
