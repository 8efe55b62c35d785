import Selectors.Proofs.Source
import Selectors.Proofs.Slices.Locality

/-!
# Passages of a reading

A passage is the part of a reading between two places of one list, with every parenthesized block
on the way closed.  A list that a parenthesis closes is a passage up to that parenthesis
(`Reads.passes`), and what is read after a passage continues it (`Passes.reads`).

* `Passes.cut`: a passage does not depend on the tokens behind it, nor on how deep it lies as long
  as no block is too deep.
* `Parsed.parse_eq`: selectors that some text reads as are read again from the text they print.
-/

namespace Selectors

/-- Whether an event tells of a block that was too deep to be read. -/
def Event.isTooDeep : Event → Bool
  | tooDeep _ _ => true
  | _ => false

/-- No parenthesized block was too deep to be read. -/
def Shallow (es : List Event) : Prop := ∀ e ∈ es, e.isTooDeep = false

instance (es : List Event) : Decidable (Shallow es) :=
  inferInstanceAs (Decidable (∀ e ∈ es, e.isTooDeep = false))

theorem shallow_append {es fs : List Event} : Shallow (es ++ fs) ↔ Shallow es ∧ Shallow fs :=
  List.forall_mem_append

/-- Reading tokens into a builder comes to a later builder with the tokens `us` left, and logs
events. -/
inductive Passes : Nat → Builder → List Token → Builder → List Token → List Event → Prop where
  | refl {depth : Nat} {b : Builder} {ts : List Token} : Passes depth b ts b ts []
  | comma {depth : Nat} {b b' : Builder} {t : Token} {ts us : List Token} {es : List Event}
      (ht : t.kind = .comma) (h : Passes depth (b.comma t) ts b' us es) :
      Passes depth b (t :: ts) b' us es
  | parens {depth : Nat} {b b' inner : Builder} {t c : Token} {ts rest us : List Token}
      {o : Opening} {n : Draft × List Event} {es fs : List Event}
      (ht : t.kind = .openParen) (hd : depth < maxDepth)
      (ho : o = (b.current t).openParens t ts)
      (hi : Passes (depth + 1) o.builder o.rest inner (c :: rest) es)
      (hc : c.kind = .closeParen)
      (hn : n = (b.current t).closeParens c.span.stop t
        (Token.join (Token.consumed (t :: ts) rest)) ⟨inner, some c, [], []⟩)
      (h : Passes depth (b.set n.1) rest b' us fs) :
      Passes depth b (t :: ts) b' us (o.events ++ es ++ n.2 ++ fs)
  | node {depth : Nat} {b b' : Builder} {t : Token} {ts us : List Token} {s : Step}
      {es : List Event}
      (hclose : ¬(t.kind = .closeParen ∧ 0 < depth)) (hcomma : t.kind ≠ .comma)
      (hparen : ¬(t.kind = .openParen ∧ depth < maxDepth))
      (hs : s = (b.current t).step depth t ts)
      (h : Passes depth (b.set s.draft) s.rest b' us es) :
      Passes depth b (t :: ts) b' us (s.events ++ es)

namespace Passes

variable {depth : Nat} {b b' b'' : Builder} {ts us vs : List Token} {es fs : List Event}

/-- Passages compose. -/
theorem trans (h : Passes depth b ts b' us es) (h' : Passes depth b' us b'' vs fs) :
    Passes depth b ts b'' vs (es ++ fs) := by
  induction h with
  | refl => exact h'
  | comma ht h ih => exact .comma ht (ih h')
  | parens ht hd ho hi hc hn h ihi ih =>
    rw [List.append_assoc]
    exact .parens ht hd ho hi hc hn (ih h')
  | node hclose hcomma hparen hs h ih =>
    rw [List.append_assoc]
    exact .node hclose hcomma hparen hs (ih h')

theorem suffix (h : Passes depth b ts b' us es) : us <:+ ts := by
  induction h with
  | refl => exact List.suffix_rfl
  | comma ht h ih => exact ih.trans (List.suffix_cons _ _)
  | @parens depth b b' inner t c ts rest us o n es fs ht hd ho hi hc hn h ihi ih =>
    have ho : o.rest <:+ ts := ho ▸ (b.current t).openParens_suffix t ts
    exact ((ih.trans (List.suffix_cons c rest)).trans (ihi.trans ho)).trans (List.suffix_cons t ts)
  | @node depth b b' t ts us s es hclose hcomma hparen hs h ih =>
    have hs : s.rest <:+ ts := hs ▸ Draft.step_suffix depth (b.current t) t ts
    exact (ih.trans hs).trans (List.suffix_cons t ts)

/-- What is read after a passage continues it. -/
theorem reads {stop : Nat} {r : Reading} (h : Passes depth b ts b' us es)
    (hr : Reads stop depth b' us r) : Reads stop depth b ts (r.after es) := by
  induction h generalizing r with
  | refl => exact hr
  | comma ht h ih => exact .comma ht (ih hr)
  | @parens depth b b' inner t c ts rest us o n es fs ht hd ho hi hc hn h ihi ih =>
    -- the inner passage goes on with no more than the closing parenthesis
    have hinner : Reads stop (depth + 1) o.builder o.rest ⟨inner, some c, rest, es⟩ := by
      simpa [Reading.after] using ihi (.close hc (Nat.succ_pos depth))
    have hall := Reads.parens ht hd ho hinner (hn.trans (Draft.closeParens_closed ..).symm)
      (ih hr)
    simpa [Reading.after] using hall
  | node hclose hcomma hparen hs h ih =>
    simpa [Reading.after] using Reads.node hclose hcomma hparen hs (ih hr)

end Passes

/-- **A list that a parenthesis closes is a passage up to that parenthesis.** -/
theorem Reads.passes {stop depth : Nat} {b : Builder} {ts : List Token} {r : Reading} {c : Token}
    (h : Reads stop depth b ts r) (hc : r.closer = some c) :
    Passes depth b ts r.builder (c :: r.rest) r.events := by
  induction h generalizing c with
  | done => cases hc
  | close ht hd =>
    obtain rfl := Option.some.inj hc
    exact .refl
  | comma ht hr ih => exact .comma ht (ih hc)
  | @parens depth b t ts o inner r n ht hd ho hi hn hr ihi ihr =>
    cases hinner : inner.closer with
    | none =>
      -- then no token is left for the closing parenthesis
      have hrest := (ihr hc).suffix
      rw [hi.rest_eq_nil hinner] at hrest
      simp at hrest
    | some c' =>
      obtain ⟨builder, closer, rest, events⟩ := inner
      obtain rfl : closer = some c' := hinner
      exact .parens ht hd ho (ihi rfl) (hi.kind_closer c' rfl)
        (hn.trans (Draft.closeParens_closed ..)) (ihr hc)
  | node hclose hcomma hparen hs hr ih => exact .node hclose hcomma hparen hs (ih hc)

theorem Token.consumed_cut (us vs xs : List Token) :
    consumed (us ++ xs) (vs ++ xs) = consumed us vs := by
  simp only [consumed, List.length_append, Nat.add_sub_add_right]
  exact List.take_append_of_le_length (Nat.sub_le _ _)

/-- Without a block that is too deep, the depth does not matter to a step. -/
theorem Draft.step_shallow {d : Draft} {t : Token} {ts : List Token} {depth depth' : Nat}
    (hparen : ¬(t.kind = .openParen ∧ depth < maxDepth))
    (h : depth' = depth ∨ Shallow (d.step depth t ts).events) :
    ¬(t.kind = .openParen ∧ depth' < maxDepth) ∧ d.step depth' t ts = d.step depth t ts := by
  rcases h with rfl | h
  · exact ⟨hparen, rfl⟩
  · have ht : t.kind ≠ .openParen := by
      intro ht
      simp only [Draft.step, ht, Draft.stepTooDeep] at h
      exact Bool.noConfusion (h _ (List.mem_singleton.2 rfl))
    exact ⟨fun hp => ht hp.1, d.step_depth depth' depth ts ht⟩

/-- **A passage does not depend on the tokens behind it**, nor on its depth if no block is too
deep. -/
theorem Passes.cut {depth depth' : Nat} {b b' : Builder} {ts us vs ws xs : List Token}
    {es : List Event} (h : Passes depth b ts b' ws es) (hts : us ++ xs = ts) (hws : ws = vs ++ xs)
    (hle : depth' ≤ depth) (hdepth : depth' = depth ∨ Shallow es) :
    Passes depth' b us b' vs es := by
  induction h generalizing depth' us vs with
  | refl =>
    rw [List.append_cancel_right (hts.trans hws)]
    exact .refl
  | comma ht h ih =>
    obtain ⟨us, rfl, rfl⟩ := exists_cons_of_suffix hts h.suffix hws
    exact .comma ht (ih rfl hws hle hdepth)
  | @parens depth b b' inner t c ts rest ws o n es fs ht hd ho hi hc hn h ihi ih =>
    obtain ⟨rs, rfl⟩ := exists_append_of_suffix (hws ▸ h.suffix)
    obtain ⟨os, hos⟩ := exists_append_of_suffix (List.cons_append ▸ hi.suffix)
    have ho' : o.rest <:+ ts := ho ▸ (b.current t).openParens_suffix t ts
    obtain ⟨us, rfl, rfl⟩ := exists_cons_of_suffix hts
      ((h.suffix.trans (List.suffix_cons c _)).trans (hi.suffix.trans ho')) hws
    -- the closing parenthesis stands before `xs`
    have hus : us ≠ [] := by
      rintro rfl
      have hlen := (hi.suffix.trans ho').length_le
      simp only [List.length_cons, List.length_append, List.length_nil] at hlen
      omega
    rw [ho] at hos
    have hcut := Draft.openParens_cut hus hos
    rw [← ho] at hcut hos
    rw [← List.cons_append, Token.consumed_cut] at hn
    simp only [shallow_append] at hdepth
    have hinner : Passes (depth' + 1) o.builder os inner (c :: rs) es :=
      ihi hos.symm rfl (Nat.succ_le_succ hle) (hdepth.imp (congrArg _) fun hs => hs.1.1.2)
    have hall := Passes.parens ht (Nat.lt_of_le_of_lt hle hd) hcut.symm hinner hc hn
      (ih rfl hws hle (hdepth.imp_right fun hs => hs.2))
    exact hall
  | @node depth b b' t ts ws s es hclose hcomma hparen hs h ih =>
    obtain ⟨ss, hss⟩ := exists_append_of_suffix (hws ▸ h.suffix)
    have hs' : s.rest <:+ ts := hs ▸ Draft.step_suffix depth (b.current t) t ts
    obtain ⟨us, rfl, rfl⟩ := exists_cons_of_suffix hts (h.suffix.trans hs') hws
    rw [hs] at hss hdepth
    have hcut := Draft.step_cut hss
    rw [← hs] at hcut hss
    -- the step that was cut logs what the step logged, so it does not see the depth either
    have hstep : depth' = depth ∨ Shallow ((b.current t).step depth t us).events := by
      rw [hcut, hs]
      exact hdepth.imp_right fun he => (shallow_append.1 he).1
    obtain ⟨hparen', hs'⟩ := Draft.step_shallow hparen hstep
    rw [hcut] at hs'
    have hall := Passes.node (fun hp => hclose ⟨hp.1, Nat.lt_of_lt_of_le hp.2 hle⟩) hcomma hparen'
      hs'.symm (ih hss.symm hws hle (hdepth.imp_right fun he => (shallow_append.1 he).2))
    exact hall

/-- The tokens of a passage, read alone, lead to where the passage leads. -/
theorem Passes.reads_alone {stop depth : Nat} {b b' : Builder} {us xs : List Token}
    {es : List Event} (h : Passes depth b (us ++ xs) b' xs es) (hdepth : depth = 0 ∨ Shallow es) :
    Reads stop 0 b us ⟨b', none, [], es⟩ := by
  have hcut : Passes 0 b us b' [] es :=
    h.cut rfl (List.nil_append xs).symm (Nat.zero_le depth) (hdepth.imp_left Eq.symm)
  have hreads : Reads stop 0 b us _ := hcut.reads .done
  rwa [Reading.after, List.append_nil] at hreads

/-! ### Texts on their own -/

/-- The selectors are those of some text read on its own, at some offset. -/
def Parsed (list : List Selector) : Prop := ∃ w p, parse w p = list

/-- What the tokens of a text read as is what the text reads as. -/
theorem Reads.parsed {p stop : Nat} {ts : List Token} {r : Reading} (h : Reads stop 0 {} ts r)
    (hts : Token.Lexed p ts) (hstop : stop = p + (Token.join ts).utf8ByteSize) :
    Parsed (r.builder.finish stop) := by
  refine ⟨Token.join ts, p, ?_⟩
  simp only [parse, parseLogged, readSelectors]
  rw [show tokenize (Token.join ts) p = ts from hts, ← hstop, ← h.eq_readList]

theorem parse_empty (offset : Nat) : parse "" offset = [] := by
  have htokens : tokenize "" offset = [] := by simp [tokenize, lexemes, Token.place]
  simp only [parse, parseLogged, readSelectors]
  rw [htokens, ← Reads.done.eq_readList]
  rfl

/-- The text may be taken to be the one that the selectors print, at the place where they lie. -/
theorem Parsed.parse_eq {list : List Selector} {p : Nat} (h : Parsed list)
    (hl : Laid 1 Selector.span Selector.print p list) :
    parse (Selector.printList list) p = list := by
  obtain ⟨w, q, rfl⟩ := h
  obtain ⟨hprint, hlaid, -⟩ := parse_covers w q
  cases hlist : parse w q with
  | nil => exact parse_empty p
  | cons s ss =>
    rw [hlist] at hl hlaid
    obtain rfl : p = q := congrArg Span.start (hl.1.symm.trans hlaid.1)
    rw [← hlist, hprint]

end Selectors
