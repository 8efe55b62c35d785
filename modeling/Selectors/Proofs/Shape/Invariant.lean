import Selectors.Proofs.Canonical.Tree
import Selectors.Proofs.Coverage.List
import Selectors.Proofs.Lexemes

/-!
# What reading a list keeps

There are few ways in which a selector grows while it is read (`Draft.step_cases`): a plain node is
added, or a comment; a bar takes nodes back for a namespace; a gap adds its combinators and
comments; and parentheses give the last node a list.  A property that each of these keeps, and that
holds at the start, holds of all selectors read.

`Reads.Kept` lists what is to be shown of such a property, move by move, and `Reads.Kept.keeps` is
the induction over the reading, made once.  The property may depend on the depth, on the tokens
left, on whether the selector is the first of its list, and on what is known of the list.
`Reads.Invariant` takes the step apart into the ways above, for properties that do not look at the
tokens.
-/

namespace Selectors

/-! ### Tokens that can be read -/

/-- A token has text, that of blanks is blank and that of a delimiter is the delimiter. -/
structure Token.Legible (t : Token) : Prop where
  nonempty : t.text ≠ ""
  blanks : t.kind = .space → IsBlanks t.text
  spelled : t.Spelled

theorem Token.Lexed.legible {p : Nat} {ts : List Token} (h : Lexed p ts) :
    ∀ t ∈ ts, t.Legible := by
  induction ts generalizing p with
  | nil => simp
  | cons t ts ih =>
    refine List.forall_mem_cons.2 ⟨⟨h.text_ne_empty, fun hk => ?_, ?_⟩, ih h.tail⟩
    · have hdescribes := h.described.describes
      rw [hk] at hdescribes
      exact hdescribes.1
    · exact h.covering.spelled t (List.mem_cons_self ..)

/-- A token with text in front leaves no text empty. -/
theorem Token.Legible.join_ne_empty {t : Token} (ht : t.Legible) (ts : List Token) :
    Token.join (t :: ts) ≠ "" := by
  rw [Token.join, ne_eq, String.append_eq_empty_iff]
  exact fun h => ht.nonempty h.1

/-! ### Steps -/

/-- Nodes that tokens spell on their own: no blanks are kept around the comments in their names,
and none of them owns a list. -/
inductive Node.Plain : Node → Prop where
  | element (span : Span) (kind : ElementKind) (name : String) :
    Plain (.element span kind name none)
  | functional (span : Span) (sigil : Sigil) (name : String)
    (h : ∀ c ∈ sigil.comments, c.before = "" ∧ c.after = "") :
    Plain (.functional span sigil name none)
  | invalid (span : Span) (text : String) (h : text ≠ "") : Plain (.invalid span text)

namespace Node.Plain

variable {n : Node}

theorem childless (h : n.Plain) : (NodeRef.node n).children.toList = [] := by
  cases h <;> rfl

theorem not_isFiller (h : n.Plain) : ¬n.isFiller := by
  cases h <;> simp [isFiller]

end Node.Plain

namespace TokenKind

variable {k : TokenKind}

theorem isGap_of_isCombinator (h : k.isCombinator) : k.isGap := by
  cases k with
  | space | plus | greaterThan | tilde => rfl
  | _ => cases h

theorem isCombinator_of_isGap (h : k.isGap) (hk : k ≠ .comment) : k.isCombinator := by
  cases k with
  | space | plus | greaterThan | tilde => rfl
  | comment => exact absurd rfl hk
  | _ => cases h

end TokenKind

namespace Draft

variable {d : Draft} {t : Token} {ts : List Token} {depth : Nat}

theorem bare_takeComments (ts : List Token) :
    ∀ c ∈ (takeComments ts).1, c.before = "" ∧ c.after = "" := by
  simp [takeComments, Comment.ofToken]

theorem bare_splitTightComments (ns : List Node) :
    ∀ c ∈ (splitTightComments ns).1, c.before = "" ∧ c.after = "" := by
  fun_induction splitTightComments ns with
  | case1 c ns hc => simp
  | case2 c ns hc r ih =>
    intro e he
    rcases List.mem_append.1 he with he | he
    · exact ih e he
    · obtain rfl := List.mem_singleton.1 he
      simpa [Comment.isSpacing] using hc
  | case3 ns => simp

/-- A bar adds an element, in place of the nodes in the end that it takes for a namespace. -/
theorem stepBar_cases (d : Draft) (t : Token) (ts : List Token) :
    ∃ span kind name ns dropped old,
      (d.stepBar t ts).draft = { d with nodes := .element span kind name (some ns) :: old } ∧
      d.nodes = dropped ++ old ∧ (∀ n ∈ dropped.getLast?, ¬n.isFiller) ∧
      ∀ c ∈ ns.beforeComments ++ ns.afterComments, c.before = "" ∧ c.after = "" := by
  have hbare := bare_splitTightComments d.nodes
  unfold stepBar
  cases hq : qualifier? d.nodes with
  | none =>
    refine ⟨_, _, _, _, [], d.nodes, rfl, rfl, by simp, fun c hc => ?_⟩
    exact bare_takeComments ts c hc
  | some q =>
    obtain ⟨span, kind, -, hnodes⟩ := nodes_of_qualifier? hq
    refine ⟨_, _, _, _, _, q.nodes, rfl, hnodes, by simp [Node.isFiller], fun c hc => ?_⟩
    unfold qualifier? at hq
    split at hq
    · rename_i comments span' kind' name ns hsplit
      rw [hsplit] at hbare
      obtain rfl := Option.some.inj hq
      exact (List.mem_append.1 hc).elim (hbare c) (bare_takeComments ts c)
    · cases hq

/-- The ways in which a token starts a node. -/
theorem step_cases (d : Draft) (depth : Nat) (ts : List Token) (ht : t.Legible) :
    (∃ kind, (t.kind = .text ∨ t.kind = .star) ∧
        d.step depth t ts = ⟨d.push (.element t.span kind t.text none), ts, []⟩) ∨
      (∃ n rest es, d.step depth t ts = ⟨d.push n, rest, es⟩ ∧ n.Plain ∧ ¬n.isElement) ∨
      (t.kind = .comment ∧ d.step depth t ts = ⟨d.push (.comment (.ofToken t)), ts, []⟩) ∨
      (t.kind = .pipe ∧ d.step depth t ts = d.stepBar t ts) ∨
      (t.kind.isCombinator ∧ d.step depth t ts = d.stepGap t ts) := by
  have bare := bare_takeComments
  unfold step
  cases hk : t.kind with
  | text => exact .inl ⟨_, .inl rfl, rfl⟩
  | star => exact .inl ⟨_, .inr rfl, rfl⟩
  | comment => exact .inr (.inr (.inl ⟨rfl, rfl⟩))
  | pipe => exact .inr (.inr (.inr (.inl ⟨rfl, rfl⟩)))
  | space | plus | greaterThan | tilde => exact .inr (.inr (.inr (.inr ⟨rfl, rfl⟩)))
  | dot => exact .inr (.inl ⟨_, _, _, rfl, .functional _ _ _ (bare ts), by simp [Node.isElement]⟩)
  | hash | ampersand =>
    exact .inr (.inl ⟨_, _, _, rfl, .functional _ _ _ (by simp [Sigil.comments]),
      by simp [Node.isElement]⟩)
  | openParen =>
    exact .inr (.inl ⟨_, _, _, rfl, .invalid _ _ (ht.join_ne_empty _), by simp [Node.isElement]⟩)
  | colon =>
    refine .inr (.inl ?_)
    simp only [stepPseudo]
    split
    · refine ⟨_, _, _, rfl, .functional _ _ _ fun c hc => ?_, by simp [Node.isElement]⟩
      exact (List.mem_append.1 hc).elim (bare _ c) (bare _ c)
    · exact ⟨_, _, _, rfl, .functional _ _ _ (bare ts), by simp [Node.isElement]⟩
  | openBracket =>
    refine .inr (.inl ?_)
    simp only [stepAttribute]
    split
    · exact ⟨_, _, _, rfl, .functional _ _ _ (by simp [Sigil.comments]), by simp [Node.isElement]⟩
    · exact ⟨_, _, _, rfl, .invalid _ _ (ht.join_ne_empty _), by simp [Node.isElement]⟩
  | _ => exact .inr (.inl ⟨_, _, _, rfl, .invalid _ _ ht.nonempty, by simp [Node.isElement]⟩)

end Draft

/-! ### Lists being read -/

/-- What holds of the selectors of a list: `Q` of those that are closed and `P` of the one being
read.  Both are told whether it is the first one. -/
structure Builder.Each (P : Prop → Draft → Prop) (Q : Prop → Selector → Prop) (b : Builder) :
    Prop where
  closed : ∀ i s, b.closed.reverse[i]? = some s → Q (i = 0) s
  draft : ∀ d ∈ b.draft, P (b.closed = []) d

namespace Builder.Each

variable {P P' : Prop → Draft → Prop} {Q : Prop → Selector → Prop} {b : Builder}

theorem empty : Each P Q {} := ⟨by simp, by simp⟩

theorem current (h : b.Each P Q) (hfresh : ∀ first p, P first { start := p }) (t : Token) :
    P (b.closed = []) (b.current t) := by
  cases hd : b.draft with
  | none => simpa [Builder.current, hd] using hfresh _ t.span.start
  | some d => simpa [Builder.current, hd] using h.draft d hd

theorem set (h : b.Each P Q) {d : Draft} (hd : P' (b.closed = []) d) : (b.set d).Each P' Q :=
  ⟨h.closed, by simpa [Builder.set] using hd⟩

/-- The closed selectors and one more. -/
theorem concat (h : b.Each P Q) {s : Selector} (hs : Q (b.closed = []) s) :
    ∀ i u, (b.closed.reverse ++ [s])[i]? = some u → Q (i = 0) u := by
  intro i u hu
  rw [List.getElem?_append] at hu
  split at hu
  · exact h.closed i u hu
  · rename_i hi
    rw [List.getElem?_singleton] at hu
    split at hu
    · rename_i hzero
      obtain rfl := Option.some.inj hu
      have hfirst : (i = 0) = (b.closed = []) := by
        rw [List.length_reverse] at hi hzero
        rw [← List.length_eq_zero_iff, eq_iff_iff]
        omega
      rwa [hfirst]
    · cases hu

theorem comma (h : b.Each P Q) {t : Token}
    (hclose : Q (b.closed = []) ((b.current t).close t.span.start))
    (hfresh : ∀ first p, P' first { start := p }) : (b.comma t).Each P' Q := by
  refine ⟨?_, by simpa [Builder.comma] using hfresh _ _⟩
  rw [Builder.comma, List.reverse_cons]
  exact h.concat hclose

theorem finish (h : b.Each P Q) (stop : Nat)
    (hclose : ∀ first d, P first d → Q first (d.close stop)) :
    ∀ i s, (b.finish stop)[i]? = some s → Q (i = 0) s := by
  cases hd : b.draft with
  | none => simpa [Builder.finish, hd] using h.closed
  | some d =>
    have hlist := h.concat (hclose _ d (h.draft d hd))
    simpa [Builder.finish, hd] using hlist

end Builder.Each

/-! ### Readings -/

namespace Reads

variable {α : Type} {inner : Draft → List Token → α}
  {P : α → Nat → List Token → Prop → Draft → Prop} {Q : α → Nat → Prop → Selector → Prop}

/-- A property `P` of selectors being read and a property `Q` of closed ones that every move of the
reader keeps.  `T` is known of the tokens, and `inner` tells what is known of a list in parentheses
from the selector and the tokens before it. -/
structure Kept (T : Token → Prop) (inner : Draft → List Token → α)
    (P : α → Nat → List Token → Prop → Draft → Prop) (Q : α → Nat → Prop → Selector → Prop) :
    Prop where
  /-- Nothing is read yet. -/
  fresh {a : α} {depth : Nat} {ts : List Token} (first : Prop) (p : Nat) :
    P a depth ts first { start := p }
  step {a : α} {depth : Nat} {first : Prop} {d : Draft} {t : Token} {ts : List Token}
    (h : P a depth (t :: ts) first d) (hts : ∀ u ∈ t :: ts, T u) :
    P a depth (d.step depth t ts).rest first (d.step depth t ts).draft
  /-- Parentheses that are no list are kept with their text. -/
  stray {a : α} {depth : Nat} {first : Prop} {d : Draft} {t : Token} {ts : List Token}
    (h : P a depth (t :: ts) first d) (ht : T t) (span : Span) (us rest : List Token) :
    P a depth rest first (d.push (.invalid span (Token.join (t :: us))))
  /-- A list starts with an expression. -/
  expression {depth : Nat} {d : Draft} {ts : List Token} (p : Nat) (hd : d.takesNth ts)
    (hts : ∀ u ∈ ts, T u) :
    P (inner d ts) (depth + 1) ((NthDraft.start p).read ts).rest True
      { start := p, nodes := [.nth ((NthDraft.start p).read ts).draft.finish] }
  /-- The last node is given a list. -/
  owned {a : α} {depth : Nat} {first : Prop} {d : Draft} {t : Token} {ts : List Token} {span : Span}
    {sigil : Sigil} {name : String} {nodes : List Node} {list : List Selector}
    (h : P a depth (t :: ts) first d) (hd : d.nodes = .functional span sigil name none :: nodes)
    (hdepth : depth < maxDepth)
    (hlist : ∀ i s, list[i]? = some s → Q (inner d ts) (depth + 1) (i = 0) s) (stop : Nat)
    (rest : List Token) :
    P a depth rest first
      { d with nodes := .functional ⟨span.start, stop⟩ sigil name (some list) :: nodes }
  close {a : α} {depth : Nat} {first : Prop} {d : Draft} {ts : List Token}
    (h : P a depth ts first d) (stop : Nat) : Q a depth first (d.close stop)

namespace Kept

variable {T : Token → Prop}

theorem openParens (hK : Kept T inner P Q) (depth : Nat) (d : Draft) (t : Token)
    {ts : List Token} (hts : ∀ u ∈ ts, T u) :
    (d.openParens t ts).builder.Each (P (inner d ts) (depth + 1) (d.openParens t ts).rest)
      (Q (inner d ts) (depth + 1)) := by
  unfold Draft.openParens
  split
  · rename_i htakes
    dsimp only
    split
    · exact .empty
    · refine ⟨by simp, ?_⟩
      simpa using hK.expression t.span.stop htakes hts
  · exact .empty

theorem closeParens (hK : Kept T inner P Q) {a : α} {depth : Nat} {first : Prop} {d : Draft}
    {t : Token} {ts ts' us rest : List Token} {r : Reading} (stop : Nat)
    (h : P a depth (t :: ts) first d) (ht : T t) (hdepth : depth < maxDepth)
    (hr : r.builder.Each (P (inner d ts) (depth + 1) ts') (Q (inner d ts) (depth + 1))) :
    P a depth rest first (d.closeParens stop t (Token.join (t :: us)) r).1 := by
  unfold Draft.closeParens
  split
  · rename_i c span sigil name nodes hcloser hnodes
    exact hK.owned h hnodes hdepth (hr.finish _ fun first d hd => hK.close hd _) _ rest
  · exact hK.stray h ht _ us rest

/-- **What every move of the reader keeps holds of all that is read.** -/
theorem keeps (hK : Kept T inner P Q) {stop depth : Nat} {b : Builder} {ts : List Token}
    {r : Reading} (h : Reads stop depth b ts r) {a : α} (hb : b.Each (P a depth ts) (Q a depth))
    (hts : ∀ t ∈ ts, T t) : ∃ ts', r.builder.Each (P a depth ts') (Q a depth) := by
  induction h generalizing a with
  | @done depth b => exact ⟨[], hb⟩
  | @close depth b t ts ht hd => exact ⟨t :: ts, hb⟩
  | @comma depth b t ts r ht hr ih =>
    refine ih (hb.comma (hK.close (hb.current hK.fresh t) _) hK.fresh) fun u hu => ?_
    exact hts u (List.mem_cons_of_mem t hu)
  | @parens depth b t ts o i r c ht hd ho hi hc hr ihi ihr =>
    obtain ⟨htoken, hts⟩ := List.forall_mem_cons.1 hts
    have hrest : o.rest <:+ ts := ho ▸ (b.current t).openParens_suffix t ts
    have hleft : i.rest <:+ ts := hi.suffix.trans hrest
    have hopen := hK.openParens depth (b.current t) t hts
    rw [← ho] at hopen
    obtain ⟨us, hinner⟩ := ihi hopen fun u hu => hts u (hrest.subset hu)
    -- the block has the parenthesis and what was read after it
    obtain ⟨vs, hvs⟩ := hleft
    have hblock : Token.consumed (t :: ts) i.rest = t :: vs :=
      Token.consumed_of_append (by rw [List.cons_append, hvs])
    refine ihr (hb.set ?_) fun u hu => hts u (hvs ▸ List.mem_append_right vs hu)
    rw [hc, hblock]
    exact hK.closeParens stop (hb.current hK.fresh t) htoken hd hinner
  | @node depth b t ts s r hclose hcomma hparen hs hr ih =>
    have hrest : s.rest <:+ ts := hs ▸ Draft.step_suffix depth (b.current t) t ts
    refine ih (hb.set ?_) fun u hu => hts u (List.mem_cons_of_mem t (hrest.subset hu))
    rw [hs]
    exact hK.step (hb.current hK.fresh t) hts

/-- What every move of the reader keeps holds of the selectors of a text, whatever is taken to be
known of the list. -/
theorem parse (hK : Kept T inner P Q) (a : α) {source : String} {offset : Nat}
    (hT : ∀ t ∈ tokenize source offset, T t) :
    ∀ i s, (parse source offset)[i]? = some s → Q a 0 (i = 0) s := by
  have hr := reads_readList (offset + source.utf8ByteSize) 0 {} (tokenize source offset)
  obtain ⟨ts, hb⟩ := hK.keeps hr (a := a) .empty hT
  exact hb.finish _ fun first d hd => hK.close hd _

end Kept

/-- A property `P` of selectors being read and a property `Q` of closed ones that every way of
reading keeps. -/
structure Invariant (inner : Draft → List Token → α)
    (P : α → Nat → List Token → Prop → Draft → Prop) (Q : α → Nat → Prop → Selector → Prop) :
    Prop where
  /-- Nothing is read yet. -/
  fresh {a : α} {depth : Nat} {ts : List Token} (first : Prop) (p : Nat) :
    P a depth ts first { start := p }
  plain {a : α} {depth : Nat} {first : Prop} {d : Draft} {ts : List Token} {n : Node}
    (h : P a depth ts first d) (hn : n.Plain) (rest : List Token) : P a depth rest first (d.push n)
  comment {a : α} {depth : Nat} {first : Prop} {d : Draft} {t : Token} {ts : List Token}
    (h : P a depth (t :: ts) first d) (ht : t.kind = .comment) :
    P a depth ts first (d.push (.comment (.ofToken t)))
  /-- An element with a namespace comes in the place of nodes in the end. -/
  bar {a : α} {depth : Nat} {first : Prop} {d : Draft} {ts : List Token} {ns : Namespace}
    {dropped old : List Node} (h : P a depth ts first d) (hd : d.nodes = dropped ++ old)
    (hlast : ∀ n ∈ dropped.getLast?, ¬n.isFiller)
    (hns : ∀ c ∈ ns.beforeComments ++ ns.afterComments, c.before = "" ∧ c.after = "")
    (span : Span) (kind : ElementKind) (name : String) (rest : List Token) :
    P a depth rest first { d with nodes := .element span kind name (some ns) :: old }
  gap {a : α} {depth : Nat} {first : Prop} {d : Draft} {t : Token} {ts : List Token}
    (h : P a depth (t :: ts) first d) (ht : t.kind.isCombinator)
    (hts : ∀ u ∈ t :: ts, u.Legible) :
    P a depth (d.stepGap t ts).rest first (d.stepGap t ts).draft
  /-- A list starts with an expression. -/
  expression {depth : Nat} {d : Draft} {ts : List Token} (p : Nat) (hd : d.takesNth ts)
    (hts : ∀ u ∈ ts, u.Legible) :
    P (inner d ts) (depth + 1) ((NthDraft.start p).read ts).rest True
      { start := p, nodes := [.nth ((NthDraft.start p).read ts).draft.finish] }
  /-- The last node is given a list. -/
  owned {a : α} {depth : Nat} {first : Prop} {d : Draft} {t : Token} {ts : List Token} {span : Span}
    {sigil : Sigil} {name : String} {nodes : List Node} {list : List Selector}
    (h : P a depth (t :: ts) first d) (hd : d.nodes = .functional span sigil name none :: nodes)
    (hdepth : depth < maxDepth)
    (hlist : ∀ i s, list[i]? = some s → Q (inner d ts) (depth + 1) (i = 0) s) (stop : Nat)
    (rest : List Token) :
    P a depth rest first
      { d with nodes := .functional ⟨span.start, stop⟩ sigil name (some list) :: nodes }
  close {a : α} {depth : Nat} {first : Prop} {d : Draft} {ts : List Token}
    (h : P a depth ts first d) (stop : Nat) : Q a depth first (d.close stop)

namespace Invariant

theorem step (hI : Invariant inner P Q) {a : α} {depth : Nat} {first : Prop} {d : Draft} {t : Token}
    {ts : List Token} (h : P a depth (t :: ts) first d) (hts : ∀ u ∈ t :: ts, u.Legible) :
    P a depth (d.step depth t ts).rest first (d.step depth t ts).draft := by
  rcases d.step_cases depth ts (hts t (List.mem_cons_self ..)) with
    ⟨kind, -, hstep⟩ | ⟨n, rest, es, hstep, hn, -⟩ | ⟨hk, hstep⟩ | ⟨hk, hstep⟩ | ⟨hk, hstep⟩
  · rw [hstep]
    exact hI.plain h (.element t.span kind t.text) ts
  · rw [hstep]
    exact hI.plain h hn rest
  · rw [hstep]
    exact hI.comment h hk
  · obtain ⟨span, kind, name, ns, dropped, old, hbar, hd, hlast, hns⟩ := d.stepBar_cases t ts
    rw [hstep, hbar]
    exact hI.bar h hd hlast hns span kind name _
  · rw [hstep]
    exact hI.gap h hk hts

theorem kept (hI : Invariant inner P Q) : Kept Token.Legible inner P Q where
  fresh := hI.fresh
  step := hI.step
  stray h ht _ us rest := hI.plain h (.invalid _ _ (ht.join_ne_empty us)) rest
  expression := hI.expression
  owned := hI.owned
  close := hI.close

/-- What every way of reading keeps holds of the selectors of a text, whatever is taken to be known
of the list. -/
theorem parse (hI : Invariant inner P Q) (a : α) (source : String) (offset : Nat) :
    ∀ i s, (parse source offset)[i]? = some s → Q a 0 (i = 0) s :=
  hI.kept.parse a (Token.lexed_tokenize source offset).legible

end Invariant

end Reads

end Selectors
