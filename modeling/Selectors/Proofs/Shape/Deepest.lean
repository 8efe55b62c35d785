import Selectors.Proofs.Canonical.Parse
import Selectors.Proofs.Shape.WellFormed

/-!
# Texts that are nested too deep

`nest n text` is a text in the parentheses of `n` pseudo-classes, one inside the other.  If it is
nested once more than `maxDepth` allows, its tree is nested as deep as trees may be: the innermost
pseudo-class has no list, and the parenthesis behind it is one invalid node (`parse_nest`).
-/

namespace Selectors

open Lexer

/-- The text in the parentheses of `n` pseudo-classes. -/
def nest : Nat → String → String
  | 0, text => text
  | n + 1, text => ":is(" ++ nest n text ++ ")"

/-- A selector with `n` lists in one another.  In the innermost one a pseudo-class has no list, and
its parenthesis is invalid. -/
structure Deepest (n : Nat) (text : String) (s : Selector) : Prop where
  nesting : s.nesting = n
  innermost : ∃ d span span', NodeRef.Within (.selector d) (.selector s) ∧
    d.nodes = [.functional span (.colon []) "is" none, .invalid span' text]

variable {stop depth n : Nat} {name text : String} {rest : List Char}

theorem deepest_zero {s : Selector} {span span' : Span}
    (hs : s.nodes = [.functional span (.colon []) "is" none, .invalid span' text]) :
    Deepest 0 text s where
  nesting := by
    obtain ⟨_, _, _, nodes⟩ := s
    subst hs
    simp [Selector.nesting, Node.nestingAll, Node.nesting, Selector.nestingArguments]
  innermost := ⟨s, span, span', .self, hs⟩

/-- A list around it is one more. -/
theorem Deepest.succ {s t : Selector} {span : Span} {sigil : Sigil} (h : Deepest n text s)
    (ht : t.nodes = [.functional span sigil name (some [s])]) : Deepest (n + 1) text t where
  nesting := by
    obtain ⟨_, _, _, nodes⟩ := t
    subst ht
    simp [Selector.nesting, Node.nestingAll, Node.nesting, Selector.nestingArguments,
      Selector.nestingAll, h.nesting]
  innermost := by
    obtain ⟨d, span', span'', hd, hnodes⟩ := h.innermost
    refine ⟨d, span', span'', hd.trans ?_, hnodes⟩
    have hlist : NodeRef.Within (.selector s) (.node (.functional span sigil name (some [s]))) :=
      .child (List.mem_singleton_self _) .self
    exact .child (by simp [NodeRef.children, Siblings.toList, ht]) hlist

section

variable {d : Draft} {span span' : Span} {sigil : Sigil} {args : Option (List Selector)}

theorem Draft.nodes_close_functional (hd : d.nodes = []) (x : Nat) :
    ((d.push (.functional span sigil name args)).close x).nodes =
      [.functional span sigil name args] := by
  simp [close, Selector.trim, push, hd, Edge.trim]

theorem Draft.nodes_close_invalid (hd : d.nodes = []) (x : Nat) :
    (((d.push (.functional span sigil name args)).push (.invalid span' text)).close x).nodes =
      [.functional span sigil name args, .invalid span' text] := by
  simp [close, Selector.trim, push, hd, Edge.trim]

end

/-- Parentheses at the greatest depth are read as one invalid node. -/
theorem leads_tooDeep {b : Builder} {d : Draft} {t u v : Token} {ts : List Token}
    (ht : t.kind = .openParen) (hu : u.kind = .text) (hv : v.kind = .closeParen) :
    Leads stop maxDepth (b.set d) (t :: u :: v :: ts)
      (b.set (d.push (.invalid ⟨t.span.start, v.span.stop⟩ (t.text ++ u.text ++ v.text)))) ts := by
  have hblock : Block.closed? .openParen .closeParen 0 (u :: v :: ts) = some ⟨[u], v, ts⟩ := by
    simp [Block.closed?, hu, hv]
  have hstep : ((b.set d).current t).step maxDepth t (u :: v :: ts) =
      ⟨d.push (.invalid ⟨t.span.start, v.span.stop⟩ (t.text ++ u.text ++ v.text)), ts,
        [.tooDeep maxDepth ⟨t.span.start, v.span.stop⟩]⟩ := by
    simp [Draft.step, ht, Draft.stepTooDeep, Block.read, hblock, Block.taken, Builder.set,
      Builder.current, Token.join, String.append_assoc]
  intro r hr
  exact ⟨_, .node (by simp [ht]) (by simp [ht]) (by simp) hstep.symm hr⟩

/-- The pseudo-class in front of its parenthesis. -/
theorem leads_is (stop depth p : Nat) (cs : List Char) :
    ∃ (d : Draft) (span : Span) (t : Token) (q : Nat),
      d.nodes = [] ∧ t.kind = .openParen ∧ t.text = "(" ∧
      Leads stop depth {} (cut p (":is(".toList ++ cs))
        (({} : Builder).set (d.push (.functional span (.colon []) "is" none))) (t :: cut q cs) := by
  obtain ⟨u, r, hcut, hu, -⟩ := cut_delimiter p ("is(".toList ++ cs)
    (rfl : TokenKind.ofDelimiter? ':' = some .colon)
  obtain ⟨span, q, hmark⟩ := leads_mark stop depth p {} (({} : Builder).current u)
    (show (Sigil.colon []).Fits "is" from ⟨rfl, by decide⟩) (breaks_cons rfl : Breaks ('(' :: cs))
  obtain ⟨t, q', hcut', ht, htext⟩ :=
    cut_delimiter q cs (rfl : TokenKind.ofDelimiter? '(' = some .openParen)
  have htext' : ((Sigil.colon []).opening ++ "is" ++ (Sigil.colon []).closing).toList ++ '(' :: cs =
      ':' :: ("is(".toList ++ cs) := rfl
  rw [htext', hcut, hcut'] at hmark
  refine ⟨({} : Builder).current u, span, t, q', rfl, ht, htext, ?_⟩
  have hfirst : cut p (":is(".toList ++ cs) = u :: cut r ("is(".toList ++ cs) := hcut
  rw [hfirst]
  exact (Leads.start (by rw [hu]; decide)).trans hmark

/-- **A text that is nested too deep is read** down to the last depth that there is. -/
theorem leads_nest (stop : Nat) (hname : IsName name) (hdepth : n + depth = maxDepth)
    (rest : List Char) (p : Nat) :
    ∃ d q, Leads stop depth {} (cut p ((nest (n + 1) name).toList ++ rest))
        (({} : Builder).set d) (cut q rest) ∧
      ∀ x, Deepest n ("(" ++ name ++ ")") (d.close x) := by
  have hsplit (n : Nat) (rest : List Char) : (nest (n + 1) name).toList ++ rest =
      ":is(".toList ++ ((nest n name).toList ++ ')' :: rest) := by
    simp [nest]
  induction n generalizing depth rest p with
  | zero =>
    rw [Nat.zero_add] at hdepth
    subst hdepth
    obtain ⟨d, span, t, q, hd, ht, htext, hlead⟩ :=
      leads_is stop maxDepth p ((nest 0 name).toList ++ ')' :: rest)
    have hbreaks : Breaks (')' :: rest) := breaks_cons rfl
    obtain ⟨u, q₂, hcut, hu, rfl⟩ := cut_name q hname (textRun_of_breaks hbreaks)
    obtain ⟨v, q₃, hcut', hv, hvtext⟩ :=
      cut_delimiter q₂ rest (rfl : TokenKind.ofDelimiter? ')' = some .closeParen)
    rw [nest, hcut, hcut'] at hlead
    refine ⟨_, q₃, hsplit 0 rest ▸ hlead.trans (leads_tooDeep ht hu hv), fun x => ?_⟩
    rw [htext, hvtext]
    exact deepest_zero (Draft.nodes_close_invalid hd x)
  | succ n ih =>
    obtain ⟨d, span, t, q, hd, ht, -, hlead⟩ :=
      leads_is stop depth p ((nest (n + 1) name).toList ++ ')' :: rest)
    have hinside : n + (depth + 1) = maxDepth := by omega
    obtain ⟨e, q₂, hinner, he⟩ := ih hinside (')' :: rest) q
    obtain ⟨c, q₃, hcut, hc, -⟩ :=
      cut_delimiter q₂ rest (rfl : TokenKind.ofDelimiter? ')' = some .closeParen)
    rw [hcut] at hinner
    obtain ⟨es, hread⟩ := hinner _ (.close hc (Nat.succ_pos depth))
    have hplain : (d.push (.functional span (.colon []) "is" none)).takesNth
        (cut q ((nest (n + 1) name).toList ++ ')' :: rest)) = false := rfl
    have hparens := Leads.parens (b := {}) ht (by omega) hplain hread rfl
    exact ⟨_, q₃, hsplit (n + 1) rest ▸ hlead.trans hparens,
      fun x => (he c.span.start).succ (Draft.nodes_close_functional hd x)⟩

/-- **A text that is nested once more than lists may be.**  Its tree is nested `maxDepth` times, and
the innermost parenthesis is one invalid node. -/
theorem parse_nest (hname : IsName name) (offset : Nat) :
    ∃ s, parse (nest (maxDepth + 1) name) offset = [s] ∧
      Deepest maxDepth ("(" ++ name ++ ")") s := by
  generalize hstop : offset + (nest (maxDepth + 1) name).utf8ByteSize = stop
  obtain ⟨d, q, hlead, hd⟩ := leads_nest stop hname (Nat.add_zero maxDepth) [] offset
  rw [List.append_nil, cut_nil] at hlead
  obtain ⟨es, hread⟩ := hlead _ .done
  have hbuilder : ({} : Builder).set d =
      (readList stop 0 {} (cut offset (nest (maxDepth + 1) name).toList)).val.builder :=
    congrArg Reading.builder hread.eq_readList
  refine ⟨d.close stop, ?_, hd stop⟩
  have hparse : parse (nest (maxDepth + 1) name) offset =
      (readList stop 0 {} (cut offset (nest (maxDepth + 1) name).toList)).val.builder.finish stop := by
    subst hstop
    rfl
  rw [hparse, ← hbuilder]
  rfl

end Selectors
