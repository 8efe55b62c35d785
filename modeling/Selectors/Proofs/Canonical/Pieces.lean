import Selectors.Proofs.Canonical.Lexing
import Selectors.Proofs.Coverage.List
import Selectors.Proofs.Grammar.Brackets

/-!
# Reading printed pieces

A piece that a canonical tree prints is read as one node, equal to the one that was printed but for
its span.  `Leads` says that reading comes from one builder to another over a piece of text; pieces
of text that follow each other are then read one after the other (`Leads.trans`).
-/

namespace Selectors

open Lexer

/-- The tokens of characters, the first of which stands at `p`. -/
def cut (p : Nat) (cs : List Char) : List Token := Token.place p (lexemes cs)

variable {stop depth p : Nat} {cs rest : List Char}

/-- The token of the first lexeme, and where the others start. -/
theorem cut_cons {l : Lexeme} (p : Nat) (h : lexemes cs = l :: lexemes rest) :
    ∃ t q, cut p cs = t :: cut q rest ∧ t.kind = l.kind ∧ t.text = l.text :=
  ⟨⟨l.kind, l.text, ⟨p, p + l.text.utf8ByteSize⟩⟩, p + l.text.utf8ByteSize,
    by rw [cut, h]; rfl, rfl, rfl⟩

theorem cut_delimiter {c : Char} {k : TokenKind} (p : Nat) (rest : List Char)
    (h : TokenKind.ofDelimiter? c = some k) :
    ∃ t q, cut p (c :: rest) = t :: cut q rest ∧ t.kind = k ∧ t.text = String.ofList [c] :=
  cut_cons p (lexemes_delimiter h)

theorem cut_name {s : String} (p : Nat) (hs : IsName s) (h : textRun rest = ⟨.text, [], rest⟩) :
    ∃ t q, cut p (s.toList ++ rest) = t :: cut q rest ∧ t.kind = .text ∧ t.text = s :=
  cut_cons p (lexemes_name hs h)

/-! ### Ways of reading -/

/-- Reading comes from one builder to the other over the tokens before `rest`: every reading that
goes on from there is, but for its events, one that started before. -/
def Leads (stop depth : Nat) (b : Builder) (ts : List Token) (b' : Builder) (rest : List Token) :
    Prop :=
  ∀ r, Reads stop depth b' rest r → ∃ es, Reads stop depth b ts (r.after es)

namespace Leads

variable {b b' b'' : Builder} {d : Draft} {t : Token} {ts us vs : List Token}

theorem refl (b : Builder) (ts : List Token) : Leads stop depth b ts b ts := fun _ h => ⟨[], h⟩

theorem trans (h : Leads stop depth b ts b' us) (h' : Leads stop depth b' us b'' vs) :
    Leads stop depth b ts b'' vs := by
  intro r hr
  obtain ⟨es, hes⟩ := h' r hr
  obtain ⟨fs, hfs⟩ := h _ hes
  refine ⟨fs ++ es, ?_⟩
  rw [Reading.after, Reading.after] at hfs
  rwa [Reading.after, List.append_assoc]

/-- A node is read. -/
theorem node {d' : Draft} {es : List Event}
    (ht : t.kind ≠ .closeParen ∧ t.kind ≠ .comma ∧ t.kind ≠ .openParen)
    (hs : d.step depth t ts = ⟨d', us, es⟩) :
    Leads stop depth (b.set d) (t :: ts) (b.set d') us := by
  obtain ⟨hclose, hcomma, hparen⟩ := ht
  intro r hr
  exact ⟨_, .node (fun h => hclose h.1) hcomma (fun h => hparen h.1) hs.symm hr⟩

/-- A comma is read. -/
theorem comma (hk : t.kind = .comma) : Leads stop depth b (t :: ts) (b.comma t) ts := by
  intro r hr
  exact ⟨[], .comma hk hr⟩

end Leads

/-! ### Marks and names -/

section

variable {d : Draft} {t u v : Token} {ts : List Token}

theorem step_dot (hk : t.kind = .dot) (hu : u.kind = .text) :
    d.step depth t (u :: ts) =
      ⟨d.push (.functional ⟨t.span.start, u.span.stop⟩ (.dot []) u.text none), ts, []⟩ := by
  simp [Draft.step, hk, Draft.stepClass, Draft.takeComments, Token.takeRun, Token.take?, hu,
    Draft.nameText, Draft.nameStop]

theorem step_hash (hk : t.kind = .hash) (hu : u.kind = .text) :
    d.step depth t (u :: ts) =
      ⟨d.push (.functional ⟨t.span.start, u.span.stop⟩ .hash u.text none), ts, []⟩ := by
  simp [Draft.step, hk, Draft.stepId, Token.take?, hu, Draft.nameText, Draft.nameStop]

theorem step_colon (hk : t.kind = .colon) (hu : u.kind = .text) :
    d.step depth t (u :: ts) =
      ⟨d.push (.functional ⟨t.span.start, u.span.stop⟩ (.colon []) u.text none), ts, []⟩ := by
  simp [Draft.step, hk, Draft.stepPseudo, Draft.takeComments, Token.takeRun, Token.take?, hu,
    Draft.nameText, Draft.nameStop]

theorem step_colons (hk : t.kind = .colon) (hu : u.kind = .colon) (hv : v.kind = .text) :
    d.step depth t (u :: v :: ts) =
      ⟨d.push (.functional ⟨t.span.start, v.span.stop⟩ (.colons [] []) v.text none), ts, []⟩ := by
  simp [Draft.step, hk, Draft.stepPseudo, Draft.takeComments, Token.takeRun, Token.take?, hu, hv,
    Draft.nameText, Draft.nameStop]

theorem step_ampersand (hk : t.kind = .ampersand) :
    d.step depth t ts = ⟨d.push (.functional t.span .ampersand t.text none), ts, []⟩ := by
  simp [Draft.step, hk]

/-- Tokens without brackets are balanced. -/
theorem balanced_of_plain {us : List Token}
    (hus : ∀ v ∈ us, v.kind ≠ .openBracket ∧ v.kind ≠ .closeBracket) : Grammar.Balanced us := by
  induction us with
  | nil => exact .nil
  | cons v us ih =>
    obtain ⟨ho, hc⟩ := hus v (List.mem_cons_self ..)
    exact .other ho hc (ih fun w hw => hus w (List.mem_cons_of_mem v hw))

theorem step_brackets {us : List Token} (hk : t.kind = .openBracket) (hu : u.kind = .closeBracket)
    (hus : ∀ v ∈ us, v.kind ≠ .openBracket ∧ v.kind ≠ .closeBracket) :
    d.step depth t (us ++ u :: ts) =
      ⟨d.push (.functional ⟨t.span.start, u.span.stop⟩ .brackets (Token.join us) none), ts,
        []⟩ := by
  have hblock : Block.closed? .openBracket .closeBracket 0 (us ++ u :: ts) = some ⟨us, u, ts⟩ :=
    Grammar.closed?_iff.2 ⟨balanced_of_plain hus, hu, rfl⟩
  simp [Draft.step, hk, Draft.stepAttribute, Block.read, hblock]

end

/-- Lexemes are placed one after the other. -/
theorem Token.place_append (ls ms : List Lexeme) (p : Nat) :
    ∃ q, place p (ls ++ ms) = place p ls ++ place q ms := by
  induction ls generalizing p with
  | nil => exact ⟨p, rfl⟩
  | cons l ls ih =>
    obtain ⟨q, hq⟩ := ih (p + l.text.utf8ByteSize)
    exact ⟨q, by rw [List.cons_append, place, hq]; rfl⟩

/-- A placed token has the kind of its lexeme. -/
theorem Token.exists_lexeme_of_mem_place {ls : List Lexeme} {p : Nat} {t : Token}
    (ht : t ∈ place p ls) : ∃ l ∈ ls, t.kind = l.kind := by
  induction ls generalizing p with
  | nil => cases ht
  | cons l ls ih =>
    rcases List.mem_cons.1 ht with rfl | ht
    · exact ⟨l, List.mem_cons_self .., rfl⟩
    · obtain ⟨m, hm, hk⟩ := ih ht
      exact ⟨m, List.mem_cons_of_mem l hm, hk⟩

/-- The tokens of a text inside an attribute, and the tokens after it. -/
theorem cut_brackets {text : String} (p : Nat) (rest : List Char)
    (h : IsAttributeText text.toList) :
    ∃ us u q, cut p (text.toList ++ ']' :: rest) = us ++ u :: cut q rest ∧
      u.kind = .closeBracket ∧ Token.join us = text ∧
      ∀ v ∈ us, v.kind ≠ .openBracket ∧ v.kind ≠ .closeBracket := by
  obtain ⟨q, hq⟩ := Token.place_append (lexemes text.toList) (lexemes (']' :: rest)) p
  obtain ⟨u, q', hu, huk, -⟩ :=
    cut_delimiter q rest (rfl : TokenKind.ofDelimiter? ']' = some .closeBracket)
  refine ⟨Token.place p (lexemes text.toList), u, q', ?_, huk, ?_, fun v hv => ?_⟩
  · rw [cut, lexemes_bracket h, hq]
    exact congrArg _ hu
  · rw [Token.join_place, foldr_lexemes, String.ofList_toList]
  · obtain ⟨l, hl, hk⟩ := Token.exists_lexeme_of_mem_place hv
    rw [hk]
    exact kind_of_mem_lexemes h l hl

/-- The tokens of a mark of one character and the name after it. -/
theorem cut_mark {c : Char} {k : TokenKind} {name : String} (p : Nat)
    (hc : TokenKind.ofDelimiter? c = some k) (hn : IsName name) (h : Breaks rest) :
    ∃ t u q, cut p (c :: (name.toList ++ rest)) = t :: u :: cut q rest ∧ t.kind = k ∧
      u.kind = .text ∧ u.text = name := by
  obtain ⟨t, q, hcut, hk, -⟩ := cut_delimiter p (name.toList ++ rest) hc
  obtain ⟨u, q', hcut', hu, htext⟩ := cut_name q hn (textRun_of_breaks h)
  exact ⟨t, u, q', by rw [hcut, hcut'], hk, hu, htext⟩

/-- **A functional selector is read up to its name.** -/
theorem leads_mark (stop depth : Nat) {sigil : Sigil} {name : String} (p : Nat) (b : Builder)
    (d : Draft) (hf : sigil.Fits name) (h : Breaks rest) :
    ∃ span q, Leads stop depth (b.set d)
      (cut p ((sigil.opening ++ name ++ sigil.closing).toList ++ rest))
      (b.set (d.push (.functional span sigil name none))) (cut q rest) := by
  cases sigil with
  | dot cs =>
    obtain ⟨rfl, hn⟩ := hf
    obtain ⟨t, u, q, hcut, hk, hu, rfl⟩ :=
      cut_mark p (rfl : TokenKind.ofDelimiter? '.' = some .dot) hn h
    have hsplit : ((Sigil.dot []).opening ++ u.text ++ (Sigil.dot []).closing).toList ++ rest =
        '.' :: (u.text.toList ++ rest) := by
      simp [Sigil.opening, Sigil.closing, Comment.printAll]
    rw [hsplit, hcut]
    exact ⟨_, q, .node (by simp [hk]) (step_dot hk hu)⟩
  | hash =>
    obtain ⟨t, u, q, hcut, hk, hu, rfl⟩ :=
      cut_mark p (rfl : TokenKind.ofDelimiter? '#' = some .hash) hf h
    have hsplit : (Sigil.hash.opening ++ u.text ++ Sigil.hash.closing).toList ++ rest =
        '#' :: (u.text.toList ++ rest) := by
      simp [Sigil.opening, Sigil.closing]
    rw [hsplit, hcut]
    exact ⟨_, q, .node (by simp [hk]) (step_hash hk hu)⟩
  | brackets =>
    obtain ⟨t, q, hcut, hk, -⟩ := cut_delimiter p (name.toList ++ ']' :: rest)
      (rfl : TokenKind.ofDelimiter? '[' = some .openBracket)
    obtain ⟨us, u, q', hcut', hu, rfl, hus⟩ := cut_brackets q rest hf
    have hsplit : (Sigil.brackets.opening ++ Token.join us ++ Sigil.brackets.closing).toList ++
        rest = '[' :: ((Token.join us).toList ++ ']' :: rest) := by
      simp [Sigil.opening, Sigil.closing]
    rw [hsplit, hcut, hcut']
    exact ⟨_, q', .node (by simp [hk]) (step_brackets hk hu hus)⟩
  | colon cs =>
    obtain ⟨rfl, hn⟩ := hf
    obtain ⟨t, u, q, hcut, hk, hu, rfl⟩ :=
      cut_mark p (rfl : TokenKind.ofDelimiter? ':' = some .colon) hn h
    have hsplit : ((Sigil.colon []).opening ++ u.text ++ (Sigil.colon []).closing).toList ++
        rest = ':' :: (u.text.toList ++ rest) := by
      simp [Sigil.opening, Sigil.closing, Comment.printAll]
    rw [hsplit, hcut]
    exact ⟨_, q, .node (by simp [hk]) (step_colon hk hu)⟩
  | colons first second =>
    obtain ⟨rfl, rfl, hn⟩ := hf
    obtain ⟨t, q, hcut, hk, -⟩ := cut_delimiter p (':' :: (name.toList ++ rest))
      (rfl : TokenKind.ofDelimiter? ':' = some .colon)
    obtain ⟨u, v, q', hcut', hu, hv, rfl⟩ :=
      cut_mark q (rfl : TokenKind.ofDelimiter? ':' = some .colon) hn h
    have hsplit : ((Sigil.colons [] []).opening ++ v.text ++ (Sigil.colons [] []).closing).toList ++
        rest = ':' :: ':' :: (v.text.toList ++ rest) := by
      simp [Sigil.opening, Sigil.closing, Comment.printAll]
    rw [hsplit, hcut, hcut']
    exact ⟨_, q', .node (by simp [hk]) (step_colons hk hu hv)⟩
  | ampersand =>
    obtain ⟨t, q, hcut, hk, htext⟩ :=
      cut_delimiter p rest (rfl : TokenKind.ofDelimiter? '&' = some .ampersand)
    -- the name is the text of the mark itself
    obtain rfl : name = t.text := htext ▸ hf
    have hsplit : (Sigil.ampersand.opening ++ t.text ++ Sigil.ampersand.closing).toList ++ rest =
        '&' :: rest := by
      simp [Sigil.opening, Sigil.closing, htext]
    rw [hsplit, hcut]
    exact ⟨_, q, .node (by simp [hk]) (step_ampersand hk)⟩

/-! ### Type and universal selectors -/

/-- The kind of the token that an element is named by. -/
def ElementKind.token : ElementKind → TokenKind
  | type => .text
  | universal => .star

theorem cut_element {kind : ElementKind} {name : String} (p : Nat) (hf : kind.Fits name)
    (h : Breaks rest) :
    ∃ t q, cut p (name.toList ++ rest) = t :: cut q rest ∧ t.kind = kind.token ∧
      t.text = name := by
  cases kind with
  | type => exact cut_name p hf (textRun_of_breaks h)
  | universal =>
    obtain rfl : name = "*" := hf
    exact cut_delimiter p rest rfl

section

variable {d : Draft} {t u : Token} {ts : List Token} {kind kind' : ElementKind}

theorem step_element (hk : t.kind = kind.token) :
    d.step depth t ts = ⟨d.push (.element t.span kind t.text none), ts, []⟩ := by
  cases kind <;> simp [Draft.step, hk, ElementKind.token]

theorem Leads.element {b : Builder} (hk : t.kind = kind.token) :
    Leads stop depth (b.set d) (t :: ts) (b.set (d.push (.element t.span kind t.text none)))
      ts := by
  refine .node ?_ (step_element hk)
  cases kind <;> simp [hk, ElementKind.token]

theorem step_bar {span : Span} {value : String} (hk : t.kind = .pipe)
    (hu : u.kind = kind'.token) :
    (d.push (.element span kind value none)).step depth t (u :: ts) =
      ⟨d.push (.element ⟨span.start, u.span.stop⟩ kind' u.text (some { value := value })), ts,
        []⟩ := by
  cases kind' <;>
    simp [Draft.step, hk, Draft.stepBar, Draft.push, Draft.takeComments, Token.takeRun,
      Draft.takeTarget, Token.take?, hu, ElementKind.token, Draft.qualifier?,
      Draft.splitTightComments, Draft.namespaceError, Draft.nameText, Draft.nameStop]

end

/-- **A type or universal selector is read**, with its namespace. -/
theorem leads_head {n : Node} (p : Nat) (b : Builder) (d : Draft) (hn : Canonical.Head n)
    (h : Breaks rest) :
    ∃ n' q, Leads stop depth (b.set d) (cut p (n.print.toList ++ rest)) (b.set (d.push n'))
        (cut q rest) ∧ n'.unplaced = n.unplaced := by
  cases hn with
  | @element span kind name ns hname hns =>
    cases ns with
    | none =>
      obtain ⟨t, q, hcut, hk, rfl⟩ := cut_element p hname h
      refine ⟨.element t.span kind t.text none, q, ?_, rfl⟩
      rw [Node.print, hcut]
      exact .element hk
    | some ns =>
      obtain ⟨value, before, after, error⟩ := ns
      obtain ⟨hvalue, hbefore, hafter, herror⟩ := hns _ rfl
      -- the namespace is read as an element of its own, which the bar then takes over
      obtain ⟨kind', hfits⟩ : ∃ kind' : ElementKind, kind'.Fits value := by
        rcases hvalue with hvalue | hvalue
        · exact ⟨.type, hvalue⟩
        · exact ⟨.universal, hvalue⟩
      dsimp only at hbefore hafter herror
      subst hbefore hafter herror
      have hbar : Breaks ('|' :: (name.toList ++ rest)) := breaks_cons rfl
      obtain ⟨t, q, hcut, hk, rfl⟩ := cut_element p hfits hbar
      obtain ⟨u, q', hcut', hu, -⟩ :=
        cut_delimiter q (name.toList ++ rest) (rfl : TokenKind.ofDelimiter? '|' = some .pipe)
      obtain ⟨v, q'', hcut'', hv, rfl⟩ := cut_element q' hname h
      have hsplit : (Node.element span kind v.text (some ⟨t.text, [], [], none⟩)).print.toList ++
          rest = t.text.toList ++ '|' :: (v.text.toList ++ rest) := by
        simp [Node.print, Namespace.print, Comment.printAll]
      rw [hsplit, hcut, hcut', hcut'']
      exact ⟨_, q'', (Leads.element hk).trans (.node (by simp [hu]) (step_bar hu hv)), rfl⟩

end Selectors
