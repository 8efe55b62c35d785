import Selectors.Proofs.Items
import Selectors.Proofs.Reads
import Selectors.Proofs.Tokens

/-!
# Drafts cover the tokens read

A draft *covers* a text from a position on if it prints to that text, its nodes are laid out
there one after the other, and everything inside them lies where the text has it.  Each way of
reading a node keeps this true, the text growing by the tokens that were taken
(`Draft.Covers.step`).
-/

namespace Selectors

/-! ### Layout inside items -/

theorem Comment.extent_eq (cs : List Comment) :
    extent 0 Comment.print cs = (Comment.printAll cs).utf8ByteSize := by
  induction cs with
  | nil => rfl
  | cons c cs ih => simp [extent, Comment.printAll, String.utf8ByteSize_append, ih]

theorem NthNode.extent_eq (ns : List NthNode) :
    extent 0 NthNode.print ns = (NthNode.printAll ns).utf8ByteSize := by
  induction ns with
  | nil => rfl
  | cons n ns ih => simp [extent, NthNode.printAll, String.utf8ByteSize_append, ih]

theorem Node.extent_eq (ns : List Node) :
    extent 0 Node.print ns = (Node.printAll ns).utf8ByteSize := by
  induction ns with
  | nil => rfl
  | cons n ns ih => simp [extent, Node.printAll, String.utf8ByteSize_append, ih]

theorem laid_map {α β : Type} {gap p : Nat} {span : β → Span} {print : β → String} (f : α → β)
    (as : List α) :
    Laid gap span print p (as.map f) ↔
      Laid gap (fun a => span (f a)) (fun a => print (f a)) p as := by
  induction as generalizing p with
  | nil => exact Iff.rfl
  | cons a as ih => simp [Laid, ih]

/-- The comments around the bar stand where the namespace has them. -/
def Namespace.Arranged (p : Nat) (ns : Namespace) : Prop :=
  Laid 0 Comment.span Comment.print (p + ns.value.utf8ByteSize) ns.beforeComments ∧
    Laid 0 Comment.span Comment.print
      (p + (ns.value ++ Comment.printAll ns.beforeComments ++ "|").utf8ByteSize) ns.afterComments

/-- The comments inside a mark stand where the mark has them. -/
def Sigil.Arranged (p : Nat) : Sigil → Prop
  | dot cs | colon cs => Laid 0 Comment.span Comment.print (p + 1) cs
  | colons first second =>
    Laid 0 Comment.span Comment.print (p + 1) first ∧
      Laid 0 Comment.span Comment.print (p + (":" ++ Comment.printAll first ++ ":").utf8ByteSize)
        second
  | _ => True

/-- Where the argument list of a functional node starts. -/
def Sigil.argumentsStart (p : Nat) (sigil : Sigil) (name : String) : Nat :=
  p + (sigil.opening ++ name ++ sigil.closing).utf8ByteSize + 1

/-- What an item holds stands in its span where its text has it. -/
def NodeRef.Arranged : NodeRef → Prop
  | selector s => Laid 0 Node.span Node.print (s.span.start + s.before.utf8ByteSize) s.nodes
  | node (.element span _ _ (some ns)) => ns.Arranged span.start
  | node (.functional span sigil _ none) => sigil.Arranged span.start
  | node (.functional span sigil name (some list)) =>
    sigil.Arranged span.start ∧
      Laid 1 Selector.span Selector.print (sigil.argumentsStart span.start name) list
  | node (.nth n) =>
    Laid 0 NthNode.span NthNode.print (n.span.start + n.before.utf8ByteSize) n.nodes ∧ n.after = ""
  | node (.compound span nodes _) => Laid 0 Node.span Node.print span.start nodes
  | _ => True

/-! ### Drafts -/

/-- Blanks and the nodes after them, last one first, print to `w` and lie where `w` has them when
it starts at `p`. -/
structure Cover (p : Nat) (before : String) (nodes : List Node) (w : String) : Prop where
  print : before ++ Node.printAll nodes.reverse = w
  laid : Laid 0 Node.span Node.print (p + before.utf8ByteSize) nodes.reverse

namespace Cover

variable {p : Nat} {before v w : String} {n : Node} {ms ns : List Node}

theorem nil (p : Nat) (before : String) : Cover p before [] before :=
  ⟨by simp [Node.printAll], trivial⟩

theorem append_iff :
    Cover p before (ms ++ ns) w ↔
      ∃ v, w = v ++ Node.printAll ms.reverse ∧ Cover p before ns v ∧
        Laid 0 Node.span Node.print (p + v.utf8ByteSize) ms.reverse := by
  constructor
  · rintro ⟨hp, hl⟩
    rw [List.reverse_append] at hp hl
    obtain ⟨hl₁, hl₂⟩ := laid_append.1 hl
    refine ⟨before ++ Node.printAll ns.reverse, ?_, ⟨rfl, hl₁⟩, ?_⟩
    · rw [← hp, Node.printAll_append, String.append_assoc]
    · rwa [String.utf8ByteSize_append, ← Nat.add_assoc, ← Node.extent_eq]
  · rintro ⟨v, rfl, ⟨rfl, hl₁⟩, hl₂⟩
    refine ⟨?_, ?_⟩
    · rw [List.reverse_append, Node.printAll_append, String.append_assoc]
    · rw [List.reverse_append]
      refine laid_append.2 ⟨hl₁, ?_⟩
      rwa [String.utf8ByteSize_append, ← Nat.add_assoc, ← Node.extent_eq] at hl₂

theorem cons_iff :
    Cover p before (n :: ns) w ↔
      ∃ v, w = v ++ n.print ∧ Cover p before ns v ∧
        n.span = .ofText (p + v.utf8ByteSize) n.print := by
  rw [← List.singleton_append, append_iff]
  simp [Laid, Node.printAll]

theorem push (h : Cover p before ns w) (hn : n.span = .ofText (p + w.utf8ByteSize) n.print) :
    Cover p before (n :: ns) (w ++ n.print) := cons_iff.2 ⟨w, rfl, h, hn⟩

/-- The last node may take in the text of the token after it. -/
theorem stretch {n' : Node} {t : Token} (h : Cover p before (n :: ns) w)
    (ht : t.span = .ofText (p + w.utf8ByteSize) t.text) (hp : n'.print = n.print ++ t.text)
    (hs : n'.span = ⟨n.span.start, t.span.stop⟩) : Cover p before (n' :: ns) (w ++ t.text) := by
  obtain ⟨v, rfl, hc, hn⟩ := cons_iff.1 h
  refine cons_iff.2 ⟨v, by rw [hp, String.append_assoc], hc, ?_⟩
  rw [hs, hn, ht, hp, Span.ofText_append, Span.stop_ofText, Span.start_ofText,
    String.utf8ByteSize_append, Span.mk.injEq]
  exact ⟨rfl, by omega⟩

/-- Text in front counts as blanks. -/
theorem after (h : Cover (p + v.utf8ByteSize) before ns w) : Cover p (v ++ before) ns (v ++ w) := by
  refine ⟨by rw [← h.print, String.append_assoc], ?_⟩
  rw [String.utf8ByteSize_append, ← Nat.add_assoc]
  exact h.laid

/-- The text of the first node may count as blanks before the others. -/
theorem shed (h : Cover p before (ns ++ [n]) w) : Cover p (before ++ n.print) ns w := by
  obtain ⟨hp, hl⟩ := h
  rw [List.reverse_append] at hp hl
  refine ⟨?_, ?_⟩
  · rw [← hp, Node.printAll_append]
    simp [Node.printAll, String.append_assoc]
  · rw [String.utf8ByteSize_append, ← Nat.add_assoc]
    exact hl.2

end Cover

/-- The draft starts at `p`, prints to `w`, and all in it lies where `w` has it. -/
structure Draft.Covers (d : Draft) (p : Nat) (w : String) : Prop where
  start : d.start = p
  cover : Cover p d.before d.nodes w
  inner : ∀ n ∈ d.nodes, (NodeRef.node n).Every NodeRef.Arranged

/-- A draft that took tokens from the front of `ts` and covers them. -/
def Step.Takes (s : Step) (p : Nat) (w : String) (ts : List Token) : Prop :=
  ∃ us, us ++ s.rest = ts ∧ s.draft.Covers p (w ++ Token.join us)

namespace Draft

variable {d : Draft} {p : Nat} {w : String}

theorem covers_new (p : Nat) : Draft.Covers { start := p } p "" := ⟨rfl, .nil p "", by simp⟩

theorem Covers.push (h : d.Covers p w) {n : Node}
    (hn : n.span = .ofText (p + w.utf8ByteSize) n.print)
    (hi : (NodeRef.node n).Every NodeRef.Arranged) : (d.push n).Covers p (w ++ n.print) := by
  refine ⟨h.start, h.cover.push hn, ?_⟩
  simp only [Draft.push, List.mem_cons]
  rintro m (rfl | hm)
  · exact hi
  · exact h.inner m hm

/-- The last nodes can be taken off. -/
theorem Covers.pop {ms ns : List Node} (h : d.Covers p w) (hd : d.nodes = ms ++ ns) :
    ∃ v, w = v ++ Node.printAll ms.reverse ∧ ({ d with nodes := ns } : Draft).Covers p v ∧
      Laid 0 Node.span Node.print (p + v.utf8ByteSize) ms.reverse := by
  obtain ⟨v, hv, hc, hl⟩ := Cover.append_iff.1 (hd ▸ h.cover)
  exact ⟨v, hv, ⟨h.start, hc, fun n hn => h.inner n (by simp [hd, hn])⟩, hl⟩

/-! ### Names -/

theorem printAll_map_ofToken (ts : List Token) :
    Comment.printAll (ts.map .ofToken) = Token.join ts := by
  induction ts with
  | nil => rfl
  | cons t ts ih => simp [Comment.printAll, Token.join, Comment.print, Comment.ofToken, ih]

theorem laid_map_ofToken {p : Nat} {ts : List Token} (h : Laid 0 Token.span Token.text p ts) :
    Laid 0 Comment.span Comment.print p (ts.map .ofToken) := by
  rw [laid_map]
  simpa [Comment.ofToken, Comment.print] using h

theorem nameStop_eq {q : Nat} {cs : List Comment} {name : Option Token} {rest : List Token}
    (hcs : Laid 0 Comment.span Comment.print q cs)
    (hname : Token.Covering (q + (Comment.printAll cs).utf8ByteSize) (name.toList ++ rest)) :
    nameStop q cs name = q + (Comment.printAll cs ++ nameText name).utf8ByteSize := by
  rw [String.utf8ByteSize_append]
  cases name with
  | some t =>
    have ht := (Token.covering_cons.1 hname).1.1
    simp only [nameStop, ht, Span.stop_ofText, nameText, Option.map_some, Option.getD_some]
    omega
  | none =>
    have hlast := (hcs.tiles (q := q + (Comment.printAll cs).utf8ByteSize)
      (by rw [Comment.extent_eq, Nat.add_zero])).last
    cases hc : cs.getLast? with
    | none => simp_all [nameStop, nameText, Comment.printAll]
    | some c =>
      have := hlast c.span (by simp [List.getLast?_map, hc])
      simpa [nameStop, nameText, hc] using this

/-- Comments cover the tokens they were read from. -/
theorem takeComments_covers {q : Nat} {ts : List Token} (h : Token.Covering q ts) :
    ∃ us, us ++ (takeComments ts).2 = ts ∧
      Token.join us = Comment.printAll (takeComments ts).1 ∧
      Laid 0 Comment.span Comment.print q (takeComments ts).1 := by
  have hts : (Token.takeRun .comment ts).1 ++ (takeComments ts).2 = ts :=
    Token.takeRun_append .comment ts
  refine ⟨(Token.takeRun .comment ts).1, hts, (printAll_map_ofToken _).symm, ?_⟩
  rw [← hts] at h
  exact laid_map_ofToken (Token.covering_append.1 h).1.laid

/-- Comments and the name after them cover the tokens they were read from. -/
theorem name_covers {q : Nat} {ts : List Token} {name : Option Token} {rest : List Token}
    (h : Token.Covering q ts) (hn : name.toList ++ rest = (takeComments ts).2) :
    ∃ us, us ++ rest = ts ∧
      Token.join us = Comment.printAll (takeComments ts).1 ++ nameText name ∧
      Laid 0 Comment.span Comment.print q (takeComments ts).1 ∧
      nameStop q (takeComments ts).1 name = q + (Token.join us).utf8ByteSize := by
  obtain ⟨us, hus, hjoin, hlaid⟩ := takeComments_covers h
  have hname : Token.join name.toList = nameText name := by
    cases name <;> simp [nameText, Token.join]
  refine ⟨us ++ name.toList, ?_, ?_, hlaid, ?_⟩
  · rw [List.append_assoc, hn, hus]
  · rw [Token.join_append, hjoin, hname]
  · rw [← hus] at h
    rw [nameStop_eq hlaid (by rw [hn, ← hjoin]; exact (Token.covering_append.1 h).2),
      Token.join_append, hjoin, hname]

end Draft

end Selectors
