import Selectors.Parser.Draft
import Selectors.Token.Lexer

/-!
# Trees and tokens moved to the right

Moving a tree adds a constant to both ends of every span in it: those of its selectors, nodes and
parts of expressions, and those of the comments that sigils and namespaces hold.  Nothing else
changes.

Moves on tokens look at the kinds of tokens only, so they commute with moving the tokens
(`Token.take?_map_shift`, `Block.read_map_shift`).
-/

namespace Selectors

/-! ### Records -/

/-- The token moved `k` bytes to the right. -/
def Token.shift (k : Nat) (t : Token) : Token := { t with span := t.span.shift k }

/-- The comment moved `k` bytes to the right. -/
def Comment.shift (k : Nat) (c : Comment) : Comment := { c with span := c.span.shift k }

/-- The combinator moved `k` bytes to the right. -/
def Combinator.shift (k : Nat) (c : Combinator) : Combinator := { c with span := c.span.shift k }

/-- The namespace with its comments moved. -/
def Namespace.shift (k : Nat) (ns : Namespace) : Namespace :=
  { ns with
    beforeComments := ns.beforeComments.map (Comment.shift k)
    afterComments := ns.afterComments.map (Comment.shift k) }

/-- The sigil with its comments moved. -/
def Sigil.shift (k : Nat) : Sigil → Sigil
  | dot comments => dot (comments.map (Comment.shift k))
  | hash => hash
  | brackets => brackets
  | colon comments => colon (comments.map (Comment.shift k))
  | colons first second =>
    colons (first.map (Comment.shift k)) (second.map (Comment.shift k))
  | ampersand => ampersand

/-- The item of an expression moved `k` bytes to the right. -/
def NthNode.shift (k : Nat) : NthNode → NthNode
  | part role p => part role { p with span := p.span.shift k }
  | comment c => comment (c.shift k)

/-- The expression with all its items moved. -/
def Nth.shift (k : Nat) (n : Nth) : Nth :=
  { n with span := n.span.shift k, nodes := n.nodes.map (NthNode.shift k) }

/-- The event with the positions in it moved. -/
def Event.shift (k : Nat) : Event → Event
  | unclosedAttribute span => unclosedAttribute (span.shift k)
  | unexpectedToken kind start => unexpectedToken kind (start + k)
  | tooDeep depth span => tooDeep depth (span.shift k)
  | strayParens span => strayParens (span.shift k)
  | invalidNamespace start error => invalidNamespace (start + k) error
  | extraCombinator start => extraCombinator (start + k)
  | elementInsideCompound start => elementInsideCompound (start + k)
  | e => e

/-! ### Selectors and nodes -/

mutual

/-- The selector and everything in it moved `k` bytes to the right. -/
def Selector.shift (k : Nat) : Selector → Selector
  | ⟨span, before, after, nodes⟩ => ⟨span.shift k, before, after, Node.shiftAll k nodes⟩

/-- The node and everything in it moved `k` bytes to the right. -/
def Node.shift (k : Nat) : Node → Node
  | .element span kind name ns => .element (span.shift k) kind name (ns.map (Namespace.shift k))
  | .functional span sigil name args =>
    .functional (span.shift k) (sigil.shift k) name (Selector.shiftArguments k args)
  | .combinator c => .combinator (c.shift k)
  | .comment c => .comment (c.shift k)
  | .invalid span text => .invalid (span.shift k) text
  | .nth n => .nth (n.shift k)
  | .compound span nodes invalid => .compound (span.shift k) (Node.shiftAll k nodes) invalid

/-- The nodes moved. -/
def Node.shiftAll (k : Nat) : List Node → List Node
  | [] => []
  | n :: ns => n.shift k :: Node.shiftAll k ns

/-- The argument list moved. -/
def Selector.shiftArguments (k : Nat) : Option (List Selector) → Option (List Selector)
  | none => none
  | some list => some (Selector.shiftAll k list)

/-- The selectors moved. -/
def Selector.shiftAll (k : Nat) : List Selector → List Selector
  | [] => []
  | s :: ss => s.shift k :: Selector.shiftAll k ss

end

theorem Node.shiftAll_eq_map (k : Nat) (ns : List Node) : shiftAll k ns = ns.map (shift k) := by
  induction ns with
  | nil => rfl
  | cons n ns ih => rw [shiftAll, ih, List.map_cons]

theorem Selector.shiftAll_eq_map (k : Nat) (ss : List Selector) :
    shiftAll k ss = ss.map (shift k) := by
  induction ss with
  | nil => rfl
  | cons s ss ih => rw [shiftAll, ih, List.map_cons]

theorem Selector.shift_eq (k : Nat) (s : Selector) :
    s.shift k = ⟨s.span.shift k, s.before, s.after, s.nodes.map (Node.shift k)⟩ := by
  rw [← Node.shiftAll_eq_map]
  cases s
  rfl

@[simp] theorem Node.span_shift (k : Nat) (n : Node) : (n.shift k).span = n.span.shift k := by
  cases n <;> rfl

@[simp] theorem Combinator.print_shift (k : Nat) (c : Combinator) : (c.shift k).print = c.print :=
  rfl

@[simp] theorem Comment.isSpacing_shift (k : Nat) (c : Comment) :
    (c.shift k).isSpacing = c.isSpacing := rfl

/-! ### Moves on tokens -/

section

variable (k : Nat)

@[simp] theorem Token.kind_shift (t : Token) : (t.shift k).kind = t.kind := rfl

@[simp] theorem Token.text_shift (t : Token) : (t.shift k).text = t.text := rfl

@[simp] theorem Token.span_shift (t : Token) : (t.shift k).span = t.span.shift k := rfl

@[simp] theorem Token.join_map_shift (ts : List Token) : join (ts.map (shift k)) = join ts := by
  induction ts with
  | nil => rfl
  | cons t ts ih => rw [List.map_cons, join, join, ih, text_shift]

theorem Token.takeWhile_map_shift (p : TokenKind → Bool) (ts : List Token) :
    (ts.map (shift k)).takeWhile (fun t => p t.kind) =
      (ts.takeWhile fun t => p t.kind).map (shift k) :=
  List.takeWhile_map ..

theorem Token.dropWhile_map_shift (p : TokenKind → Bool) (ts : List Token) :
    (ts.map (shift k)).dropWhile (fun t => p t.kind) =
      (ts.dropWhile fun t => p t.kind).map (shift k) :=
  List.dropWhile_map ..

theorem Token.take?_map_shift (kind : TokenKind) (ts : List Token) :
    take? kind (ts.map (shift k)) =
      ((take? kind ts).1.map (shift k), (take? kind ts).2.map (shift k)) := by
  cases ts with
  | nil => rfl
  | cons t ts =>
    rw [List.map_cons, take?, take?, kind_shift]
    split <;> rfl

end

namespace Block

variable (k : Nat)

/-- The block moved `k` bytes to the right. -/
def shift (b : Block) : Block :=
  ⟨b.inside.map (Token.shift k), b.closer.map (Token.shift k), b.rest.map (Token.shift k)⟩

@[simp] theorem taken_shift (b : Block) : (b.shift k).taken = b.taken.map (Token.shift k) := by
  cases h : b.closer <;> simp [taken, shift, h]

theorem closed?_map_shift (opener closer : TokenKind) (level : Nat) (ts : List Token) :
    closed? opener closer level (ts.map (Token.shift k)) =
      (closed? opener closer level ts).map fun b =>
        ⟨b.inside.map (Token.shift k), b.closer.shift k, b.rest.map (Token.shift k)⟩ := by
  fun_induction closed? opener closer level ts with
  | case1 => rfl
  | case2 level t ts ho ih => simp [closed?, ho, ih, Function.comp_def]
  | case3 t ts ho hc =>
    have hne : closer ≠ opener := hc ▸ ho
    simp [closed?, hc, hne]
  | case4 t ts ho hc level ih =>
    have hne : closer ≠ opener := hc ▸ ho
    simp [closed?, hc, hne, ih, Function.comp_def]
  | case5 level t ts ho hc ih => simp [closed?, ho, hc, ih, Function.comp_def]

theorem read_map_shift (opener closer : TokenKind) (cut : TokenKind → Bool) (ts : List Token) :
    read opener closer cut (ts.map (Token.shift k)) = (read opener closer cut ts).shift k := by
  rw [read, closed?_map_shift, read]
  cases closed? opener closer 0 ts with
  | some b => rfl
  | none =>
    simp only [Option.map_none, List.takeWhile_map, List.dropWhile_map]
    rfl

end Block

end Selectors
