import Selectors.Tree.View

/-!
# Printing trees

A tree prints to the text it was read from: every item writes its own text between the blanks it
owns, and the selectors of a list are joined by commas.
-/

namespace Selectors

namespace Comment

/-- The comment with the blanks it owns. -/
def print (c : Comment) : String := c.before ++ c.text ++ c.after

/-- Comments one after the other. -/
def printAll : List Comment → String
  | [] => ""
  | c :: cs => c.print ++ printAll cs

@[simp] theorem printAll_append (cs ds : List Comment) :
    printAll (cs ++ ds) = printAll cs ++ printAll ds := by
  induction cs with
  | nil => simp [printAll]
  | cons c cs ih => simp [printAll, ih, String.append_assoc]

end Comment

/-- The namespace and its bar. -/
def Namespace.print (ns : Namespace) : String :=
  ns.value ++ Comment.printAll ns.beforeComments ++ "|" ++ Comment.printAll ns.afterComments

/-- The combinator with the blanks it owns. -/
def Combinator.print (c : Combinator) : String := c.before ++ c.text ++ c.after

namespace NthNode

/-- The item with the blanks it owns. -/
def print : NthNode → String
  | part _ p => p.before ++ p.text ++ p.after
  | comment c => c.print

/-- Items one after the other. -/
def printAll : List NthNode → String
  | [] => ""
  | n :: ns => n.print ++ printAll ns

@[simp] theorem printAll_append (ns ms : List NthNode) :
    printAll (ns ++ ms) = printAll ns ++ printAll ms := by
  induction ns with
  | nil => simp [printAll]
  | cons n ns ih => simp [printAll, ih, String.append_assoc]

end NthNode

/-- The expression with the blanks it owns. -/
def Nth.print (n : Nth) : String := n.before ++ NthNode.printAll n.nodes ++ n.after

namespace Sigil

/-- What a functional node writes in front of its name. -/
def opening : Sigil → String
  | dot comments => "." ++ Comment.printAll comments
  | hash => "#"
  | brackets => "["
  | colon comments => ":" ++ Comment.printAll comments
  | colons first second => ":" ++ Comment.printAll first ++ ":" ++ Comment.printAll second
  | ampersand => ""

/-- What a functional node writes after its name. -/
def closing : Sigil → String
  | brackets => "]"
  | _ => ""

end Sigil

mutual

/-- The text of a selector. -/
def Selector.print : Selector → String
  | ⟨_, before, after, nodes⟩ => before ++ Node.printAll nodes ++ after

/-- The text of a node. -/
def Node.print : Node → String
  | .element _ _ name none => name
  | .element _ _ name (some ns) => ns.print ++ name
  | .functional _ sigil name args =>
    sigil.opening ++ name ++ sigil.closing ++ Selector.printArguments args
  | .combinator c => c.print
  | .comment c => c.print
  | .invalid _ text => text
  | .nth n => n.print
  | .compound _ nodes _ => Node.printAll nodes

/-- Nodes one after the other. -/
def Node.printAll : List Node → String
  | [] => ""
  | n :: ns => n.print ++ Node.printAll ns

/-- An argument list in its parentheses; nothing when there is none. -/
def Selector.printArguments : Option (List Selector) → String
  | none => ""
  | some list => "(" ++ Selector.printList list ++ ")"

/-- Selectors joined by commas. -/
def Selector.printList : List Selector → String
  | [] => ""
  | s :: ss => s.print ++ Selector.printTail ss

/-- Selectors, each after a comma. -/
def Selector.printTail : List Selector → String
  | [] => ""
  | s :: ss => "," ++ s.print ++ Selector.printTail ss

end

@[simp] theorem Node.printAll_append (ns ms : List Node) :
    Node.printAll (ns ++ ms) = Node.printAll ns ++ Node.printAll ms := by
  induction ns with
  | nil => simp [Node.printAll]
  | cons n ns ih => simp [Node.printAll, ih, String.append_assoc]

@[simp] theorem Selector.printTail_append (ss ts : List Selector) :
    Selector.printTail (ss ++ ts) = Selector.printTail ss ++ Selector.printTail ts := by
  induction ss with
  | nil => simp [Selector.printTail]
  | cons s ss ih => simp [Selector.printTail, ih, String.append_assoc]

/-- The text of an item. -/
def NodeRef.print : NodeRef → String
  | selector s => s.print
  | node n => n.print
  | part p => p.print

/-- The text of items side by side: selectors are joined by commas, others just follow. -/
def Siblings.print : Siblings → String
  | selectors l => Selector.printList l
  | nodes l => Node.printAll l
  | parts l => NthNode.printAll l
  | single r => r.print

end Selectors
