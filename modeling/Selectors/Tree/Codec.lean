import Selectors.Json.Decode
import Selectors.Tree.View

/-!
# Trees as JSON

Every selector, node and part of an expression is written as an object with its kind as `type`;
comments inside a mark or a namespace have no `type`.  A missing namespace, error or argument list
is left out, so that no argument list and an empty one differ.

* `Selector.toJson`, `Node.toJson` and `NthNode.toJson` write a tree.
* `Selector.ofJson?`, `Node.ofJson?` and `NthNode.ofJson?` read one.  The `type` of a selector is
  not looked at.  Flags, inner comments and the blanks of comments and parts may be missing.  Inside
  another node a kind may also be given by its place among the kinds that are allowed there.
-/

namespace Selectors

/-! ### Fields -/

/-- The fields of the items of a kind, in order, without the `type`. -/
def NodeKind.fields (k : NodeKind) : List String :=
  "start" :: "end" ::
    match k with
    | .selector | .nth => ["before", "after", "nodes"]
    | .typeSelector | .universal => ["value", "namespace"]
    | .classSelector => ["value", "dotComments", "nodes"]
    | .pseudoClass | .pseudoElement => ["value", "colonComments", "nodes"]
    | .idSelector | .attributeSelector | .nesting => ["value", "nodes"]
    | .combinator => ["combinator", "value", "before", "after", "invalid"]
    | .comment => ["value", "before", "after"]
    | .invalid => ["value"]
    | .nthStep | .nthDash | .nthOffset | .nthOf => ["value", "before", "after", "invalid"]
    | .compound => ["nodes", "invalid"]

/-- The kinds of nodes. -/
def Node.kinds : List NodeKind :=
  [.typeSelector, .universal, .classSelector, .idSelector, .attributeSelector, .pseudoClass,
    .pseudoElement, .nesting, .combinator, .comment, .invalid, .nth, .compound]

/-- The kinds of items of an expression. -/
def NthNode.kinds : List NodeKind := [.nthStep, .nthDash, .nthOffset, .nthOf, .comment]

/-- The kind, one of `kinds`, that a tagged record gives.  Inside another node a number may stand
for it. -/
def Json.kind? (inside : Bool) (kinds : List NodeKind) (j : Json) : Option NodeKind :=
  match j.field? ["type"] "type" with
  | some (.string s) => kinds.find? fun k => k.name == s
  | some (.number (.int i)) => if inside ∧ 0 ≤ i then kinds[i.toNat]? else none
  | _ => none

/-! ### Writing -/

/-- The fields of a span. -/
def Span.toFields (s : Span) : List (String × Json) :=
  [("start", .nat s.start), ("end", .nat s.stop)]

namespace Comment

/-- The fields of a comment. -/
def toFields (c : Comment) : List (String × Json) :=
  c.span.toFields ++
    [("value", .string c.text), ("before", .string c.before), ("after", .string c.after)]

/-- Comments without their kind. -/
def allToJson (cs : List Comment) : Json := .array (cs.map fun c => .object c.toFields)

end Comment

/-- The object of a namespace. -/
def Namespace.toJson (ns : Namespace) : Json :=
  .object <|
    [("value", .string ns.value), ("beforeComments", Comment.allToJson ns.beforeComments),
      ("afterComments", Comment.allToJson ns.afterComments)] ++
    ns.error.toList.map fun e => ("invalid", .string e.name)

/-- The fields of a combinator. -/
def Combinator.toFields (c : Combinator) : List (String × Json) :=
  c.span.toFields ++
    [("combinator", .string c.kind.name), ("value", .string c.text), ("before", .string c.before),
      ("after", .string c.after), ("invalid", .bool c.invalid)]

namespace NthNode

/-- The fields of an item of an expression. -/
def toFields : NthNode → List (String × Json)
  | part _ p =>
    p.span.toFields ++
      [("value", .string p.text), ("before", .string p.before), ("after", .string p.after),
        ("invalid", .bool p.invalid)]
  | comment c => c.toFields

/-- The object of an item of an expression. -/
def toJson (n : NthNode) : Json := .object (("type", .string n.kind.name) :: n.toFields)

end NthNode

/-- The fields of an expression. -/
def Nth.toFields (n : Nth) : List (String × Json) :=
  n.span.toFields ++
    [("before", .string n.before), ("after", .string n.after),
      ("nodes", .array (n.nodes.map NthNode.toJson))]

/-- The field of the comments inside a mark. -/
def Sigil.toFields : Sigil → List (String × Json)
  | dot comments => [("dotComments", Comment.allToJson comments)]
  | colon comments => [("colonComments", Comment.allToJson comments)]
  | colons first second =>
    [("colonComments",
      .object [("first", Comment.allToJson first), ("second", Comment.allToJson second)])]
  | hash | brackets | ampersand => []

mutual

/-- The object of a selector. -/
def Selector.toJson : Selector → Json
  | ⟨span, before, after, nodes⟩ =>
    .object <|
      ("type", .string NodeKind.selector.name) :: span.toFields ++
        [("before", .string before), ("after", .string after),
          ("nodes", .array (Node.allToJson nodes))]

/-- The object of a node. -/
def Node.toJson (n : Node) : Json :=
  .object (("type", .string n.kind.name) :: n.toFields)

/-- The fields of a node. -/
def Node.toFields : Node → List (String × Json)
  | .element span _ name ns =>
    span.toFields ++ ("value", .string name) :: ns.toList.map fun ns => ("namespace", ns.toJson)
  | .functional span sigil name args =>
    span.toFields ++ ("value", .string name) :: sigil.toFields ++ Selector.argumentFields args
  | .combinator c => c.toFields
  | .comment c => c.toFields
  | .invalid span text => span.toFields ++ [("value", .string text)]
  | .nth n => n.toFields
  | .compound span nodes invalid =>
    span.toFields ++ [("nodes", .array (Node.allToJson nodes)), ("invalid", .bool invalid)]

/-- The objects of nodes. -/
def Node.allToJson : List Node → List Json
  | [] => []
  | n :: ns => n.toJson :: Node.allToJson ns

/-- The field of an argument list. -/
def Selector.argumentFields : Option (List Selector) → List (String × Json)
  | none => []
  | some list => [("nodes", .array (Selector.allToJson list))]

/-- The objects of selectors. -/
def Selector.allToJson : List Selector → List Json
  | [] => []
  | s :: ss => s.toJson :: Selector.allToJson ss

end

/-! ### Reading -/

/-- The span among the fields of a record. -/
def Span.ofRecord? (names : List String) (j : Json) : Option Span := do
  some ⟨← j.required? names "start" Json.nat?, ← j.required? names "end" Json.nat?⟩

namespace Comment

/-- The comment that a record with the given fields holds. -/
def ofRecord? (names : List String) (j : Json) : Option Comment := do
  guard (j.isRecord names)
  some
    { span := ← Span.ofRecord? names j
      text := ← j.required? names "value" Json.string?
      before := ← j.defaulted? names "before" "" Json.string?
      after := ← j.defaulted? names "after" "" Json.string? }

/-- A comment without its kind. -/
def ofJson? (j : Json) : Option Comment := ofRecord? NodeKind.comment.fields j

/-- Comments without their kind. -/
def allOfJson? (j : Json) : Option (List Comment) := j.array?.bind (·.mapM ofJson?)

end Comment

/-- The error with the given spelling. -/
def NamespaceError.ofJson? (j : Json) : Option NamespaceError :=
  j.case?.bind fun s => all.find? fun e => e.name == s

/-- The combinator with the given spelling. -/
def CombinatorKind.ofJson? (j : Json) : Option CombinatorKind :=
  j.case?.bind fun s => all.find? fun k => k.name == s

/-- The fields of a namespace, in order. -/
def Namespace.fields : List String := ["value", "beforeComments", "afterComments", "invalid"]

/-- The namespace that a record holds. -/
def Namespace.ofJson? (j : Json) : Option Namespace := do
  guard (j.isRecord fields)
  some
    { value := ← j.required? fields "value" Json.string?
      beforeComments := ← j.defaulted? fields "beforeComments" [] Comment.allOfJson?
      afterComments := ← j.defaulted? fields "afterComments" [] Comment.allOfJson?
      error := ← j.optional? fields "invalid" NamespaceError.ofJson? }

/-- The combinator that a record with the given fields holds. -/
def Combinator.ofRecord? (names : List String) (j : Json) : Option Combinator := do
  some
    { span := ← Span.ofRecord? names j
      kind := ← j.required? names "combinator" CombinatorKind.ofJson?
      text := ← j.required? names "value" Json.string?
      before := ← j.required? names "before" Json.string?
      after := ← j.required? names "after" Json.string?
      invalid := ← j.defaulted? names "invalid" false Json.bool? }

namespace NthNode

/-- The part that a record with the given fields holds. -/
def partOfRecord? (names : List String) (j : Json) : Option NthPart := do
  guard (j.isRecord names)
  some
    { span := ← Span.ofRecord? names j
      text := ← j.required? names "value" Json.string?
      before := ← j.defaulted? names "before" "" Json.string?
      after := ← j.defaulted? names "after" "" Json.string?
      invalid := ← j.defaulted? names "invalid" false Json.bool? }

/-- The item of an expression that a tagged record holds. -/
def ofJson? (inside : Bool) (j : Json) : Option NthNode := do
  let kind ← j.kind? inside kinds
  let names := "type" :: kind.fields
  match kind with
  | .nthStep => (partOfRecord? names j).map (part .step)
  | .nthDash => (partOfRecord? names j).map (part .dash)
  | .nthOffset => (partOfRecord? names j).map (part .offset)
  | .nthOf => (partOfRecord? names j).map (part .of)
  | _ => (Comment.ofRecord? names j).map comment

end NthNode

/-- The expression that a record with the given fields holds. -/
def Nth.ofRecord? (names : List String) (j : Json) : Option Nth := do
  some
    { span := ← Span.ofRecord? names j
      before := ← j.required? names "before" Json.string?
      after := ← j.required? names "after" Json.string?
      nodes := ← j.required? names "nodes" fun v => v.array?.bind (·.mapM (NthNode.ofJson? true)) }

/-- The fields of the comments inside the mark of a pseudo-element, in order. -/
def Sigil.colonFields : List String := ["first", "second"]

/-- The comments inside the mark of a pseudo-element. -/
def Sigil.colonsOfJson? (j : Json) : Option (List Comment × List Comment) := do
  guard (j.isRecord colonFields)
  some
    (← j.required? colonFields "first" Comment.allOfJson?,
      ← j.required? colonFields "second" Comment.allOfJson?)

/-- What introduces a functional node of the given kind, with the comments of its record. -/
def Sigil.ofRecord? (kind : NodeKind) (names : List String) (j : Json) : Option Sigil :=
  match kind with
  | .classSelector => (j.defaulted? names "dotComments" [] Comment.allOfJson?).map dot
  | .idSelector => some hash
  | .attributeSelector => some brackets
  | .pseudoClass => (j.defaulted? names "colonComments" [] Comment.allOfJson?).map colon
  | .pseudoElement =>
    (j.defaulted? names "colonComments" ([], []) colonsOfJson?).map fun c => colons c.1 c.2
  | .nesting => some ampersand
  | _ => none

/-- The type or universal selector that a record with the given fields holds. -/
def Node.elementOfRecord? (kind : ElementKind) (names : List String) (j : Json) : Option Node := do
  some <| .element (← Span.ofRecord? names j) kind (← j.required? names "value" Json.string?)
    (← j.optional? names "namespace" Namespace.ofJson?)

/-- The invalid node that a record with the given fields holds. -/
def Node.invalidOfRecord? (names : List String) (j : Json) : Option Node := do
  some <| .invalid (← Span.ofRecord? names j) (← j.required? names "value" Json.string?)

mutual

/-- The selector that a record holds; `inside` says whether it is inside a node. -/
def Selector.ofJson? (inside : Bool) (j : Json) : Option Selector := do
  let names := NodeKind.selector.fields
  if !j.isRecord names then none
  let span ← Span.ofRecord? names j
  let before ← j.required? names "before" Json.string?
  let after ← j.required? names "after" Json.string?
  match h : j.field? names "nodes" with
  | some (.array items) =>
    have := Json.sizeOf_items_lt h
    (Node.allOfJson? inside items).map (Selector.mk span before after)
  | _ => none
termination_by sizeOf j

/-- The node that a tagged record holds. -/
def Node.ofJson? (inside : Bool) (j : Json) : Option Node := do
  let kind ← j.kind? inside Node.kinds
  let names := "type" :: kind.fields
  if !j.isRecord names then none
  match kind with
  | .typeSelector => Node.elementOfRecord? .type names j
  | .universal => Node.elementOfRecord? .universal names j
  | .combinator => (Combinator.ofRecord? names j).map .combinator
  | .comment => (Comment.ofRecord? names j).map .comment
  | .invalid => Node.invalidOfRecord? names j
  | .nth => (Nth.ofRecord? names j).map .nth
  | .compound =>
    let span ← Span.ofRecord? names j
    let invalid ← j.defaulted? names "invalid" false Json.bool?
    match h : j.field? names "nodes" with
    | some (.array items) =>
      have := Json.sizeOf_items_lt h
      (Node.allOfJson? true items).map (.compound span · invalid)
    | _ => none
  | kind =>
    let span ← Span.ofRecord? names j
    let sigil ← Sigil.ofRecord? kind names j
    let name ← j.required? names "value" Json.string?
    match h : j.field? names "nodes" with
    | none | some .null => some (.functional span sigil name none)
    | some (.array items) =>
      have := Json.sizeOf_items_lt h
      (Selector.allOfJson? true items).map fun list => .functional span sigil name (some list)
    | _ => none
termination_by sizeOf j

/-- The nodes that tagged records hold. -/
def Node.allOfJson? (inside : Bool) : List Json → Option (List Node)
  | [] => some []
  | j :: js => do some ((← Node.ofJson? inside j) :: (← Node.allOfJson? inside js))
termination_by js => sizeOf js

/-- The selectors that records hold. -/
def Selector.allOfJson? (inside : Bool) : List Json → Option (List Selector)
  | [] => some []
  | j :: js => do some ((← Selector.ofJson? inside j) :: (← Selector.allOfJson? inside js))
termination_by js => sizeOf js

end

end Selectors
