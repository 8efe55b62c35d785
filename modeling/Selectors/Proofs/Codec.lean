import Mathlib.Control.Basic
import Mathlib.Data.Option.Basic
import Selectors.Fragment

/-!
# Trees are read back from JSON

A tree of any shape is read back from its JSON value as it was: every field of every item, and
whether an argument list was missing or empty (`Fragment.ofJson?_toJson_shape`).  The proof follows
the tree.  The records without items below them come first (comments, namespaces, expressions), each
read from the fields that it writes; selectors and nodes then need only their lists.
-/

namespace Selectors

/-! ### Records -/

namespace Json

/-- A list is read back from its encoded items. -/
theorem mapM_map_eq_some {α β : Type} {encode : α → β} {decode : β → Option α} {as : List α}
    (h : ∀ a ∈ as, decode (encode a) = some a) : (as.map encode).mapM decode = some as := by
  induction as with
  | nil => rfl
  | cons a as ih =>
    rw [List.map_cons, List.mapM_cons, h a (List.mem_cons_self ..),
      ih fun b hb => h b (List.mem_cons_of_mem a hb)]
    rfl

section

variable {names : List String} {name : String} {fields : List (String × Json)}

@[simp] theorem field?_object : (object fields).field? names name = fields.lookup name := rfl

@[simp] theorem isRecord_object : (object fields).isRecord names = true := rfl

@[simp] theorem string?_string (s : String) : (string s).string? = some s := rfl

@[simp] theorem bool?_bool (b : Bool) : (bool b).bool? = some b := rfl

@[simp] theorem array?_array (items : List Json) : (array items).array? = some items := rfl

@[simp] theorem case?_string (s : String) : (string s).case? = some s := rfl

theorem optional?_of_field? {α : Type} {decode : Json → Option α} {j v : Json}
    (h : j.field? names name = some v) (hv : v ≠ .null) :
    j.optional? names name decode = (decode v).map some := by
  rw [optional?, h]
  split
  · rename_i hnone
    cases hnone
  · rename_i hnull
    cases hnull
    exact absurd rfl hv
  · rename_i hsome
    cases hsome
    rfl

/-- The kind of an item is read back from its name. -/
theorem kind?_tagged {inside : Bool} {kinds : List NodeKind} {k : NodeKind} (hk : k ∈ kinds) :
    (object (("type", .string k.name) :: fields)).kind? inside kinds = some k := by
  have hfind : kinds.find? (fun l => l.name == k.name) = some k := by
    induction kinds with
    | nil => cases hk
    | cons l ls ih =>
      by_cases hl : l.name = k.name
      · have hlk : l = k := by
          have hof := congrArg NodeKind.ofName? hl
          rwa [NodeKind.ofName?_name, NodeKind.ofName?_name, Option.some.injEq] at hof
        rw [List.find?_cons_of_pos (by simpa using hl), hlk]
      · rw [List.find?_cons_of_neg (by simpa using hl)]
        exact ih ((List.mem_cons.1 hk).resolve_left fun he => hl (he ▸ rfl))
  simpa [kind?] using hfind

end

end Json

/-! ### Comments, namespaces and combinators -/

section

variable {names : List String} {kind : Json}

theorem Comment.ofJson?_object (c : Comment) : ofJson? (.object c.toFields) = some c := by
  simp [ofJson?, ofRecord?, toFields, Span.ofRecord?, Span.toFields, Json.required?,
    Json.defaulted?, List.lookup_cons]

theorem Comment.ofRecord?_tagged (c : Comment) :
    ofRecord? names (.object (("type", kind) :: c.toFields)) = some c := by
  simp [ofRecord?, toFields, Span.ofRecord?, Span.toFields, Json.required?, Json.defaulted?,
    List.lookup_cons]

theorem Comment.allOfJson?_allToJson (cs : List Comment) : allOfJson? (allToJson cs) = some cs := by
  simp [allOfJson?, allToJson, Json.mapM_map_eq_some fun c _ => ofJson?_object c]

theorem NamespaceError.ofJson?_name (e : NamespaceError) : ofJson? (.string e.name) = some e := by
  cases e <;> decide

theorem CombinatorKind.ofJson?_name (k : CombinatorKind) : ofJson? (.string k.name) = some k := by
  cases k <;> decide

theorem Namespace.ofJson?_toJson (ns : Namespace) : ofJson? ns.toJson = some ns := by
  obtain ⟨value, before, after, error⟩ := ns
  cases error <;>
    simp [ofJson?, toJson, Json.required?, Json.defaulted?, Json.optional?, List.lookup_cons,
      Comment.allOfJson?_allToJson, NamespaceError.ofJson?_name]

theorem Combinator.ofRecord?_tagged (c : Combinator) :
    ofRecord? names (.object (("type", kind) :: c.toFields)) = some c := by
  simp [ofRecord?, toFields, Span.ofRecord?, Span.toFields, Json.required?, Json.defaulted?,
    List.lookup_cons, CombinatorKind.ofJson?_name]

end

/-! ### Expressions -/

namespace NthNode

theorem kind_mem_kinds (n : NthNode) : n.kind ∈ kinds := by
  cases n with
  | part role p => cases role <;> simp [kind, NthRole.kind, kinds]
  | comment c => simp [kind, kinds]

theorem partOfRecord?_tagged {names : List String} {kind : Json} (role : NthRole) (p : NthPart) :
    partOfRecord? names (.object (("type", kind) :: (part role p).toFields)) = some p := by
  simp [toFields, partOfRecord?, Span.ofRecord?, Span.toFields, Json.required?, Json.defaulted?,
    List.lookup_cons]

theorem ofJson?_toJson (inside : Bool) (n : NthNode) : ofJson? inside n.toJson = some n := by
  rw [ofJson?, toJson, Json.kind?_tagged n.kind_mem_kinds]
  cases n with
  | part role p => cases role <;> simp [kind, NthRole.kind, partOfRecord?_tagged]
  | comment c => simp [kind, toFields, Comment.ofRecord?_tagged]

end NthNode

theorem Nth.ofRecord?_tagged {names : List String} {kind : Json} (n : Nth) :
    ofRecord? names (.object (("type", kind) :: n.toFields)) = some n := by
  have hnodes : (n.nodes.map NthNode.toJson).mapM (NthNode.ofJson? true) = some n.nodes :=
    Json.mapM_map_eq_some fun m _ => NthNode.ofJson?_toJson true m
  simp [ofRecord?, toFields, Span.ofRecord?, Span.toFields, Json.required?, List.lookup_cons,
    hnodes]

/-! ### The own fields of selectors and nodes -/

section

variable {names : List String} {kind : Json} {span : Span} {name : String}

theorem Sigil.ofRecord?_tagged (sigil : Sigil) (args : Option (List Selector)) :
    ofRecord? sigil.kind names
      (.object (("type", kind) :: (Node.functional span sigil name args).toFields)) =
        some sigil := by
  cases sigil <;>
    simp [Sigil.kind, ofRecord?, colonsOfJson?, Node.toFields, toFields, Span.toFields,
      Json.defaulted?, Json.required?, List.lookup_cons, Comment.allOfJson?_allToJson]

namespace Node

theorem kind_mem_kinds (n : Node) : n.kind ∈ kinds := by
  cases n with
  | element span kind name ns => cases kind <;> simp [Node.kind, ElementKind.kind, kinds]
  | functional span sigil name args => cases sigil <;> simp [Node.kind, Sigil.kind, kinds]
  | _ => simp [Node.kind, kinds]

theorem elementOfRecord?_tagged (element : ElementKind) (ns : Option Namespace) :
    elementOfRecord? element names
      (.object (("type", kind) :: (Node.element span element name ns).toFields)) =
        some (.element span element name ns) := by
  cases ns with
  | none =>
    simp [elementOfRecord?, toFields, Span.ofRecord?, Span.toFields, Json.required?,
      Json.optional?, List.lookup_cons]
  | some ns =>
    have hns : Json.optional? names "namespace" Namespace.ofJson?
        (.object (("type", kind) :: (Node.element span element name (some ns)).toFields)) =
          some (some ns) := by
      rw [Json.optional?_of_field? (v := ns.toJson), Namespace.ofJson?_toJson, Option.map_some]
      · simp [toFields, Span.toFields, List.lookup_cons]
      · simp [Namespace.toJson]
    rw [elementOfRecord?, hns]
    simp [toFields, Span.ofRecord?, Span.toFields, Json.required?, List.lookup_cons]

theorem invalidOfRecord?_tagged (text : String) :
    invalidOfRecord? names (.object (("type", kind) :: (Node.invalid span text).toFields)) =
      some (.invalid span text) := by
  simp [invalidOfRecord?, toFields, Span.ofRecord?, Span.toFields, Json.required?, List.lookup_cons]

/-- The list in the record of a functional node is its argument list, if it has one. -/
theorem lookup_nodes_functional (sigil : Sigil) (args : Option (List Selector)) :
    (Node.functional span sigil name args).toFields.lookup "nodes" =
      args.map fun list => .array (Selector.allToJson list) := by
  cases args <;> cases sigil <;>
    simp [toFields, Span.toFields, Sigil.toFields, Selector.argumentFields, List.lookup_cons]

end Node

end

/-! ### Reading selectors and nodes -/

section

variable {inside : Bool} {j : Json}

/-- A selector is read from its fields. -/
theorem Selector.ofJson?_eq_some {span : Span} {before after : String} {nodes : List Node}
    {items : List Json} (hrecord : j.isRecord NodeKind.selector.fields)
    (hspan : Span.ofRecord? NodeKind.selector.fields j = some span)
    (hbefore : j.required? NodeKind.selector.fields "before" Json.string? = some before)
    (hafter : j.required? NodeKind.selector.fields "after" Json.string? = some after)
    (hitems : j.field? NodeKind.selector.fields "nodes" = some (.array items))
    (hnodes : Node.allOfJson? inside items = some nodes) :
    Selector.ofJson? inside j = some ⟨span, before, after, nodes⟩ := by
  rw [Selector.ofJson?]
  simp only [hrecord, hspan, hbefore, hafter, Option.bind_eq_bind, Option.bind_some, Bool.not_true,
    Bool.false_eq_true, if_false]
  split
  · rename_i h
    cases hitems.symm.trans h
    rw [hnodes, Option.map_some]
  · rename_i h
    exact absurd hitems (h items)

/-- A compound is read from its fields. -/
theorem Node.ofJson?_compound {span : Span} {nodes : List Node} {invalid : Bool}
    {items : List Json} (hkind : j.kind? inside Node.kinds = some .compound)
    (hrecord : j.isRecord ("type" :: NodeKind.compound.fields))
    (hspan : Span.ofRecord? ("type" :: NodeKind.compound.fields) j = some span)
    (hinvalid : j.defaulted? ("type" :: NodeKind.compound.fields) "invalid" false Json.bool? =
      some invalid)
    (hitems : j.field? ("type" :: NodeKind.compound.fields) "nodes" = some (.array items))
    (hnodes : Node.allOfJson? true items = some nodes) :
    Node.ofJson? inside j = some (.compound span nodes invalid) := by
  rw [Node.ofJson?]
  simp only [hkind, hrecord, hspan, hinvalid, Option.bind_eq_bind, Option.bind_some, Bool.not_true,
    Bool.false_eq_true, if_false]
  split
  · rename_i h
    cases hitems.symm.trans h
    rw [hnodes, Option.map_some]
  · rename_i h
    exact absurd hitems (h items)

/-- A functional node is read from its fields; it has arguments if there is a list. -/
theorem Node.ofJson?_functional {span : Span} {sigil : Sigil} {name : String}
    {args : Option (List Selector)} (hkind : j.kind? inside Node.kinds = some sigil.kind)
    (hrecord : j.isRecord ("type" :: sigil.kind.fields))
    (hspan : Span.ofRecord? ("type" :: sigil.kind.fields) j = some span)
    (hsigil : Sigil.ofRecord? sigil.kind ("type" :: sigil.kind.fields) j = some sigil)
    (hname : j.required? ("type" :: sigil.kind.fields) "value" Json.string? = some name)
    (hitems : j.field? ("type" :: sigil.kind.fields) "nodes" =
      args.map fun list => .array (Selector.allToJson list))
    (hargs : ∀ list ∈ args, Selector.allOfJson? true (Selector.allToJson list) = some list) :
    Node.ofJson? inside j = some (.functional span sigil name args) := by
  rw [Node.ofJson?]
  simp only [hkind, hrecord, Option.bind_eq_bind, Option.bind_some]
  -- the kinds of functional nodes are read in one way
  cases sigil
  all_goals
    simp only [Sigil.kind] at hspan hsigil hname hitems
    simp only [Sigil.kind, hspan, hsigil, hname, Option.bind_some, Bool.not_true,
      Bool.false_eq_true, if_false]
    split
    · rename_i h
      cases args with
      | none => rfl
      | some list => cases hitems.symm.trans h
    · rename_i h
      cases args <;> cases hitems.symm.trans h
    · rename_i h
      cases args with
      | none => cases hitems.symm.trans h
      | some list =>
        cases hitems.symm.trans h
        rw [hargs list rfl, Option.map_some]
    · rename_i hnone hnull harray
      cases args with
      | none => exact absurd hitems hnone
      | some list => exact absurd hitems (harray _)

end

/-! ### Trees -/

theorem Node.ofJson?_toJson_element (inside : Bool) (span : Span) (kind : ElementKind)
    (name : String) (ns : Option Namespace) :
    Node.ofJson? inside (Node.element span kind name ns).toJson =
      some (.element span kind name ns) := by
  rw [Node.ofJson?, Node.toJson, Json.kind?_tagged (Node.kind_mem_kinds _)]
  cases kind <;> exact Node.elementOfRecord?_tagged _ ns

theorem Node.ofJson?_toJson_combinator (inside : Bool) (c : Combinator) :
    Node.ofJson? inside (Node.combinator c).toJson = some (.combinator c) := by
  rw [Node.ofJson?, Node.toJson, Json.kind?_tagged (Node.kind_mem_kinds _), Node.toFields]
  exact congrArg (Option.map Node.combinator) (Combinator.ofRecord?_tagged c)

theorem Node.ofJson?_toJson_comment (inside : Bool) (c : Comment) :
    Node.ofJson? inside (Node.comment c).toJson = some (.comment c) := by
  rw [Node.ofJson?, Node.toJson, Json.kind?_tagged (Node.kind_mem_kinds _), Node.toFields]
  show (Comment.ofRecord? ("type" :: NodeKind.comment.fields)
    (.object (("type", .string NodeKind.comment.name) :: c.toFields))).map Node.comment = _
  rw [Comment.ofRecord?_tagged, Option.map_some]

theorem Node.ofJson?_toJson_invalid (inside : Bool) (span : Span) (text : String) :
    Node.ofJson? inside (Node.invalid span text).toJson = some (.invalid span text) := by
  rw [Node.ofJson?, Node.toJson, Json.kind?_tagged (Node.kind_mem_kinds _)]
  exact Node.invalidOfRecord?_tagged text

theorem Node.ofJson?_toJson_nth (inside : Bool) (n : Nth) :
    Node.ofJson? inside (Node.nth n).toJson = some (.nth n) := by
  rw [Node.ofJson?, Node.toJson, Json.kind?_tagged (Node.kind_mem_kinds _), Node.toFields]
  exact congrArg (Option.map Node.nth) (Nth.ofRecord?_tagged n)

mutual

theorem Selector.ofJson?_toJson (inside : Bool) :
    ∀ s : Selector, Selector.ofJson? inside s.toJson = some s
  | ⟨span, before, after, nodes⟩ => by
    refine Selector.ofJson?_eq_some ?_ ?_ ?_ ?_ ?_ (Node.allOfJson?_allToJson inside nodes) <;>
      simp [Selector.toJson, Span.ofRecord?, Span.toFields, Json.required?, List.lookup_cons]

theorem Node.ofJson?_toJson (inside : Bool) : ∀ n : Node, Node.ofJson? inside n.toJson = some n
  | .functional span sigil name args => by
    rw [Node.toJson]
    refine Node.ofJson?_functional (Json.kind?_tagged (Node.kind_mem_kinds _)) rfl ?_
      (Sigil.ofRecord?_tagged sigil args) ?_ ?_ (Selector.allOfJson?_arguments args)
    · simp [Node.toFields, Span.ofRecord?, Span.toFields, Json.required?, List.lookup_cons]
    · simp [Node.toFields, Span.toFields, Json.required?, List.lookup_cons]
    · simpa [List.lookup_cons] using Node.lookup_nodes_functional sigil args
  | .compound span nodes invalid => by
    rw [Node.toJson]
    refine Node.ofJson?_compound (Json.kind?_tagged (Node.kind_mem_kinds _)) rfl ?_ ?_ ?_
      (Node.allOfJson?_allToJson true nodes) <;>
      simp [Node.toFields, Span.ofRecord?, Span.toFields, Json.required?, Json.defaulted?,
        List.lookup_cons]
  | .element span kind name ns => Node.ofJson?_toJson_element inside span kind name ns
  | .combinator c => Node.ofJson?_toJson_combinator inside c
  | .comment c => Node.ofJson?_toJson_comment inside c
  | .invalid span text => Node.ofJson?_toJson_invalid inside span text
  | .nth n => Node.ofJson?_toJson_nth inside n

theorem Node.allOfJson?_allToJson (inside : Bool) :
    ∀ ns : List Node, Node.allOfJson? inside (Node.allToJson ns) = some ns
  | [] => by rw [Node.allToJson, Node.allOfJson?]
  | n :: ns => by
    rw [Node.allToJson, Node.allOfJson?, Node.ofJson?_toJson inside n,
      Node.allOfJson?_allToJson inside ns]
    rfl

theorem Selector.allOfJson?_arguments :
    ∀ args : Option (List Selector), ∀ list ∈ args,
      Selector.allOfJson? true (Selector.allToJson list) = some list
  | none, _, h => by cases h
  | some list, _, rfl => Selector.allOfJson?_allToJson true list

theorem Selector.allOfJson?_allToJson (inside : Bool) :
    ∀ ss : List Selector, Selector.allOfJson? inside (Selector.allToJson ss) = some ss
  | [] => by rw [Selector.allToJson, Selector.allOfJson?]
  | s :: ss => by
    rw [Selector.allToJson, Selector.allOfJson?, Selector.ofJson?_toJson inside s,
      Selector.allOfJson?_allToJson inside ss]
    rfl

end

/-- **A tree of any shape is read back from its JSON value**, equal in every field. -/
theorem Fragment.ofJson?_toJson_shape (t : Fragment) : ofJson? t.toJson t.shape = some t := by
  cases t with
  | list ss => simp [ofJson?, toJson, shape, Selector.allOfJson?_allToJson]
  | selector s => simp [ofJson?, toJson, shape, Selector.ofJson?_toJson]
  | node n => simp [ofJson?, toJson, shape, Node.ofJson?_toJson]
  | part p => simp [ofJson?, toJson, shape, NthNode.ofJson?_toJson]

end Selectors
