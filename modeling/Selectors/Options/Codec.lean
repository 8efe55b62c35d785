import Selectors.Json.Decode
import Selectors.Options

/-!
# Options as JSON

Options are records, every field of which has a default.  Fields are decoded in the order in which
they stand, and the first that does not decode is reported.
-/

namespace Selectors

namespace Json

/-- Decodes a record on top of its defaults.  `set` takes up one field and skips unknown ones. -/
def decodeRecord {α : Type} (title : String) (names : List String)
    (set : α → String × Json → Except DecodeError α) (defaults : α) :
    Json → Except DecodeError α
  | object fields => fields.foldlM set defaults
  | array items => do
    let options ← (names.zip items).foldlM set defaults
    if items.length ≤ names.length then .ok options else .error (.invalidLength items.length)
  | j => .error (.invalidType j ("struct " ++ title))

/-- Decodes a number of bytes. -/
def decodeNat : Json → Except DecodeError Nat
  | number (.int i) =>
    if 0 ≤ i then .ok i.toNat else .error (.invalidValue (number (.int i)) "usize")
  | j => .error (.invalidType j "usize")

/-- Decodes a truth value. -/
def decodeBool : Json → Except DecodeError Bool
  | bool b => .ok b
  | j => .error (.invalidType j "a boolean")

end Json

namespace NodeKind

/-- Decodes the name of a kind. -/
def decodeName (name : String) : Except DecodeError NodeKind :=
  match ofName? name with
  | some k => .ok k
  | none => .error (.unknownVariant name (all.map NodeKind.name))

/-- Decodes a kind: its name, or an object with the name for its only field, which is null. -/
def decode : Json → Except DecodeError NodeKind
  | .string name => decodeName name
  | .object [(name, .null)] => decodeName name
  | .object [(name, j)] => do
    let _ ← decodeName name
    .error (.invalidType j "unit")
  | .object fields => .error (.invalidValue (.object fields) "map with a single key")
  | j => .error (.invalidType j "string or map")

/-- Decodes a list of kinds, which may be missing. -/
def decodeList : Json → Except DecodeError (Option (List NodeKind))
  | .null => .ok none
  | .array items => (items.mapM decode).map some
  | j => .error (.invalidType j "a sequence")

/-- A list of kinds, null if it is missing. -/
def listToJson : Option (List NodeKind) → Json
  | none => .null
  | some kinds => .array (kinds.map fun k => .string k.name)

end NodeKind

namespace ParseOptions

/-- Decodes how a text is read. -/
def decode : Json → Except DecodeError ParseOptions :=
  Json.decodeRecord "ParseOptions" ["offset"]
    (fun o f =>
      match f with
      | ("offset", j) => do .ok { o with offset := ← j.decodeNat }
      | _ => .ok o)
    {}

/-- The object of how a text is read. -/
def toJson (o : ParseOptions) : Json := .object [("offset", .nat o.offset)]

end ParseOptions

namespace WalkOptions

/-- Decodes which items are visited. -/
def decode : Json → Except DecodeError WalkOptions :=
  Json.decodeRecord "WalkOptions" ["visitList", "ignoreList"]
    (fun o f =>
      match f with
      | ("visitList", j) => do .ok { o with visitList := ← NodeKind.decodeList j }
      | ("ignoreList", j) => do .ok { o with ignoreList := ← NodeKind.decodeList j }
      | _ => .ok o)
    {}

/-- The object of which items are visited. -/
def toJson (o : WalkOptions) : Json :=
  .object
    [("ignoreList", NodeKind.listToJson o.ignoreList),
      ("visitList", NodeKind.listToJson o.visitList)]

end WalkOptions

namespace CompoundOptions

/-- Decodes how simple selectors are grouped. -/
def decode : Json → Except DecodeError CompoundOptions :=
  Json.decodeRecord "CompoundOptions" ["splitPseudoElements"]
    (fun o f =>
      match f with
      | ("splitPseudoElements", j) => do .ok { o with splitPseudoElements := ← j.decodeBool }
      | _ => .ok o)
    {}

/-- The object of how simple selectors are grouped. -/
def toJson (o : CompoundOptions) : Json :=
  .object [("splitPseudoElements", .bool o.splitPseudoElements)]

end CompoundOptions

end Selectors
