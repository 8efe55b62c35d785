import Selectors.Json.Value
import Selectors.Text.Quoted

/-!
# Decoding JSON values

A record is written as an object, where names it does not know are ignored, or as an array of its
fields in their order, where fields may be missing at the end.  `Json.field?` finds a field in
both, `Json.isRecord` says that a value has one of the two shapes.

* `Json.nat?` and its like give what a value of the right sort holds.
* `DecodeError` says why a value does not decode, for decoders that report it.
-/

namespace Selectors

namespace Json

/-! ### Sorts of values -/

/-- The natural number that a value is. -/
def nat? : Json → Option Nat
  | number (.int i) => if 0 ≤ i then some i.toNat else none
  | _ => none

/-- The string that a value is. -/
def string? : Json → Option String
  | string s => some s
  | _ => none

/-- The truth value that a value is. -/
def bool? : Json → Option Bool
  | bool b => some b
  | _ => none

/-- The items of the array that a value is. -/
def array? : Json → Option (List Json)
  | array items => some items
  | _ => none

/-- The name that a value gives to one of several cases: the name itself, or an object with the
name for its only field and nothing in it. -/
def case? : Json → Option String
  | string s => some s
  | object [(s, null)] => some s
  | object [(s, object [])] => some s
  | _ => none

@[simp] theorem nat?_nat (n : Nat) : (nat n).nat? = some n := by simp [nat, nat?]

/-! ### Records -/

/-- Whether a value is an object or an array with at most the fields of `names`. -/
def isRecord (names : List String) : Json → Bool
  | object _ => true
  | array items => items.length ≤ names.length
  | _ => false

/-- A field that must be there. -/
def required? {α : Type} (names : List String) (name : String) (decode : Json → Option α)
    (j : Json) : Option α :=
  (j.field? names name).bind decode

/-- A field that has a default. -/
def defaulted? {α : Type} (names : List String) (name : String) (fallback : α)
    (decode : Json → Option α) (j : Json) : Option α :=
  match j.field? names name with
  | none => some fallback
  | some v => decode v

/-- A field that may be missing or null. -/
def optional? {α : Type} (names : List String) (name : String) (decode : Json → Option α)
    (j : Json) : Option (Option α) :=
  match j.field? names name with
  | none | some null => some none
  | some v => (decode v).map some

/-! ### Reports -/

/-- How a report names a value. -/
def description : Json → String
  | null => "null"
  | bool true => "boolean `true`"
  | bool false => "boolean `false`"
  | number (.int i) => "integer `" ++ toString i ++ "`"
  | number (.double bits) => "floating point `" ++ Number.doubleText bits ++ "`"
  | string s => "string " ++ quoted s
  | array _ => "sequence"
  | object _ => "map"

end Json

/-- Why a value does not decode. -/
inductive DecodeError where
  /-- A value of another sort than expected. -/
  | invalidType (found : Json) (expected : String)
  /-- A value of the right sort that is not allowed. -/
  | invalidValue (found : Json) (expected : String)
  /-- An array with more items than its record has fields. -/
  | invalidLength (length : Nat)
  /-- A name that is none of those known. -/
  | unknownVariant (name : String) (known : List String)

namespace DecodeError

/-- The text of the error. -/
def message : DecodeError → String
  | invalidType found expected =>
    "invalid type: " ++ found.description ++ ", expected " ++ expected
  | invalidValue found expected =>
    "invalid value: " ++ found.description ++ ", expected " ++ expected
  | invalidLength n =>
    "invalid length " ++ toString n ++ ", expected fewer elements in array"
  | unknownVariant name known =>
    "unknown variant `" ++ name ++ "`, expected one of " ++
      ", ".intercalate (known.map fun k => "`" ++ k ++ "`")

end DecodeError

end Selectors
