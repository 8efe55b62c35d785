import Selectors.Decimal.Shortest

/-!
# JSON values

A JSON value, and its compact text.  The fields of an object are kept in order; objects read from
text have each name once, in ascending order.

Integers of 64 bits, signed or not, are told apart from all other numbers, which are doubles.
-/

namespace Selectors

/-- A number of a JSON value. -/
inductive Number where
  /-- An integer from `-2 ^ 63` to `2 ^ 64 - 1`. -/
  | int (value : Int)
  /-- A finite double, by its bits. -/
  | double (bits : UInt64)
  deriving DecidableEq, Repr, Inhabited

/-- A JSON value. -/
inductive Json where
  | null
  | bool (value : Bool)
  | number (value : Number)
  | string (value : String)
  | array (items : List Json)
  | object (fields : List (String × Json))

instance : Inhabited Json := ⟨.null⟩

/-! ### Numbers -/

namespace Number

/-- Digits with `n` zeros. -/
def zeros (n : Nat) : String := String.ofList (List.replicate n '0')

/-- Digits with a point after the first `n`. -/
def withPoint (digits : List Char) (n : Nat) : String :=
  String.ofList (digits.take n) ++ "." ++ String.ofList (digits.drop n)

/-- A positive decimal: positional if the point falls at most five places before its first digit
or 16 places behind it, else with a signed exponent. -/
def decimalText (d : Decimal) : String :=
  let digits := Nat.toDigits 10 d.digits
  let point : Int := digits.length + d.exponent
  if 0 ≤ d.exponent ∧ point ≤ 16 then
    String.ofList digits ++ zeros d.exponent.toNat ++ ".0"
  else if 0 < point ∧ point ≤ 16 then withPoint digits point.toNat
  else if -5 < point ∧ point ≤ 0 then "0." ++ zeros (-point).toNat ++ String.ofList digits
  else
    (if digits.length = 1 then String.ofList digits else withPoint digits 1) ++
      (if 0 < point then "e+" else "e") ++ toString (point - 1)

/-- The shortest text of a double that reads back as it. -/
def doubleText (bits : UInt64) : String :=
  let v := Dyadic.ofBits bits
  (if UInt64.size / 2 ≤ bits.toNat then "-" else "") ++
    if v.mantissa = 0 then "0.0" else decimalText v.shortest

/-- The text of a number. -/
def text : Number → String
  | int i => toString i
  | double bits => doubleText bits

end Number

namespace Json

/-- A natural number as a JSON value. -/
def nat (n : Nat) : Json := .number (.int n)

/-! ### Compact text -/

/-- How a string shows a character. -/
def charText (c : Char) : String :=
  if c = '\x22' then "\\\""
  else if c = '\\' then "\\\\"
  else if c = '\x08' then "\\b"
  else if c = '\x0c' then "\\f"
  else if c = '\n' then "\\n"
  else if c = '\r' then "\\r"
  else if c = '\t' then "\\t"
  else if c.toNat < 0x10 then "\\u000" ++ String.ofList (Nat.toDigits 16 c.toNat)
  else if c.toNat < 0x20 then "\\u00" ++ String.ofList (Nat.toDigits 16 c.toNat)
  else c.toString

/-- A string in double quotes. -/
def stringText (s : String) : String :=
  "\"" ++ s.toList.foldl (fun r c => r ++ charText c) "" ++ "\""

mutual

/-- The text of a value without blanks. -/
def text : Json → String
  | null => "null"
  | bool true => "true"
  | bool false => "false"
  | number n => n.text
  | string s => stringText s
  | array items => "[" ++ itemsText items ++ "]"
  | object fields => "\x7b" ++ fieldsText fields ++ "\x7d"

/-- The texts of items, separated by commas. -/
def itemsText : List Json → String
  | [] => ""
  | [j] => j.text
  | j :: k :: rest => j.text ++ "," ++ itemsText (k :: rest)

/-- The texts of fields, separated by commas. -/
def fieldsText : List (String × Json) → String
  | [] => ""
  | [(name, j)] => stringText name ++ ":" ++ j.text
  | (name, j) :: f :: rest => stringText name ++ ":" ++ j.text ++ "," ++ fieldsText (f :: rest)

end

/-! ### Objects -/

/-- Puts a field in its place among fields with ascending names; a field of the same name is
replaced. -/
def insertField (name : String) (j : Json) : List (String × Json) → List (String × Json)
  | [] => [(name, j)]
  | (other, k) :: rest =>
    if name < other then (name, j) :: (other, k) :: rest
    else if name = other then (name, j) :: rest
    else (other, k) :: insertField name j rest

/-- The field of an object with the given name. -/
def get? (name : String) : Json → Option Json
  | object fields => fields.lookup name
  | _ => none

/-- A field of a record, which is an object or else an array of the fields in the order of
`names`. -/
def field? (names : List String) (name : String) : Json → Option Json
  | object fields => fields.lookup name
  | array items => (names.zip items).lookup name
  | _ => none

end Json

theorem Json.sizeOf_lookup_lt {fields : List (String × Json)} {name : String} {j : Json}
    (h : fields.lookup name = some j) : sizeOf j < sizeOf fields := by
  induction fields with
  | nil => simp at h
  | cons f fs ih =>
    obtain ⟨other, k⟩ := f
    rw [List.lookup_cons] at h
    split at h
    · simp at h; subst h; simp; omega
    · have := ih h; simp; omega

theorem Json.sizeOf_lookup_zip_lt {names : List String} {items : List Json} {name : String}
    {j : Json} (h : (names.zip items).lookup name = some j) : sizeOf j < sizeOf items := by
  induction items generalizing names with
  | nil => simp at h
  | cons i is ih =>
    cases names with
    | nil => simp at h
    | cons n ns =>
      rw [List.zip_cons_cons, List.lookup_cons] at h
      split at h
      · simp at h; subst h; simp; omega
      · have := ih h; simp; omega

/-- A field of a record is smaller than the record. -/
theorem Json.sizeOf_field?_lt {names : List String} {name : String} {r j : Json}
    (h : r.field? names name = some j) : sizeOf j < sizeOf r := by
  cases r with
  | object fields => have := Json.sizeOf_lookup_lt h; simp; omega
  | array items => have := Json.sizeOf_lookup_zip_lt h; simp; omega
  | _ => simp [field?] at h

/-- The items of an array in a field are smaller than the record. -/
theorem Json.sizeOf_items_lt {names : List String} {name : String} {r : Json} {items : List Json}
    (h : r.field? names name = some (.array items)) : sizeOf items < sizeOf r := by
  have := Json.sizeOf_field?_lt h
  simp at this
  omega

end Selectors
