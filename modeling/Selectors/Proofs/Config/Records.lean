import Mathlib.Data.List.Forall2
import Mathlib.Data.List.Nodup
import Selectors.Options.Codec
import Selectors.Proofs.Config.Ascending

/-!
# What options are decoded from

A record of options decodes when it is an object, or an array with no more items than the options
have fields, and every field that it has decodes.  A field that it has not keeps its default, and
entries of other names are of no account (`RecordFields.decodeRecord_eq_ok_iff`).

`ParseOptions.Reads` and its like say it for each kind of options, down to the values of the fields.
-/

namespace Selectors

/-! ### Records whose fields are of one type -/

namespace Json

/-- What a field of a record is, given its entry: the value that the entry stands for, or
`fallback` if there is no entry. -/
def Holds {β : Type} (P : Json → β → Prop) (fallback : β) (entry : Option Json) (b : β) : Prop :=
  match entry with
  | none => b = fallback
  | some j => P j b

/-- A value without entries of other names. -/
def only (names : List String) : Json → Json
  | object fields => object (fields.filter fun f => f.1 ∈ names)
  | j => j

/-- The fields of a type of records, by name. -/
structure RecordFields (α β : Type) where
  names : List String
  get : String → α → β
  put : String → β → α → α
  nodup : names.Nodup
  get_put : ∀ name ∈ names, ∀ b a, get name (put name b a) = b
  get_put_of_ne : ∀ name ∈ names, ∀ other ∈ names, other ≠ name → ∀ b a,
    get other (put name b a) = get other a
  ext : ∀ a b, (∀ name ∈ names, get name a = get name b) → a = b

theorem decodeRecord_congr {α : Type} {title : String} {names : List String}
    {set set' : α → String × Json → Except DecodeError α} {defaults : α} {j : Json}
    (h : ∀ a name v, set a (name, v) = set' a (name, v)) :
    decodeRecord title names set defaults j = decodeRecord title names set' defaults j := by
  have hset : set = set' := funext₂ fun a f => h a f.1 f.2
  rw [hset]

namespace RecordFields

variable {α β : Type} (R : RecordFields α β) {decode : Json → Except DecodeError β}

/-- Takes up an entry for one of the fields; any other entry is skipped. -/
def set (decode : Json → Except DecodeError β) (a : α) (f : String × Json) : Except DecodeError α :=
  if f.1 ∈ R.names then (decode f.2).map fun b => R.put f.1 b a else .ok a

theorem set_of_not_mem {f : String × Json} (h : f.1 ∉ R.names) (a : α) : R.set decode a f = .ok a :=
  if_neg h

theorem foldlM_cons_of_not_mem {f : String × Json} (h : f.1 ∉ R.names) (a : α)
    (fields : List (String × Json)) :
    (f :: fields).foldlM (R.set decode) a = fields.foldlM (R.set decode) a := by
  rw [List.foldlM_cons, R.set_of_not_mem h]
  rfl

/-- Entries are taken up one by one, each for the field of its name. -/
theorem foldlM_eq_ok_iff {P : Json → β → Prop} (hdecode : ∀ j b, decode j = .ok b ↔ P j b)
    {fields : List (String × Json)} (hnodup : (fields.map Prod.fst).Nodup) {a b : α} :
    fields.foldlM (R.set decode) a = .ok b ↔
      ∀ name ∈ R.names, Holds P (R.get name a) (fields.lookup name) (R.get name b) := by
  induction fields generalizing a with
  | nil =>
    constructor
    · intro h name _
      obtain rfl := Except.ok.inj h
      rfl
    · intro h
      rw [R.ext b a h]
      rfl
  | cons f fields ih =>
    obtain ⟨other, j⟩ := f
    obtain ⟨hother, hnodup⟩ := List.nodup_cons.1 hnodup
    have hlookup {name : String} (hne : name ≠ other) :
        ((other, j) :: fields).lookup name = fields.lookup name := by
      rw [List.lookup_cons, beq_false_of_ne hne]
    by_cases hknown : other ∈ R.names
    · have hhead : ((other, j) :: fields).lookup other = some j := by simp
      have htail : fields.lookup other = none := by
        refine List.lookup_eq_none_iff.2 fun f hf => bne_iff_ne.2 ?_
        rintro rfl
        exact hother (List.mem_map.2 ⟨f, hf, rfl⟩)
      rw [List.foldlM_cons, set, if_pos hknown]
      cases hj : decode j with
      | error e =>
        refine ⟨nofun, fun h => ?_⟩
        have hvalue := h other hknown
        rw [hhead, Holds, ← hdecode, hj] at hvalue
        cases hvalue
      | ok v =>
        show fields.foldlM (R.set decode) (R.put other v a) = .ok b ↔ _
        rw [ih hnodup]
        refine forall₂_congr fun name hname => ?_
        by_cases hne : name = other
        · rw [hne, hhead, htail, R.get_put other hknown]
          simp only [Holds, ← hdecode, hj, Except.ok.injEq, eq_comm]
        · rw [hlookup hne, R.get_put_of_ne other hknown name hname hne]
    · rw [R.foldlM_cons_of_not_mem hknown, ih hnodup]
      refine forall₂_congr fun name hname => ?_
      rw [hlookup (ne_of_mem_of_not_mem hname hknown)]

theorem map_fst_zip (names : List String) (items : List Json) :
    (names.zip items).map Prod.fst = names.take items.length := by
  induction names generalizing items with
  | nil => simp
  | cons name names ih => cases items <;> simp [ih]

/-- **What a record is decoded from**: a value of the shape of a record, in which every field that
is there decodes.  A field that is missing has its default. -/
theorem decodeRecord_eq_ok_iff {P : Json → β → Prop} (hdecode : ∀ j b, decode j = .ok b ↔ P j b)
    (title : String) {defaults a : α} {j : Json} (hj : j.Ascending) :
    decodeRecord title R.names (R.set decode) defaults j = .ok a ↔
      j.isRecord R.names ∧ ∀ name ∈ R.names,
        Holds P (R.get name defaults) (j.field? R.names name) (R.get name a) := by
  cases j with
  | object fields =>
    rw [decodeRecord, R.foldlM_eq_ok_iff hdecode hj.nodup]
    exact (and_iff_right rfl).symm
  | array items =>
    have hnodup : ((R.names.zip items).map Prod.fst).Nodup := by
      rw [map_fst_zip]
      exact R.nodup.sublist (List.take_sublist ..)
    rw [decodeRecord, bind_eq_ok, isRecord, decide_eq_true_iff]
    constructor
    · rintro ⟨b, hb, h⟩
      split at h
      · obtain rfl := Except.ok.inj h
        exact ⟨‹_›, (R.foldlM_eq_ok_iff hdecode hnodup).1 hb⟩
      · cases h
    · rintro ⟨hlength, h⟩
      exact ⟨a, (R.foldlM_eq_ok_iff hdecode hnodup).2 h, if_pos hlength⟩
  | _ =>
    constructor
    · intro h
      cases h
    · rintro ⟨h, -⟩
      cases h

/-- Entries of other names are of no account. -/
theorem decodeRecord_only (decode : Json → Except DecodeError β) (title : String) (defaults : α)
    (j : Json) :
    decodeRecord title R.names (R.set decode) defaults (j.only R.names) =
      decodeRecord title R.names (R.set decode) defaults j := by
  cases j with
  | object fields =>
    simp only [only, decodeRecord]
    induction fields generalizing defaults with
    | nil => rfl
    | cons f fields ih =>
      by_cases hf : f.1 ∈ R.names
      · rw [List.filter_cons_of_pos (by simpa using hf), List.foldlM_cons, List.foldlM_cons]
        exact congrArg _ (funext ih)
      · rw [List.filter_cons_of_neg (by simpa using hf), R.foldlM_cons_of_not_mem hf, ih]
  | _ => rfl

end RecordFields

/-! ### Values of fields -/

theorem decodeNat_eq_ok_iff (j : Json) (n : Nat) : j.decodeNat = .ok n ↔ j = nat n := by
  constructor
  · intro h
    unfold decodeNat at h
    split at h
    · split at h
      · obtain rfl := Except.ok.inj h
        rw [nat, Int.toNat_of_nonneg ‹_›]
      · cases h
    · cases h
  · rintro rfl
    rfl

theorem decodeBool_eq_ok_iff (j : Json) (b : Bool) : j.decodeBool = .ok b ↔ j = bool b := by
  cases j <;> simp [decodeBool]

theorem mapM_eq_ok_iff {ε α β : Type} {f : α → Except ε β} {P : α → β → Prop}
    (hf : ∀ a b, f a = .ok b ↔ P a b) (as : List α) (bs : List β) :
    as.mapM f = .ok bs ↔ List.Forall₂ P as bs := by
  induction as generalizing bs with
  | nil => simp [pure, Except.pure, eq_comm]
  | cons a as ih =>
    rw [List.mapM_cons, bind_eq_ok, List.forall₂_cons_left_iff]
    simp only [bind_eq_ok, hf, ih]
    constructor
    · rintro ⟨b, hb, bs, hbs, h⟩
      exact ⟨b, bs, hb, hbs, (Except.ok.inj h).symm⟩
    · rintro ⟨b, bs, hb, hbs, rfl⟩
      exact ⟨b, hb, bs, hbs, rfl⟩

end Json

namespace NodeKind

/-- A value that names a kind. -/
def Reads (j : Json) (k : NodeKind) : Prop := j = .string k.name ∨ j = .object [(k.name, .null)]

theorem decodeName_eq_ok_iff (name : String) (k : NodeKind) :
    decodeName name = .ok k ↔ name = k.name := by
  constructor
  · intro h
    unfold decodeName at h
    split at h
    · rename_i l hl
      obtain rfl := Except.ok.inj h
      have hname := List.find?_some hl
      exact (beq_iff_eq.1 hname).symm
    · cases h
  · rintro rfl
    rw [decodeName, ofName?_name]

theorem decode_eq_ok_iff (j : Json) (k : NodeKind) : decode j = .ok k ↔ Reads j k := by
  unfold decode
  split
  · simp [decodeName_eq_ok_iff, Reads]
  · simp [decodeName_eq_ok_iff, Reads]
  · rename_i name v hv
    constructor
    · intro h
      obtain ⟨_, _, h⟩ := bind_eq_ok.1 h
      cases h
    · rintro (h | h)
      · cases h
      · cases h
        exact absurd rfl hv
  · rename_i fields _ hfields
    refine ⟨nofun, ?_⟩
    rintro (h | h)
    · cases h
    · cases h
      exact absurd rfl (hfields _ _)
  · rename_i hstring hnull hsingle hobject
    refine ⟨nofun, ?_⟩
    rintro (rfl | rfl)
    · exact absurd rfl (hstring _)
    · exact absurd rfl (hobject _)

/-- A value that lists kinds, or null for no list. -/
def ReadsList (j : Json) (kinds : Option (List NodeKind)) : Prop :=
  (j = .null ∧ kinds = none) ∨
    ∃ items ks, j = .array items ∧ kinds = some ks ∧ List.Forall₂ Reads items ks

theorem decodeList_eq_ok_iff (j : Json) (kinds : Option (List NodeKind)) :
    decodeList j = .ok kinds ↔ ReadsList j kinds := by
  cases j with
  | null => simp [decodeList, ReadsList, eq_comm]
  | array items =>
    rw [decodeList, map_eq_ok]
    simp [Json.mapM_eq_ok_iff decode_eq_ok_iff, ReadsList, eq_comm, and_comm]
  | _ => simp [decodeList, ReadsList]

end NodeKind

/-! ### Options -/

namespace ParseOptions

/-- What the options are decoded from: a record that may have an offset, which is a number. -/
def Reads (j : Json) (o : ParseOptions) : Prop :=
  j.isRecord ["offset"] ∧
    Json.Holds (fun v n => v = .nat n) 0 (j.field? ["offset"] "offset") o.offset

/-- The fields of the options. -/
def fields : Json.RecordFields ParseOptions Nat where
  names := ["offset"]
  get _ o := o.offset
  put _ n o := { o with offset := n }
  nodup := by decide
  get_put _ _ _ _ := rfl
  get_put_of_ne := by simp
  ext := by
    rintro ⟨m⟩ ⟨n⟩ h
    simpa using h

theorem decode_eq (j : Json) :
    decode j = Json.decodeRecord "ParseOptions" fields.names (fields.set Json.decodeNat) {} j := by
  refine Json.decodeRecord_congr fun o name v => ?_
  by_cases h : name = "offset"
  · subst h
    rfl
  · simp [Json.RecordFields.set, fields, h]

theorem decode_eq_ok_iff {j : Json} (hj : j.Ascending) (o : ParseOptions) :
    decode j = .ok o ↔ Reads j o := by
  rw [decode_eq, fields.decodeRecord_eq_ok_iff Json.decodeNat_eq_ok_iff _ hj]
  simp [Reads, fields]

end ParseOptions

namespace WalkOptions

/-- What the options are decoded from: a record that may have two lists of kinds. -/
def Reads (j : Json) (o : WalkOptions) : Prop :=
  j.isRecord ["visitList", "ignoreList"] ∧
    Json.Holds NodeKind.ReadsList none (j.field? ["visitList", "ignoreList"] "visitList")
      o.visitList ∧
    Json.Holds NodeKind.ReadsList none (j.field? ["visitList", "ignoreList"] "ignoreList")
      o.ignoreList

/-- The fields of the options. -/
def fields : Json.RecordFields WalkOptions (Option (List NodeKind)) where
  names := ["visitList", "ignoreList"]
  get name o := if name = "visitList" then o.visitList else o.ignoreList
  put name kinds o :=
    if name = "visitList" then { o with visitList := kinds } else { o with ignoreList := kinds }
  nodup := by decide
  get_put := by simp
  get_put_of_ne := by simp
  ext := by
    rintro ⟨v, i⟩ ⟨w, k⟩ h
    simpa using h

theorem decode_eq (j : Json) :
    decode j =
      Json.decodeRecord "WalkOptions" fields.names (fields.set NodeKind.decodeList) {} j := by
  refine Json.decodeRecord_congr fun o name v => ?_
  by_cases hvisit : name = "visitList"
  · subst hvisit
    rfl
  · by_cases hignore : name = "ignoreList"
    · subst hignore
      rfl
    · simp [Json.RecordFields.set, fields, hvisit, hignore]

theorem decode_eq_ok_iff {j : Json} (hj : j.Ascending) (o : WalkOptions) :
    decode j = .ok o ↔ Reads j o := by
  rw [decode_eq, fields.decodeRecord_eq_ok_iff NodeKind.decodeList_eq_ok_iff _ hj]
  simp [Reads, fields]

end WalkOptions

namespace CompoundOptions

/-- What the options are decoded from: a record that may have a truth value. -/
def Reads (j : Json) (o : CompoundOptions) : Prop :=
  j.isRecord ["splitPseudoElements"] ∧
    Json.Holds (fun v b => v = .bool b) true (j.field? ["splitPseudoElements"] "splitPseudoElements")
      o.splitPseudoElements

/-- The fields of the options. -/
def fields : Json.RecordFields CompoundOptions Bool where
  names := ["splitPseudoElements"]
  get _ o := o.splitPseudoElements
  put _ b o := { o with splitPseudoElements := b }
  nodup := by decide
  get_put _ _ _ _ := rfl
  get_put_of_ne := by simp
  ext := by
    rintro ⟨b⟩ ⟨c⟩ h
    simpa using h

theorem decode_eq (j : Json) :
    decode j =
      Json.decodeRecord "CompoundOptions" fields.names (fields.set Json.decodeBool) {} j := by
  refine Json.decodeRecord_congr fun o name v => ?_
  by_cases h : name = "splitPseudoElements"
  · subst h
    rfl
  · simp [Json.RecordFields.set, fields, h]

theorem decode_eq_ok_iff {j : Json} (hj : j.Ascending) (o : CompoundOptions) :
    decode j = .ok o ↔ Reads j o := by
  rw [decode_eq, fields.decodeRecord_eq_ok_iff Json.decodeBool_eq_ok_iff _ hj]
  simp [Reads, fields]

end CompoundOptions

end Selectors
