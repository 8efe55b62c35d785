import Mathlib.Data.String.Basic
import Selectors.Json.Reader

/-!
# Objects with ascending names

The fields of an object stand in the order of their names, and each name is there once.  That holds
of a value read from text, at every depth (`Json.ascending_of_read`): a field that is read is put in
its place among those read before.
-/

namespace Selectors

theorem bind_eq_ok {ε α β : Type} {x : Except ε α} {f : α → Except ε β} {b : β} :
    (x >>= f) = .ok b ↔ ∃ a, x = .ok a ∧ f a = .ok b := by
  cases x with
  | error e => exact ⟨nofun, fun | ⟨_, h, _⟩ => nomatch h⟩
  | ok a => exact ⟨fun h => ⟨a, rfl, h⟩, fun ⟨_, h, hf⟩ => Except.ok.inj h ▸ hf⟩

theorem map_eq_ok {ε α β : Type} {x : Except ε α} {f : α → β} {b : β} :
    x.map f = .ok b ↔ ∃ a, x = .ok a ∧ f a = b := by
  cases x with
  | error e => exact ⟨nofun, fun | ⟨_, h, _⟩ => nomatch h⟩
  | ok a => exact ⟨fun h => ⟨a, rfl, Except.ok.inj h⟩, fun ⟨_, h, hf⟩ => Except.ok.inj h ▸ hf ▸ rfl⟩

namespace Json

/-- Every object in a value, at any depth, has its fields by ascending name. -/
inductive Ascending : Json → Prop where
  | null : Ascending null
  | bool (b : Bool) : Ascending (bool b)
  | number (n : Number) : Ascending (number n)
  | string (s : String) : Ascending (string s)
  | array {items : List Json} (h : ∀ j ∈ items, Ascending j) : Ascending (array items)
  | object {fields : List (String × Json)} (hnames : fields.Pairwise fun f g => f.1 < g.1)
      (h : ∀ f ∈ fields, Ascending f.2) : Ascending (object fields)

@[simp] theorem ascending_array {items : List Json} :
    (array items).Ascending ↔ ∀ j ∈ items, j.Ascending :=
  ⟨fun | .array h => h, .array⟩

@[simp] theorem ascending_object {fields : List (String × Json)} :
    (object fields).Ascending ↔
      (fields.Pairwise fun f g => f.1 < g.1) ∧ ∀ f ∈ fields, f.2.Ascending :=
  ⟨fun | .object hnames h => ⟨hnames, h⟩, fun h => .object h.1 h.2⟩

/-- No name stands twice. -/
theorem Ascending.nodup {fields : List (String × Json)} (h : (Json.object fields).Ascending) :
    (fields.map Prod.fst).Nodup := by
  refine List.pairwise_map.2 ((ascending_object.1 h).1.imp fun hlt => ?_)
  exact ne_of_lt hlt

theorem Ascending.tail {f : String × Json} {fields : List (String × Json)}
    (h : (Json.object (f :: fields)).Ascending) : (Json.object fields).Ascending := by
  obtain ⟨hnames, h⟩ := ascending_object.1 h
  exact .object hnames.tail fun g hg => h g (List.mem_cons_of_mem f hg)

/-! ### Values read from text -/

theorem mem_insertField {name : String} {j : Json} {fields : List (String × Json)}
    {f : String × Json} (h : f ∈ insertField name j fields) : f = (name, j) ∨ f ∈ fields := by
  fun_induction insertField name j fields with
  | case1 => simpa using h
  | case2 => exact List.mem_cons.1 h
  | case3 => exact (List.mem_cons.1 h).imp_right (List.mem_cons_of_mem _)
  | case4 other k rest _ _ ih =>
    rcases List.mem_cons.1 h with rfl | h
    · exact .inr (List.mem_cons_self ..)
    · exact (ih h).imp_right (List.mem_cons_of_mem _)

/-- A field is put where it leaves the names ascending. -/
theorem Ascending.insertField {name : String} {j : Json} {fields : List (String × Json)}
    (hfields : (Json.object fields).Ascending) (hj : j.Ascending) :
    (Json.object (Json.insertField name j fields)).Ascending := by
  obtain ⟨hnames, hvalues⟩ := ascending_object.1 hfields
  refine .object ?_ fun f hf => ?_
  · clear hvalues hfields
    fun_induction Json.insertField name j fields with
    | case1 => exact List.pairwise_singleton ..
    | case2 other k rest hlt =>
      refine List.pairwise_cons.2 ⟨fun f hf => ?_, hnames⟩
      rcases List.mem_cons.1 hf with rfl | hf
      · exact hlt
      · exact hlt.trans (List.rel_of_pairwise_cons hnames hf)
    | case3 k rest => exact List.pairwise_cons.2 (List.pairwise_cons.1 hnames)
    | case4 other k rest hlt hne ih =>
      refine List.pairwise_cons.2 ⟨fun f hf => ?_, ih hnames.tail⟩
      rcases mem_insertField hf with rfl | hf
      · exact lt_of_le_of_ne (not_lt.1 hlt) (Ne.symm hne)
      · exact List.rel_of_pairwise_cons hnames hf
  · rcases mem_insertField hf with rfl | hf
    · exact hj
    · exact hvalues f hf

/-- What is read with some fuel is ascending; fields are read on top of others. -/
structure ScansAscending (fuel : Nat) : Prop where
  value : ∀ {cs r}, scanValue fuel cs = .ok r → r.1.Ascending
  items : ∀ {first cs r}, scanItems fuel first cs = .ok r → ∀ j ∈ r.1, j.Ascending
  fields : ∀ {first fields cs r}, (object fields).Ascending →
    scanFields fuel first fields cs = .ok r → (object r.1).Ascending

namespace ScansAscending

variable {fuel : Nat} {first : Bool} {fields : List (String × Json)} {cs : List Char}

theorem value_succ (ih : ScansAscending fuel) {r : Json × List Char}
    (h : scanValue (fuel + 1) cs = .ok r) : r.1.Ascending := by
  rw [scanValue] at h
  split at h
  · cases h
  split at h
  · obtain ⟨_, _, h⟩ := bind_eq_ok.1 h
    obtain rfl := Except.ok.inj h
    exact .null
  · obtain ⟨_, _, h⟩ := bind_eq_ok.1 h
    obtain rfl := Except.ok.inj h
    exact .bool true
  · obtain ⟨_, _, h⟩ := bind_eq_ok.1 h
    obtain rfl := Except.ok.inj h
    exact .bool false
  · obtain ⟨_, _, rfl⟩ := map_eq_ok.1 h
    exact .string _
  · obtain ⟨_, hread, rfl⟩ := map_eq_ok.1 h
    exact .array (ih.items hread)
  · obtain ⟨_, hread, rfl⟩ := map_eq_ok.1 h
    exact ih.fields (.object .nil nofun) hread
  · obtain ⟨_, _, rfl⟩ := map_eq_ok.1 h
    exact .number _
  · split at h
    · obtain ⟨_, _, rfl⟩ := map_eq_ok.1 h
      exact .number _
    · cases h

theorem items_succ (ih : ScansAscending fuel) {r : List Json × List Char}
    (h : scanItems (fuel + 1) first cs = .ok r) : ∀ j ∈ r.1, j.Ascending := by
  rw [scanItems] at h
  split at h
  · cases h
  · obtain rfl := Except.ok.inj h
    nofun
  · dsimp only at h
    split at h
    on_goal 2 => split at h
    on_goal 3 => cases h
    -- the first item, or one behind a comma
    all_goals
      obtain ⟨start, _, h⟩ := bind_eq_ok.1 h
      obtain ⟨⟨j, cs⟩, hj, h⟩ := bind_eq_ok.1 h
      obtain ⟨⟨js, cs⟩, hjs, h⟩ := bind_eq_ok.1 h
      obtain rfl := Except.ok.inj h
      exact List.forall_mem_cons.2 ⟨ih.value hj, ih.items hjs⟩

theorem fields_succ (ih : ScansAscending fuel) {r : List (String × Json) × List Char}
    (hfields : (object fields).Ascending) (h : scanFields (fuel + 1) first fields cs = .ok r) :
    (object r.1).Ascending := by
  rw [scanFields] at h
  split at h
  · cases h
  · obtain rfl := Except.ok.inj h
    exact hfields
  · dsimp only at h
    split at h
    on_goal 2 => split at h
    on_goal 3 => cases h
    all_goals
      obtain ⟨start, _, h⟩ := bind_eq_ok.1 h
      split at h
      · cases h
      · obtain ⟨⟨name, cs⟩, _, h⟩ := bind_eq_ok.1 h
        obtain ⟨cs, _, h⟩ := bind_eq_ok.1 h
        obtain ⟨⟨j, cs⟩, hj, h⟩ := bind_eq_ok.1 h
        exact ih.fields (hfields.insertField (ih.value hj)) h
      · cases h

end ScansAscending

theorem scansAscending (fuel : Nat) : ScansAscending fuel := by
  induction fuel with
  | zero => exact ⟨nofun, nofun, nofun⟩
  | succ fuel ih => exact ⟨ih.value_succ, ih.items_succ, ih.fields_succ⟩

/-- **Values read from text have ascending names**, at every depth. -/
theorem ascending_of_read {text : String} {j : Json} (h : read text = .ok j) : j.Ascending := by
  obtain ⟨r, hr, hend⟩ := bind_eq_ok.1 h
  have hj : r.1 = j := by
    rw [atEnd] at hend
    split at hend
    · exact Except.ok.inj hend
    · cases hend
  exact hj ▸ (scansAscending _).value hr

end Json

end Selectors
