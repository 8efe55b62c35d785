import Selectors.Config
import Selectors.Proofs.Config.Records

/-!
# Runs of updates

An update takes up its sections by name, up to the first known one that does not decode; it is said
to *reach* these sections.  A section that is reached and decodes is *set*: replaced as a whole.

So after any run of updates a section is what the last update that sets it says, or what it was
before the run if none does (`Config.updates_latest`).  Errors name the section at which an update
ends, and keys that are unknown make no difference.

The names of an update have to ascend.  Those of a value read from text do
(`Config.latest_updates_of_read`).
-/

namespace Selectors

/-! ### Sections -/

namespace ConfigSection

variable {s : ConfigSection} {name : String} {j : Json}

/-- The options of a section. -/
def Options : ConfigSection → Type
  | parse => ParseOptions
  | walk => WalkOptions
  | compound => CompoundOptions

/-- Decodes the options of a section. -/
def decode : (s : ConfigSection) → Json → Except DecodeError s.Options
  | parse => ParseOptions.decode
  | walk => WalkOptions.decode
  | compound => CompoundOptions.decode

/-- What the options of a section are decoded from. -/
def Reads : (s : ConfigSection) → Json → s.Options → Prop
  | parse => ParseOptions.Reads
  | walk => WalkOptions.Reads
  | compound => CompoundOptions.Reads

/-- An entry from which the options of a section are decoded. -/
def Accepts (s : ConfigSection) (j : Json) : Prop := ∃ v, s.Reads j v

/-- The names of the fields of a section. -/
def fieldNames : ConfigSection → List String
  | parse => ["offset"]
  | walk => ["visitList", "ignoreList"]
  | compound => ["splitPseudoElements"]

theorem decode_eq_ok_iff (hj : j.Ascending) (v : s.Options) : s.decode j = .ok v ↔ s.Reads j v := by
  cases s with
  | parse => exact ParseOptions.decode_eq_ok_iff hj v
  | walk => exact WalkOptions.decode_eq_ok_iff hj v
  | compound => exact CompoundOptions.decode_eq_ok_iff hj v

theorem not_accepts_of_error (hj : j.Ascending) {e : DecodeError} (h : s.decode j = .error e) :
    ¬s.Accepts j := by
  rintro ⟨v, hv⟩
  rw [← decode_eq_ok_iff hj, h] at hv
  cases hv

theorem accepts_of_ok (hj : j.Ascending) {v : s.Options} (h : s.decode j = .ok v) : s.Accepts j :=
  ⟨v, (decode_eq_ok_iff hj v).1 h⟩

theorem decode_only (s : ConfigSection) (j : Json) :
    s.decode (j.only s.fieldNames) = s.decode j := by
  cases s with
  | parse =>
    show ParseOptions.decode _ = ParseOptions.decode j
    rw [ParseOptions.decode_eq, ParseOptions.decode_eq]
    exact ParseOptions.fields.decodeRecord_only ..
  | walk =>
    show WalkOptions.decode _ = WalkOptions.decode j
    rw [WalkOptions.decode_eq, WalkOptions.decode_eq]
    exact WalkOptions.fields.decodeRecord_only ..
  | compound =>
    show CompoundOptions.decode _ = CompoundOptions.decode j
    rw [CompoundOptions.decode_eq, CompoundOptions.decode_eq]
    exact CompoundOptions.fields.decodeRecord_only ..

theorem ofName?_eq_some_iff : ofName? name = some s ↔ s.name = name := by
  constructor
  · intro h
    have hname := List.find?_some h
    exact beq_iff_eq.1 hname
  · rintro rfl
    cases s <;> decide

theorem name_injective {r : ConfigSection} (h : r.name = s.name) : r = s := by
  have hr := ofName?_eq_some_iff.2 h
  rw [ofName?_eq_some_iff.2 rfl] at hr
  exact (Option.some.inj hr).symm

theorem ofName?_eq_none_iff : ofName? name = none ↔ ∀ s : ConfigSection, s.name ≠ name := by
  rw [Option.eq_none_iff_forall_ne_some]
  exact forall_congr' fun s => not_congr ofName?_eq_some_iff

end ConfigSection

namespace Config

variable {c : Config} {s : ConfigSection}

/-- The options of a section. -/
def get (c : Config) : (s : ConfigSection) → s.Options
  | .parse => c.parse
  | .walk => c.walk
  | .compound => c.compound

/-- The configuration with the options of one section replaced. -/
def put (c : Config) : (s : ConfigSection) → s.Options → Config
  | .parse, o => { c with parse := o }
  | .walk, o => { c with walk := o }
  | .compound, o => { c with compound := o }

@[simp] theorem get_put_self (c : Config) (s : ConfigSection) (v : s.Options) :
    (c.put s v).get s = v := by
  cases s <;> rfl

theorem get_put_of_ne {r : ConfigSection} (h : r ≠ s) (v : s.Options) :
    (c.put s v).get r = c.get r := by
  cases s <;> cases r <;> first | rfl | exact absurd rfl h

theorem set_eq (c : Config) (j : Json) (s : ConfigSection) :
    c.set j s = (s.decode j).map (c.put s) := by
  cases s with
  | parse => simp only [set, ConfigSection.decode]; cases ParseOptions.decode j <;> rfl
  | walk => simp only [set, ConfigSection.decode]; cases WalkOptions.decode j <;> rfl
  | compound => simp only [set, ConfigSection.decode]; cases CompoundOptions.decode j <;> rfl

end Config

/-! ### What one update does -/

namespace Json

variable {fields : List (String × Json)} {name : String} {v j : Json} {s : ConfigSection}

/-- An update comes to its entry `j` for a section: all known sections of smaller name decode. -/
def Reaches (u : Json) (s : ConfigSection) (j : Json) : Prop :=
  ∃ fields, u = object fields ∧ (s.name, j) ∈ fields ∧
    ∀ r k, (ConfigSection.name r, k) ∈ fields → r.name < s.name → r.Accepts k

/-- An update sets a section to the options that its entry stands for. -/
def Sets (u : Json) (s : ConfigSection) (v : s.Options) : Prop := ∃ j, u.Reaches s j ∧ s.Reads j v

/-- An update without unknown keys, in its sections too. -/
def known : Json → Json
  | object fields =>
    object (fields.filterMap fun f =>
      (ConfigSection.ofName? f.1).map fun s => (f.1, f.2.only s.fieldNames))
  | u => u

theorem reaches_nil : ¬(object []).Reaches s j := by
  rintro ⟨_, h, hj, _⟩
  cases h
  cases hj

/-- Sections are reached by name: the first entry at once, the others if it is no section that does
not decode. -/
theorem reaches_cons (h : (object ((name, v) :: fields)).Ascending) :
    (object ((name, v) :: fields)).Reaches s j ↔
      (s.name = name ∧ j = v) ∨
        (object fields).Reaches s j ∧ ∀ r : ConfigSection, r.name = name → r.Accepts v := by
  have hless := (List.pairwise_cons.1 (ascending_object.1 h).1).1
  constructor
  · rintro ⟨_, h, hj, hsmaller⟩
    cases h
    rcases List.mem_cons.1 hj with hhead | htail
    · exact .inl (Prod.mk.inj hhead)
    · refine .inr ⟨⟨fields, rfl, htail, fun r k hk => hsmaller r k (List.mem_cons_of_mem _ hk)⟩, ?_⟩
      rintro r rfl
      exact hsmaller r v (List.mem_cons_self ..) (hless (s.name, j) htail)
  · rintro (⟨rfl, rfl⟩ | ⟨⟨_, h, hj, hsmaller⟩, hhead⟩)
    · refine ⟨_, rfl, List.mem_cons_self .., fun r k hk hlt => ?_⟩
      rcases List.mem_cons.1 hk with hk | hk
      · exact absurd hlt ((Prod.mk.inj hk).1 ▸ lt_irrefl _)
      · exact absurd hlt (hless _ hk).asymm
    · cases h
      refine ⟨_, rfl, List.mem_cons_of_mem _ hj, fun r k hk hlt => ?_⟩
      rcases List.mem_cons.1 hk with hk | hk
      · obtain ⟨hr, rfl⟩ := Prod.mk.inj hk
        exact hhead r hr
      · exact hsmaller r k hk hlt

/-- No section is reached twice. -/
theorem not_reaches_tail (h : (object ((s.name, v) :: fields)).Ascending) :
    ¬(object fields).Reaches s j := by
  rintro ⟨_, hfields, hj, _⟩
  cases hfields
  have hless := List.pairwise_cons.1 (ascending_object.1 h).1
  exact lt_irrefl s.name (hless.1 _ hj)

end Json

namespace Config

variable {c : Config} {fields : List (String × Json)} {name : String} {j : Json} {u : Json}
  {s : ConfigSection}

/-- The ways to take up an entry: it is unknown, or decodes, or ends the update. -/
theorem updateSections_cases (c : Config) (name : String) (j : Json)
    (fields : List (String × Json)) :
    ((∀ s : ConfigSection, s.name ≠ name) ∧
        (c.updateSections ((name, j) :: fields)).config = (c.updateSections fields).config ∧
        (c.updateSections ((name, j) :: fields)).error = (c.updateSections fields).error) ∨
      (∃ (s : ConfigSection) (v : s.Options), s.name = name ∧ s.decode j = .ok v ∧
        c.updateSections ((name, j) :: fields) = (c.put s v).updateSections fields) ∨
      ∃ (s : ConfigSection) (cause : DecodeError), s.name = name ∧ s.decode j = .error cause ∧
        c.updateSections ((name, j) :: fields) =
          { config := c, error := some (.invalidSection s cause) } := by
  cases hname : ConfigSection.ofName? name with
  | none =>
    refine .inl ⟨ConfigSection.ofName?_eq_none_iff.1 hname, ?_⟩
    rw [updateSections, hname]
    exact ⟨rfl, rfl⟩
  | some s =>
    refine .inr ?_
    cases hj : s.decode j with
    | ok v =>
      refine .inl ⟨s, v, ConfigSection.ofName?_eq_some_iff.1 hname, hj, ?_⟩
      simp only [updateSections, hname, set_eq, hj, Except.map]
    | error cause =>
      refine .inr ⟨s, cause, ConfigSection.ofName?_eq_some_iff.1 hname, hj, ?_⟩
      simp only [updateSections, hname, set_eq, hj, Except.map]

/-- A section is left as the update sets it, or else as it was. -/
theorem get_updateSections (h : (Json.object fields).Ascending) (c : Config) (s : ConfigSection) :
    (Json.object fields).Sets s ((c.updateSections fields).config.get s) ∨
      (∀ v, ¬(Json.object fields).Sets s v) ∧
        (c.updateSections fields).config.get s = c.get s := by
  induction fields generalizing c with
  | nil => exact .inr ⟨fun v ⟨_, hj, _⟩ => Json.reaches_nil hj, rfl⟩
  | cons f fields ih =>
    obtain ⟨name, j⟩ := f
    have hj : j.Ascending := (Json.ascending_object.1 h).2 _ (List.mem_cons_self ..)
    -- behind an entry that does not end the update, the others have their say
    have hrest (hhead : ∀ r : ConfigSection, r.name = name → r.Accepts j) (hs : s.name ≠ name)
        (v : s.Options) : (Json.object ((name, j) :: fields)).Sets s v ↔
          (Json.object fields).Sets s v := by
      refine exists_congr fun k => and_congr_left fun _ => ?_
      rw [Json.reaches_cons h, or_iff_right fun hk => hs hk.1, and_iff_left hhead]
    rcases c.updateSections_cases name j fields with
      ⟨hunknown, hconfig, -⟩ | ⟨r, w, rfl, hw, hupdate⟩ | ⟨r, cause, rfl, hcause, hupdate⟩
    · have hhead (r : ConfigSection) (hr : r.name = name) : r.Accepts j := absurd hr (hunknown r)
      simp only [hrest hhead (hunknown s), hconfig]
      exact ih h.tail c
    · rw [hupdate]
      by_cases hs : s = r
      · subst hs
        have hget : ((c.put s w).updateSections fields).config.get s = w := by
          rcases ih h.tail (c.put s w) with ⟨k, hk, -⟩ | ⟨-, hget⟩
          · exact absurd hk (Json.not_reaches_tail h)
          · rw [hget, get_put_self]
        refine .inl ⟨j, (Json.reaches_cons h).2 (.inl ⟨rfl, rfl⟩), ?_⟩
        rw [hget, ← ConfigSection.decode_eq_ok_iff hj, hw]
      · have hhead (q : ConfigSection) (hq : q.name = r.name) : q.Accepts j := by
          rw [ConfigSection.name_injective hq]
          exact ConfigSection.accepts_of_ok hj hw
        have hget := ih h.tail (c.put r w)
        rw [get_put_of_ne hs] at hget
        simpa only [hrest hhead fun hname => hs (ConfigSection.name_injective hname)] using hget
    · have hfails := ConfigSection.not_accepts_of_error hj hcause
      refine .inr ⟨?_, by rw [hupdate]⟩
      rintro v ⟨k, hk, hv⟩
      rcases (Json.reaches_cons h).1 hk with ⟨hname, rfl⟩ | ⟨-, hhead⟩
      · obtain rfl := ConfigSection.name_injective hname
        exact hfails ⟨v, hv⟩
      · exact hfails (hhead r rfl)

/-- An update of sections fails at the first known one that does not decode. -/
theorem error_updateSections (h : (Json.object fields).Ascending) (c : Config) (e : ConfigError) :
    (c.updateSections fields).error = some e ↔
      ∃ s j cause, (Json.object fields).Reaches s j ∧ ¬s.Accepts j ∧ s.decode j = .error cause ∧
        e = .invalidSection s cause := by
  induction fields generalizing c with
  | nil => exact ⟨nofun, fun ⟨_, _, _, hj, _⟩ => absurd hj Json.reaches_nil⟩
  | cons f fields ih =>
    obtain ⟨name, j⟩ := f
    have hj : j.Ascending := (Json.ascending_object.1 h).2 _ (List.mem_cons_self ..)
    -- an error behind an entry that does not end the update is an error of the others
    have hrest (hhead : ∀ r : ConfigSection, r.name = name → r.Accepts j) :
        (∃ s k cause, (Json.object ((name, j) :: fields)).Reaches s k ∧ ¬s.Accepts k ∧
            s.decode k = .error cause ∧ e = .invalidSection s cause) ↔
          ∃ s k cause, (Json.object fields).Reaches s k ∧ ¬s.Accepts k ∧
            s.decode k = .error cause ∧ e = .invalidSection s cause := by
      refine exists₃_congr fun s k cause => and_congr_left fun ⟨hfails, _⟩ => ?_
      rw [Json.reaches_cons h, and_iff_left hhead, or_iff_right]
      rintro ⟨hs, rfl⟩
      exact hfails (hhead s hs)
    rcases c.updateSections_cases name j fields with
      ⟨hunknown, -, herror⟩ | ⟨r, w, rfl, hw, hupdate⟩ | ⟨r, cause, rfl, hcause, hupdate⟩
    · rw [herror, hrest fun r hr => absurd hr (hunknown r)]
      exact ih h.tail c
    · rw [hupdate, hrest]
      · exact ih h.tail (c.put r w)
      · intro q hq
        rw [ConfigSection.name_injective hq]
        exact ConfigSection.accepts_of_ok hj hw
    · have hfails := ConfigSection.not_accepts_of_error hj hcause
      rw [hupdate]
      constructor
      · intro he
        have hreaches := (Json.reaches_cons h).2 (.inl ⟨rfl, rfl⟩)
        exact ⟨r, j, cause, hreaches, hfails, hcause, (Option.some.inj he).symm⟩
      · rintro ⟨s, k, cause', hk, -, hcause', rfl⟩
        rcases (Json.reaches_cons h).1 hk with ⟨hname, rfl⟩ | ⟨-, hhead⟩
        · obtain rfl := ConfigSection.name_injective hname
          rw [Except.error.inj (hcause.symm.trans hcause')]
        · exact absurd (hhead r rfl) hfails

/-- An update of sections succeeds if every known one decodes. -/
theorem error_updateSections_eq_none (h : (Json.object fields).Ascending) (c : Config) :
    (c.updateSections fields).error = none ↔
      ∀ s j, (ConfigSection.name s, j) ∈ fields → s.Accepts j := by
  induction fields generalizing c with
  | nil => exact ⟨fun _ _ _ hk => (List.not_mem_nil hk).elim, fun _ => rfl⟩
  | cons f fields ih =>
    obtain ⟨name, j⟩ := f
    have hj : j.Ascending := (Json.ascending_object.1 h).2 _ (List.mem_cons_self ..)
    have hrest (hhead : ∀ r : ConfigSection, r.name = name → r.Accepts j) :
        (∀ s k, (ConfigSection.name s, k) ∈ (name, j) :: fields → s.Accepts k) ↔
          ∀ s k, (ConfigSection.name s, k) ∈ fields → s.Accepts k := by
      refine forall₂_congr fun s k => ?_
      rw [List.mem_cons, or_imp, and_iff_right]
      intro hk
      obtain ⟨hs, rfl⟩ := Prod.mk.inj hk
      exact hhead s hs
    rcases c.updateSections_cases name j fields with
      ⟨hunknown, -, herror⟩ | ⟨r, w, rfl, hw, hupdate⟩ | ⟨r, cause, rfl, hcause, hupdate⟩
    · rw [herror, hrest fun r hr => absurd hr (hunknown r)]
      exact ih h.tail c
    · rw [hupdate, hrest]
      · exact ih h.tail (c.put r w)
      · intro q hq
        rw [ConfigSection.name_injective hq]
        exact ConfigSection.accepts_of_ok hj hw
    · rw [hupdate]
      refine ⟨nofun, fun hall => ?_⟩
      exact absurd (hall r j (List.mem_cons_self ..)) (ConfigSection.not_accepts_of_error hj hcause)

/-- Unknown keys make no difference to an update of sections. -/
theorem updateSections_known (c : Config) (fields : List (String × Json)) :
    (c.update (Json.object fields).known).config = (c.updateSections fields).config ∧
      (c.update (Json.object fields).known).error = (c.updateSections fields).error := by
  induction fields generalizing c with
  | nil => exact ⟨rfl, rfl⟩
  | cons f fields ih =>
    obtain ⟨name, j⟩ := f
    simp only [Json.known, update] at ih ⊢
    cases hname : ConfigSection.ofName? name with
    | none =>
      rw [List.filterMap_cons_none (by simp [hname])]
      simpa only [updateSections, hname] using ih c
    | some s =>
      rw [List.filterMap_cons_some (b := (name, j.only s.fieldNames)) (by simp [hname])]
      simp only [updateSections, hname, set_eq, ConfigSection.decode_only]
      cases s.decode j with
      | ok v => exact ih (c.put s v)
      | error cause => exact ⟨rfl, rfl⟩

/-! ### Any update -/

theorem get_update (hu : u.Ascending) (c : Config) (s : ConfigSection) :
    u.Sets s ((c.update u).config.get s) ∨
      (∀ v, ¬u.Sets s v) ∧ (c.update u).config.get s = c.get s := by
  cases u with
  | object fields => exact get_updateSections hu c s
  | _ => exact .inr ⟨fun _ ⟨_, ⟨_, h, _⟩, _⟩ => (nomatch h), rfl⟩

theorem error_update_eq_none (hu : u.Ascending) (c : Config) :
    (c.update u).error = none ↔
      ∃ fields, u = .object fields ∧ ∀ s j, (ConfigSection.name s, j) ∈ fields → s.Accepts j := by
  cases u with
  | object fields =>
    rw [update, error_updateSections_eq_none hu]
    simp
  | _ => exact ⟨nofun, fun ⟨_, h, _⟩ => nomatch h⟩

theorem error_update (hu : u.Ascending) (c : Config) (e : ConfigError) :
    (c.update u).error = some e ↔
      (e = .notAnObject u ∧ ∀ fields, u ≠ .object fields) ∨
        ∃ s j cause, u.Reaches s j ∧ ¬s.Accepts j ∧ s.decode j = .error cause ∧
          e = .invalidSection s cause := by
  cases u with
  | object fields =>
    rw [update, error_updateSections hu, or_iff_right]
    exact fun h => h.2 fields rfl
  | _ =>
    rw [or_iff_left fun ⟨_, _, _, ⟨_, h, _⟩, _⟩ => nomatch h]
    exact ⟨fun h => ⟨(Option.some.inj h).symm, nofun⟩, fun h => congrArg some h.1.symm⟩

theorem update_known (c : Config) (u : Json) :
    (c.update u.known).config = (c.update u).config ∧
      (c.update u.known).error = (c.update u).error := by
  cases u with
  | object fields => exact updateSections_known c fields
  | _ => exact ⟨rfl, rfl⟩

/-! ### Runs -/

/-- The configuration after a run of updates. -/
def updates (c : Config) (us : List Json) : Config := us.foldl (fun c u => (c.update u).config) c

end Config

/-- After a run of updates, a section is what the last one that sets it says, or else as it was. -/
def ConfigSection.Latest (s : ConfigSection) (us : List Json) (old new : s.Options) : Prop :=
  (∃ pre u post, us = pre ++ u :: post ∧ u.Sets s new ∧ ∀ w ∈ post, ∀ v, ¬w.Sets s v) ∨
    (∀ u ∈ us, ∀ v, ¬u.Sets s v) ∧ new = old

namespace Config

theorem latest_updates {us : List Json} (h : ∀ u ∈ us, u.Ascending) (c : Config)
    (s : ConfigSection) : s.Latest us (c.get s) ((c.updates us).get s) := by
  induction us generalizing c with
  | nil => exact .inr ⟨nofun, rfl⟩
  | cons u us ih =>
    obtain ⟨hu, hus⟩ := List.forall_mem_cons.1 h
    have hrun : c.updates (u :: us) = (c.update u).config.updates us := rfl
    rw [hrun]
    rcases ih hus (c.update u).config with ⟨pre, w, post, rfl, hw, hpost⟩ | ⟨hnone, hget⟩
    · exact .inl ⟨u :: pre, w, post, rfl, hw, hpost⟩
    · rw [hget]
      rcases get_update hu c s with hset | ⟨hnot, hkept⟩
      · exact .inl ⟨[], u, us, rfl, hset, hnone⟩
      · exact .inr ⟨List.forall_mem_cons.2 ⟨hnot, hnone⟩, hkept⟩

/-- **Updates read from texts.**  Their names ascend, so a run of them needs no condition. -/
theorem latest_updates_of_read {us : List Json}
    (h : ∀ u ∈ us, ∃ text, Json.read text = .ok u) (c : Config) (s : ConfigSection) :
    s.Latest us (c.get s) ((c.updates us).get s) := by
  refine latest_updates (fun u hu => ?_) c s
  obtain ⟨text, htext⟩ := h u hu
  exact Json.ascending_of_read htext

/-- An update read from a text fails if it is no object, or at the first section that does not
decode. -/
theorem error_update_of_read {text : String} (h : Json.read text = .ok u) (c : Config)
    (e : ConfigError) :
    (c.update u).error = some e ↔
      (e = .notAnObject u ∧ ∀ fields, u ≠ .object fields) ∨
        ∃ s j cause, u.Reaches s j ∧ ¬s.Accepts j ∧ s.decode j = .error cause ∧
          e = .invalidSection s cause :=
  error_update (Json.ascending_of_read h) c e

theorem updates_known (c : Config) (us : List Json) :
    c.updates (us.map Json.known) = c.updates us := by
  rw [updates, List.foldl_map]
  exact congrArg (fun step => us.foldl step c) (funext₂ fun c u => (update_known c u).1)

/-- **Runs of updates.**  After any run and one more update, whatever was valid in them, every
section is decoded from its entry in the last update that sets it, or is as it was at first.  The
update fails if it is no object, or else at the first known section, by name, that does not decode.
Nothing of this depends on unknown keys. -/
theorem updates_latest (c : Config) (us : List Json) (u : Json)
    (h : ∀ w ∈ us ++ [u], w.Ascending) :
    let after := (c.updates us).update u
    (∀ s : ConfigSection, s.Latest (us ++ [u]) (c.get s) (after.config.get s)) ∧
      (after.error = none ↔
        ∃ fields, u = .object fields ∧
          ∀ s j, (ConfigSection.name s, j) ∈ fields → s.Accepts j) ∧
      (∀ e, after.error = some e ↔
        (e = .notAnObject u ∧ ∀ fields, u ≠ .object fields) ∨
          ∃ s j cause, u.Reaches s j ∧ ¬s.Accepts j ∧ s.decode j = .error cause ∧
            e = .invalidSection s cause) ∧
      ((c.updates (us.map Json.known)).update u.known).config = after.config ∧
      ((c.updates (us.map Json.known)).update u.known).error = after.error := by
  intro after
  have hu : u.Ascending := h u (List.mem_append_right _ (List.mem_singleton_self u))
  refine ⟨fun s => ?_, error_update_eq_none hu _, error_update hu _, ?_⟩
  · have hlatest := latest_updates h c s
    rwa [updates, List.foldl_concat] at hlatest
  · rw [updates_known]
    exact update_known _ u

/-- Three updates and one more: the second is no object, the third and the last have a section that
does not decode.  Each section comes from another one of them. -/
theorem updates_latest_partly_valid :
    let us : List Json :=
      [.object
          [("compound", .object [("splitPseudoElements", .bool false)]), ("other", .nat 1),
            ("walk", .object [("ignoreList", .array [.string "comment"])])],
        .array [.nat 1],
        .object
          [("compound", .object []), ("parse", .object [("offset", .number (.int (-1)))]),
            ("walk", .object [])]]
    let u : Json :=
      .object [("parse", .array [.nat 7]), ("walk", .object [("visitList", .string "all")])]
    let after := (({} : Config).updates us).update u
    (∀ w ∈ us ++ [u], w.Ascending) ∧
      after.config =
        { parse := { offset := 7 }
          walk := { ignoreList := some [.comment] }
          compound := { splitPseudoElements := true } } ∧
      (∀ s : ConfigSection, s.Latest (us ++ [u]) (({} : Config).get s) (after.config.get s)) ∧
      (after.error = none ↔
        ∃ fields, u = .object fields ∧
          ∀ s j, (ConfigSection.name s, j) ∈ fields → s.Accepts j) ∧
      (∀ e, after.error = some e ↔
        (e = .notAnObject u ∧ ∀ fields, u ≠ .object fields) ∨
          ∃ s j cause, u.Reaches s j ∧ ¬s.Accepts j ∧ s.decode j = .error cause ∧
            e = .invalidSection s cause) ∧
      ((({} : Config).updates (us.map Json.known)).update u.known).config = after.config ∧
      ((({} : Config).updates (us.map Json.known)).update u.known).error = after.error := by
  intro us u after
  have hascending : ∀ w ∈ us ++ [u], w.Ascending := by
    simp [-String.lt_iff_ltb, us, u, Json.nat, Json.Ascending.bool, Json.Ascending.number,
      Json.Ascending.string]
  exact ⟨hascending, by decide +kernel, updates_latest {} us u hascending⟩

end Config

end Selectors
