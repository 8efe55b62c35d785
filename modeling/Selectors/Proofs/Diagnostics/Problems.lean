import Selectors.Proofs.Diagnostics.Nesting
import Selectors.Proofs.StableSort

/-!
# What is diagnosed

An item marks a problem or none (`NodeRef.Marks`), and a list of items has the problems of its
items in their order (`MarkedIn`).  Diagnostics are the problems of the items in pre-order, sorted
stably by where they start (`diagnostics_exact`).  In a tree that was read from a text, grouped or
not, they stand in that order already, and inside the text.
-/

namespace Selectors

/-- The item marks the problem. -/
inductive NodeRef.Marks : NodeRef → Diagnostic → Prop where
  | invalidNode (span : Span) (text : String) :
    Marks (.node (.invalid span text)) ⟨.invalidNode text, span⟩
  | invalidCombinator {c : Combinator} (h : c.invalid = true) :
    Marks (.node (.combinator c)) ⟨.invalidCombinator c.text, c.span⟩
  | invalidNamespace (span : Span) (kind : ElementKind) (name : String) {ns : Namespace}
    {missing : NamespaceError} (h : ns.error = some missing) :
    Marks (.node (.element span kind name (some ns))) ⟨.invalidNamespace missing, span⟩
  | invalidNth (role : NthRole) {p : NthPart} (h : p.invalid = true) :
    Marks (.part (.part role p)) ⟨.invalidNth role p.text, p.span⟩
  | invalidCompound (span : Span) (nodes : List Node) :
    Marks (.node (.compound span nodes true)) ⟨.invalidCompound, span⟩

/-- The problems that items mark, one for each item that marks one, in order. -/
inductive MarkedIn : List NodeRef → List Diagnostic → Prop where
  | nil : MarkedIn [] []
  | problem {r : NodeRef} {d : Diagnostic} {rs : List NodeRef} {ds : List Diagnostic}
    (h : r.Marks d) (hs : MarkedIn rs ds) : MarkedIn (r :: rs) (d :: ds)
  | sound {r : NodeRef} {rs : List NodeRef} {ds : List Diagnostic}
    (h : ∀ d, ¬ r.Marks d) (hs : MarkedIn rs ds) : MarkedIn (r :: rs) ds

namespace NodeRef

variable {r : NodeRef} {d : Diagnostic}

theorem Marks.diagnostic?_eq (h : r.Marks d) : r.diagnostic? = some d := by
  cases h with
  | invalidNode | invalidCompound => rfl
  | invalidCombinator h => rw [diagnostic?, if_pos h]
  | invalidNamespace span kind name h => rw [diagnostic?, h, Option.map_some]
  | invalidNth role h => rw [diagnostic?, if_pos h]

theorem marks_of_diagnostic? (h : r.diagnostic? = some d) : r.Marks d := by
  unfold diagnostic? at h
  split at h
  · cases h
    exact .invalidNode ..
  · split at h
    · cases h
      exact .invalidCombinator ‹_›
    · cases h
  · obtain ⟨e, he, rfl⟩ := Option.map_eq_some_iff.1 h
    exact .invalidNamespace _ _ _ he
  · cases h
    exact .invalidCompound ..
  · split at h
    · cases h
      exact .invalidNth _ ‹_›
    · cases h
  · cases h

theorem Marks.span_eq (h : r.Marks d) : d.span = r.span := by
  cases h <;> rfl

end NodeRef

open NodeRef

theorem markedIn_filterMap (rs : List NodeRef) : MarkedIn rs (rs.filterMap diagnostic?) := by
  induction rs with
  | nil => exact .nil
  | cons r rs ih =>
    cases h : r.diagnostic? with
    | none =>
      rw [List.filterMap_cons_none h]
      refine .sound (fun d hd => ?_) ih
      rw [hd.diagnostic?_eq] at h
      cases h
    | some d =>
      rw [List.filterMap_cons_some h]
      exact .problem (marks_of_diagnostic? h) ih

namespace MarkedIn

variable {rs : List NodeRef} {ds : List Diagnostic}

/-- Every problem is marked by an item. -/
theorem exists_marks (h : MarkedIn rs ds) : ∀ d ∈ ds, ∃ r ∈ rs, r.Marks d := by
  induction h with
  | nil => simp
  | problem h _ ih =>
    refine List.forall_mem_cons.2 ⟨⟨_, List.mem_cons_self .., h⟩, fun d hd => ?_⟩
    obtain ⟨r, hr, hmarks⟩ := ih d hd
    exact ⟨r, List.mem_cons_of_mem _ hr, hmarks⟩
  | sound _ _ ih =>
    intro d hd
    obtain ⟨r, hr, hmarks⟩ := ih d hd
    exact ⟨r, List.mem_cons_of_mem _ hr, hmarks⟩

/-- Problems start in the order in which their items do. -/
theorem pairwise (h : MarkedIn rs ds)
    (hrs : rs.Pairwise fun a b => a.span.start ≤ b.span.start) :
    ds.Pairwise fun a b => a.span.start ≤ b.span.start := by
  induction h with
  | nil => exact .nil
  | problem h hs ih =>
    obtain ⟨hfirst, hrs⟩ := List.pairwise_cons.1 hrs
    refine List.pairwise_cons.2 ⟨fun d hd => ?_, ih hrs⟩
    obtain ⟨r, hr, hmarks⟩ := hs.exists_marks d hd
    rw [h.span_eq, hmarks.span_eq]
    exact hfirst r hr
  | sound _ _ ih => exact ih (List.pairwise_cons.1 hrs).2

end MarkedIn

/-- Diagnostics are sorted stably. -/
theorem stableSort_diagnostics (root : List NodeRef) :
    StableSort (fun d => d.span.start) ((preorder root).filterMap diagnostic?)
      (diagnostics root) := by
  rw [diagnostics_eq]
  exact stableSort_mergeSort ..

/-- **Where pre-order is the order of positions, sorting changes nothing.** -/
theorem diagnostics_eq_filterMap {root : List NodeRef}
    (h : (preorder root).Pairwise fun a b => a.span.start ≤ b.span.start) :
    diagnostics root = (preorder root).filterMap diagnostic? := by
  rw [diagnostics_eq]
  refine List.mergeSort_of_pairwise ?_
  simpa using (markedIn_filterMap (preorder root)).pairwise h

/-- **Diagnostics are complete, exact and ordered.**  Under any items there is one for each problem
that an item marks and no other, sorted stably by where they start.  In a tree that was read from
a text, and after any number of groupings, items side by side are met in the order of their
positions, sorting changes nothing, and every diagnostic lies in the text. -/
theorem diagnostics_exact :
    (∀ root : List NodeRef, ∃ found, MarkedIn (preorder root) found ∧
      StableSort (fun d => d.span.start) found (diagnostics root) ∧
      ∀ x, x ∈ preorder root ↔ ∃ r ∈ root, Within x r) ∧
    ∀ (source : String) (offset : Nat) (options : List CompoundOptions) (root : List NodeRef),
      SideBySide ((options.foldl (fun list o => Selector.groupAll o list)
        (parse source offset)).map .selector) root →
      (preorder root).Pairwise (fun a b => a.span.start ≤ b.span.start) ∧
      MarkedIn (preorder root) (diagnostics root) ∧
      ∀ d ∈ diagnostics root, offset ≤ d.span.start ∧ d.span.start ≤ d.span.stop ∧
        d.span.stop ≤ offset + source.utf8ByteSize := by
  refine ⟨fun root => ⟨_, markedIn_filterMap _, stableSort_diagnostics root,
    fun x => mem_preorder⟩, fun source offset options root hroot => ?_⟩
  obtain ⟨hordered, hevery⟩ := parse_nested source offset
  obtain ⟨hordered, hevery⟩ := groupAll_nested options hordered hevery
  obtain ⟨hrow, hnested⟩ := hroot.ordered (by rw [List.map_map]; exact hordered)
    (List.forall_mem_map.2 hevery)
  obtain ⟨hpairwise, hinside⟩ := preorder_ordered hrow hnested
  have hmarked := markedIn_filterMap (preorder root)
  rw [← diagnostics_eq_filterMap hpairwise] at hmarked
  refine ⟨hpairwise, hmarked, fun d hd => ?_⟩
  obtain ⟨r, hr, hmarks⟩ := hmarked.exists_marks d hd
  rw [hmarks.span_eq]
  exact hinside r hr

theorem diagnostics_exact_grouped :
    let root := (Selector.groupAll {} (parse "a> +b|,:is(.c d|*e)" 4)).map NodeRef.selector
    SideBySide root root ∧
      (preorder root).Pairwise (fun a b => a.span.start ≤ b.span.start) ∧
      MarkedIn (preorder root) (diagnostics root) ∧
      ∀ d ∈ diagnostics root, 4 ≤ d.span.start ∧ d.span.start ≤ d.span.stop ∧ d.span.stop ≤ 23 :=
  have hroot := Or.inl (List.Sublist.refl _)
  ⟨hroot, diagnostics_exact.2 "a> +b|,:is(.c d|*e)" 4 [{}] _ hroot⟩

end Selectors
