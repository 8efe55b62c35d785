import Mathlib.Logic.Function.Iterate
import Selectors.Walk

/-!
# Walks as recursive traversals

A walk keeps its place in two stacks.  `traverse` says the same by recursion on the tree: it goes
through a list of siblings and returns the visits it made, the state it reached and how it was
left.  An item that is left by `Exit.leave 0` is followed by its next sibling; by `leave (n + 1)`,
the rest of its list is given up, and the list is left by `leave n` in turn.

* `Walker.run_eq_traverse`: what a walk that stands in a list still does.
* `walk_makes_traversal`: a walk makes the visits of the traversal, in order, and ends.
-/

namespace Selectors

/-- How an item or a list of siblings is left. -/
inductive Exit where
  /-- After the lists around it, `n` of them, were given up. -/
  | leave (n : Nat)
  /-- For good. -/
  | stop
  deriving DecidableEq, Repr

/-- What going through items makes: the visits in order, the state, and how the items are left. -/
structure Traversal (σ : Type) where
  calls : List Visit
  state : σ
  exit : Exit

namespace Traversal

variable {σ : Type}

/-- The same with visits made before. -/
def after (calls : List Visit) (t : Traversal σ) : Traversal σ := { t with calls := calls ++ t.calls }

@[simp] theorem after_calls (calls : List Visit) (t : Traversal σ) :
    (t.after calls).calls = calls ++ t.calls := rfl

@[simp] theorem after_state (calls : List Visit) (t : Traversal σ) :
    (t.after calls).state = t.state := rfl

@[simp] theorem after_exit (calls : List Visit) (t : Traversal σ) :
    (t.after calls).exit = t.exit := rfl

/-- An item and its later siblings. -/
def andThen (t : Traversal σ) (later : σ → Traversal σ) : Traversal σ :=
  match t.exit with
  | .stop => t
  | .leave 0 => (later t.state).after t.calls
  | .leave (n + 1) => { t with exit := .leave n }

end Traversal

/-- Goes through the siblings from place `index` on, and through what is under them.  `parents` are
the items around them, outermost first. -/
def traverse {σ : Type} (options : WalkOptions) (visit : Visit → σ → σ × Control)
    (parents siblings : List NodeRef) : Nat → List NodeRef → σ → Traversal σ
  | _, [], s => ⟨[], s, .leave 0⟩
  | index, r :: rs, s =>
    let v : Visit := ⟨r, index, siblings, parents⟩
    let visited := options.visits r.kind
    let calls := if visited then [v] else []
    let go := if visited then visit v s else (s, .descend)
    let item : Traversal σ :=
      match go.2 with
      | .stop => ⟨calls, go.1, .stop⟩
      | .skip n => ⟨calls, go.1, .leave n⟩
      | .descend =>
        (traverse options visit (parents ++ [r]) r.children.toList 0 r.children.toList go.1).after
          calls
    item.andThen (traverse options visit parents siblings (index + 1) rs)
termination_by _ rs _ => NodeRef.sizeAll rs
decreasing_by
  all_goals
    have := r.size_eq
    simp only [NodeRef.sizeAll]
    omega

/-- The visitor that also notes its visits, in order. -/
def noting {σ : Type} (visit : Visit → σ → σ × Control) (v : Visit) (s : σ × List Visit) :
    (σ × List Visit) × Control :=
  (((visit v s.1).1, s.2 ++ [v]), (visit v s.1).2)

section

variable {σ : Type} {options : WalkOptions} {visit : Visit → σ → σ × Control}

/-! ### Walks -/

namespace Walker

theorem run_of_step {w u : Walker σ} (h : w.step options visit = some u) :
    w.run options visit = u.run options visit := by
  rw [run]
  split
  · rename_i hnone
    rw [hnone] at h
    cases h
  · rename_i v hv
    rw [hv] at h
    cases h
    rfl

theorem run_nil (ps : List NodeRef) (s : σ) : (⟨[], ps, s⟩ : Walker σ).run options visit = s := by
  rw [run]
  rfl

theorem leave_nil (n : Nat) (ps : List NodeRef) (s : σ) :
    (⟨[], ps, s⟩ : Walker σ).leave n = ⟨[], ps, s⟩ := by
  cases n <;> rfl

/-- What a walk does from an item on that it leaves in the given way, when it stands in the lists
`fs` and the items `ps` around them. -/
def resume (options : WalkOptions) (visit : Visit → σ → σ × Control) (fs : List Frame)
    (ps : List NodeRef) (t : Traversal σ) : σ :=
  match t.exit with
  | .stop => t.state
  | .leave n => ((⟨fs, ps, t.state⟩ : Walker σ).leave n).run options visit

/-- After an item come its later siblings, unless their list is given up. -/
theorem resume_andThen {f : Frame} {fs : List Frame} {ps : List NodeRef}
    {later : σ → Traversal σ}
    (hlater : ∀ s, (⟨f :: fs, ps, s⟩ : Walker σ).run options visit =
      resume options visit fs ps.tail (later s)) (t : Traversal σ) :
    resume options visit (f :: fs) ps t = resume options visit fs ps.tail (t.andThen later) := by
  obtain ⟨calls, s, exit⟩ := t
  cases exit with
  | stop => rfl
  | leave n =>
    cases n with
    | zero => exact hlater s
    | succ n => rfl

/-- Going into an item leads to its children. -/
theorem run_enter {r : NodeRef} {fs : List Frame} {ps : List NodeRef} {s : σ}
    (hchildren : ∀ rs, r.children.toList = rs →
      (⟨.start rs :: fs, r :: ps, s⟩ : Walker σ).run options visit =
        resume options visit fs ps
          (traverse options visit (ps.reverse ++ [r]) rs 0 rs s)) :
    ((⟨fs, ps, s⟩ : Walker σ).enter r).run options visit =
      resume options visit fs ps
        (traverse options visit (ps.reverse ++ [r]) r.children.toList 0 r.children.toList s) := by
  cases hrs : r.children.toList with
  | nil =>
    rw [enter, hrs, traverse]
    rfl
  | cons c cs =>
    rw [enter, hrs]
    exact hchildren (c :: cs) hrs

/-- **A walk that stands in a list goes through the rest of it as the traversal does**, and goes
on in the lists around it as the traversal says. -/
theorem run_eq_traverse (siblings rs : List NodeRef) (index : Nat) (fs : List Frame)
    (ps : List NodeRef) (s : σ) :
    (⟨⟨siblings, index, rs⟩ :: fs, ps, s⟩ : Walker σ).run options visit =
      resume options visit fs ps.tail
        (traverse options visit ps.reverse siblings index rs s) := by
  induction hn : NodeRef.sizeAll rs using Nat.strongRecOn generalizing siblings rs index fs ps s with
  | ind n ih =>
    subst hn
    cases rs with
    | nil =>
      rw [run_of_step (u := ⟨fs, ps.tail, s⟩) rfl, traverse]
      rfl
    | cons r rs =>
      have hsize := r.size_eq
      -- the later siblings and the children both hold fewer items
      have hlater := fun s => ih (NodeRef.sizeAll rs) (by simp only [NodeRef.sizeAll]; omega)
        siblings rs (index + 1) fs ps s rfl
      have hchildren := fun s => ih (NodeRef.sizeAll r.children.toList)
        (by simp only [NodeRef.sizeAll]; omega) r.children.toList r.children.toList 0
        (⟨siblings, index + 1, rs⟩ :: fs) (r :: ps) s rfl
      rw [traverse, ← resume_andThen hlater]
      cases hgo : (if options.visits r.kind then
          visit ⟨r, index, siblings, ps.reverse⟩ s else (s, .descend)) with
      | mk s' control =>
        cases control with
        | stop =>
          rw [run_of_step (u := ⟨[], [], s'⟩) (by simp only [step, hgo]; rfl), run_nil]
          rfl
        | skip m =>
          rw [run_of_step (by simp only [step, hgo]; rfl)]
          rfl
        | descend =>
          rw [run_of_step (by simp only [step, hgo]; rfl), run_enter]
          · rfl
          · rintro cs rfl
            rw [← List.reverse_cons]
            exact hchildren s'

/-- Every walk comes to its end. -/
theorem exists_iterate_step_eq_none (w : Walker σ) :
    ∃ n ≤ Frame.work w.frames + 1,
      (fun w? => w?.bind (step options visit))^[n] (some w) = none := by
  induction hn : Frame.work w.frames using Nat.strongRecOn generalizing w with
  | ind n ih =>
    subst hn
    cases hstep : w.step options visit with
    | none => exact ⟨1, by omega, hstep⟩
    | some w' =>
      have hlt := work_step_lt hstep
      obtain ⟨m, hm, hend⟩ := ih _ hlt w' rfl
      refine ⟨m + 1, by omega, ?_⟩
      rw [Function.iterate_succ_apply, Option.bind_some, hstep]
      exact hend

end Walker

/-- A walk ends in the state that the traversal reaches. -/
theorem walk_eq_state (options : WalkOptions) (visit : Visit → σ → σ × Control)
    (root : List NodeRef) (s : σ) :
    walk options visit root s = (traverse options visit [] root 0 root s).state := by
  rw [walk, Walker.start, Frame.start, Walker.run_eq_traverse, Walker.resume]
  split
  · rfl
  · rw [Walker.leave_nil, Walker.run_nil]
    rfl

/-! ### Visits -/

namespace Traversal

/-- The traversal of a visitor that notes its visits, of which `seen` were made before. -/
def noted (seen : List Visit) (t : Traversal σ) : Traversal (σ × List Visit) :=
  ⟨t.calls, (t.state, seen ++ t.calls), t.exit⟩

theorem noted_after (seen calls : List Visit) (t : Traversal σ) :
    (t.noted (seen ++ calls)).after calls = (t.after calls).noted seen := by
  simp [noted, after]

theorem noted_andThen {later : σ → Traversal σ}
    {later' : σ × List Visit → Traversal (σ × List Visit)}
    (hlater : ∀ s seen, later' (s, seen) = (later s).noted seen) (seen : List Visit)
    (t : Traversal σ) : (t.noted seen).andThen later' = (t.andThen later).noted seen := by
  obtain ⟨calls, s, exit⟩ := t
  cases exit with
  | stop => rfl
  | leave n =>
    cases n with
    | zero =>
      simp only [andThen, noted, hlater]
      exact noted_after seen calls (later s)
    | succ n => rfl

end Traversal

/-- Noting the visits changes nothing, and the notes are the visits made. -/
theorem traverse_noting (parents siblings rs : List NodeRef) (index : Nat) (s : σ)
    (seen : List Visit) :
    traverse options (noting visit) parents siblings index rs (s, seen) =
      (traverse options visit parents siblings index rs s).noted seen := by
  induction hn : NodeRef.sizeAll rs using Nat.strongRecOn
    generalizing parents siblings rs index s seen with
  | ind n ih =>
    subst hn
    cases rs with
    | nil => simp [traverse, Traversal.noted]
    | cons r rs =>
      have hsize := r.size_eq
      have hrs := fun s seen => ih (NodeRef.sizeAll rs) (by simp only [NodeRef.sizeAll]; omega)
        parents siblings rs (index + 1) s seen rfl
      have hcs := fun s seen => ih (NodeRef.sizeAll r.children.toList)
        (by simp only [NodeRef.sizeAll]; omega) (parents ++ [r]) r.children.toList
        r.children.toList 0 s seen rfl
      rw [traverse, traverse, ← Traversal.noted_andThen hrs]
      congr 1
      cases hkind : options.visits r.kind with
      | false => simp [hcs, Traversal.noted, Traversal.after]
      | true =>
        cases hgo : visit ⟨r, index, siblings, parents⟩ s with
        | mk s' control =>
          cases control with
          | stop | skip => simp [noting, hgo, Traversal.noted]
          | descend => simp [noting, hgo, hcs, Traversal.noted, Traversal.after]

/-- **A walk makes the visits of the recursive traversal, in order, and reaches its state.**  It
takes no more than two steps for each item, and two at its end. -/
theorem walk_makes_traversal {σ : Type} (options : WalkOptions)
    (visit : Visit → σ → σ × Control) (root : Siblings) (s : σ) :
    let t := traverse options visit [] root.toList 0 root.toList s
    walk options visit root.toList s = t.state ∧
      walk options (noting visit) root.toList (s, []) = (t.state, t.calls) ∧
      ∃ n ≤ 2 * NodeRef.sizeAll root.toList + 2,
        (fun w? => w?.bind (Walker.step options visit))^[n]
          (some (Walker.start root.toList s)) = none := by
  refine ⟨walk_eq_state options visit root.toList s, ?_, ?_⟩
  · rw [walk_eq_state, traverse_noting]
    rfl
  · exact (Walker.start root.toList s).exists_iterate_step_eq_none

end

end Selectors
