import Selectors.Options
import Selectors.Tree.View

/-!
# Walking trees

A walk visits the items of a tree in pre-order and carries a state along.  After each visit the
visitor says how to go on: into the item, past it, out of some of the lists it stands in, or
nowhere.  Items that the options filter out are not visited, but walked into.

The lists still to be walked form a stack of frames, innermost first, beside the stack of the items
that own them.  `Walker.step` makes one step; as every step leaves less work
(`Walker.work_step_lt`), every walk ends.
-/

namespace Selectors

/-- How a walk goes on after a visit. -/
inductive Control where
  /-- Into the children of the item. -/
  | descend
  /-- `skip 0` goes past the item; `skip n` leaves the list it stands in and `n - 1` lists around
  that. -/
  | skip (levels : Nat)
  /-- Nowhere. -/
  | stop
  deriving DecidableEq, Repr, Inhabited

/-- An item as the visitor sees it. -/
structure Visit where
  item : NodeRef
  /-- Its place among its siblings. -/
  index : Nat
  /-- The list it stands in. -/
  siblings : List NodeRef
  /-- The items around it, outermost first. -/
  parents : List NodeRef

/-- A list that is being walked. -/
structure Frame where
  siblings : List NodeRef
  /-- How many siblings were met. -/
  index : Nat
  /-- The siblings not yet met. -/
  pending : List NodeRef

namespace Frame

/-- A list before its first item is met. -/
def start (siblings : List NodeRef) : Frame := ⟨siblings, 0, siblings⟩

/-- A bound on the steps that a stack of frames takes. -/
def work : List Frame → Nat
  | [] => 0
  | f :: fs => 2 * NodeRef.sizeAll f.pending + 1 + work fs

end Frame

/-- A walk under way. -/
structure Walker (σ : Type) where
  /-- The lists being walked, innermost first. -/
  frames : List Frame
  /-- The items around the innermost list, innermost first. -/
  parents : List NodeRef
  state : σ

namespace Walker

variable {σ : Type}

/-- A walk before its first visit. -/
def start (root : List NodeRef) (s : σ) : Walker σ := ⟨[.start root], [], s⟩

/-- Leaves the innermost list. -/
def pop (w : Walker σ) : Walker σ := { w with frames := w.frames.tail, parents := w.parents.tail }

/-- Leaves the innermost lists, `n` of them or all there are. -/
def leave : Nat → Walker σ → Walker σ
  | 0, w => w
  | n + 1, w => if w.frames.isEmpty then w else leave n w.pop

/-- Goes into the children of an item, if it has any. -/
def enter (r : NodeRef) (w : Walker σ) : Walker σ :=
  if r.children.toList.isEmpty then w
  else { w with frames := .start r.children.toList :: w.frames, parents := r :: w.parents }

/-- Leaves all lists. -/
def quit (w : Walker σ) : Walker σ := { w with frames := [], parents := [] }

/-- One step: out of a list that is walked to its end, or to its next item.  No step is left when
all lists are. -/
def step (options : WalkOptions) (visit : Visit → σ → σ × Control) (w : Walker σ) :
    Option (Walker σ) :=
  match w.frames with
  | [] => none
  | ⟨_, _, []⟩ :: _ => some w.pop
  | ⟨siblings, index, r :: rs⟩ :: fs =>
    let go :=
      if options.visits r.kind then visit ⟨r, index, siblings, w.parents.reverse⟩ w.state
      else (w.state, .descend)
    let w : Walker σ := { w with frames := ⟨siblings, index + 1, rs⟩ :: fs, state := go.1 }
    match go.2 with
    | .stop => some w.quit
    | .skip n => some (w.leave n)
    | .descend => some (w.enter r)

theorem work_pop_le (w : Walker σ) : Frame.work w.pop.frames ≤ Frame.work w.frames := by
  obtain ⟨fs, ps, s⟩ := w
  cases fs with
  | nil => exact Nat.le_refl _
  | cons f fs => exact Nat.le_add_left _ _

theorem work_leave_le (n : Nat) (w : Walker σ) :
    Frame.work (w.leave n).frames ≤ Frame.work w.frames := by
  induction n generalizing w with
  | zero => exact Nat.le_refl _
  | succ n ih =>
    rw [leave]
    split
    · exact Nat.le_refl _
    · exact Nat.le_trans (ih w.pop) w.work_pop_le

theorem work_enter_le (r : NodeRef) (w : Walker σ) :
    Frame.work (w.enter r).frames + 1 ≤ 2 * r.size + Frame.work w.frames := by
  have hsize := r.size_eq
  rw [enter]
  split
  · omega
  · simp only [Frame.work, Frame.start]
    omega

/-- Every step leaves less work. -/
theorem work_step_lt {options : WalkOptions} {visit : Visit → σ → σ × Control} {w w' : Walker σ}
    (h : w.step options visit = some w') : Frame.work w'.frames < Frame.work w.frames := by
  obtain ⟨fs, ps, s⟩ := w
  unfold step at h
  split at h
  · cases h
  · rename_i siblings index fs hfs
    obtain rfl : _ = _ :: fs := hfs
    cases h
    simp [pop, Frame.work]
  · rename_i siblings index r rs fs hfs
    obtain rfl : _ = _ :: fs := hfs
    have hsize := r.size_eq
    dsimp only at h
    split at h
    · cases h
      simp only [quit, Frame.work]
      omega
    · rename_i n _
      cases h
      refine Nat.lt_of_le_of_lt (work_leave_le n _) ?_
      simp only [Frame.work, NodeRef.sizeAll]
      omega
    · cases h
      refine Nat.lt_of_lt_of_le (Nat.lt_succ_self _) (Nat.le_trans (work_enter_le r _) ?_)
      simp only [Frame.work, NodeRef.sizeAll]
      omega

/-- Takes steps as long as there are any. -/
def run (options : WalkOptions) (visit : Visit → σ → σ × Control) (w : Walker σ) : σ :=
  match _h : w.step options visit with
  | none => w.state
  | some w' => run options visit w'
termination_by Frame.work w.frames
decreasing_by exact work_step_lt _h

end Walker

/-- Walks the items of `root` and what is under them. -/
def walk {σ : Type} (options : WalkOptions) (visit : Visit → σ → σ × Control)
    (root : List NodeRef) (s : σ) : σ :=
  (Walker.start root s).run options visit

/-! ### Rules -/

/-- What to do at the items of a kind or with a value. -/
structure Rule where
  kind : Option NodeKind := none
  value : Option String := none
  control : Control
  deriving DecidableEq, Repr

namespace Rule

/-- Whether a rule applies to an item. -/
def applies (rule : Rule) (r : NodeRef) : Bool :=
  rule.kind.all (· == r.kind) && rule.value.all (· == r.value)

/-- The control of the first rule that applies; without one the walk descends. -/
def decide (rules : List Rule) (r : NodeRef) : Control :=
  ((rules.find? (·.applies r)).map (·.control)).getD .descend

end Rule

/-- The visits of a walk under rules, in order. -/
def visits (options : WalkOptions) (rules : List Rule) (root : List NodeRef) : List Visit :=
  (walk options (fun v seen => (v :: seen, Rule.decide rules v.item)) root []).reverse

end Selectors
