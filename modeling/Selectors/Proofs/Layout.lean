import Mathlib.Data.List.Chain
import Selectors.Text.Slice
import Selectors.Span

/-!
# Where items stand in a text

Every item of a tree has a span and prints to a text.  `Laid` says that the items of a list stand
one after the other from a position on, each spanning exactly its own text, with a fixed number of
bytes between neighbours: none between nodes, one (the comma) between selectors.

* `Span.Shows`: a span lies inside a text, on character boundaries, and the text reads `w` there.
* `Tiles`: consecutive spans abut and reach from one position to another.
* `Laid.tiles`: items that are laid out tile the room they take.
-/

namespace Selectors

namespace Span

/-- The span of `text` when it starts at `p`. -/
def ofText (p : Nat) (text : String) : Span := ⟨p, p + text.utf8ByteSize⟩

@[simp] theorem start_ofText (p : Nat) (text : String) : (ofText p text).start = p := rfl

@[simp] theorem stop_ofText (p : Nat) (text : String) :
    (ofText p text).stop = p + text.utf8ByteSize := rfl

/-- The span from the start of one text to the end of the text right after it. -/
theorem ofText_append (p : Nat) (u v : String) :
    ofText p (u ++ v) = ⟨p, p + u.utf8ByteSize + v.utf8ByteSize⟩ := by
  rw [ofText, String.utf8ByteSize_append, Nat.add_assoc]

/-- The text `w` stands in `source` at the span `s`, positions being counted from `offset`. -/
def Cuts (source : String) (offset : Nat) (w : String) (s : Span) : Prop :=
  ∃ a b : String, source = a ++ w ++ b ∧ s = .ofText (offset + a.utf8ByteSize) w

/-- What it means for the text of an item to stand in `source` at the span `s`: the span lies
within the source, both ends are character boundaries, and the slice between them is `w`. -/
structure Shows (source : String) (offset : Nat) (w : String) (s : Span) : Prop where
  offset_le : offset ≤ s.start
  start_le : s.start ≤ s.stop
  stop_le : s.stop ≤ offset + source.utf8ByteSize
  start_boundary : (String.Pos.Raw.mk (s.start - offset)).IsValid source
  stop_boundary : (String.Pos.Raw.mk (s.stop - offset)).IsValid source
  slice_eq : slice? source (s.start - offset) (s.stop - offset) = some w

theorem Cuts.shows {source w : String} {offset : Nat} {s : Span} (h : s.Cuts source offset w) :
    s.Shows source offset w := by
  obtain ⟨a, b, rfl, rfl⟩ := h
  have hstart : offset + a.utf8ByteSize - offset = a.utf8ByteSize := by omega
  have hstop : offset + a.utf8ByteSize + w.utf8ByteSize - offset =
      (a ++ w).utf8ByteSize := by
    rw [String.utf8ByteSize_append]; omega
  refine ⟨by simp, by simp, ?_, ?_, ?_, ?_⟩
  · simp only [stop_ofText, String.utf8ByteSize_append]; omega
  · rw [start_ofText, hstart]
    exact String.Pos.Raw.isValid_iff_exists_append.2
      ⟨a, w ++ b, by rw [String.append_assoc], rfl⟩
  · rw [stop_ofText, hstop]
    exact String.Pos.Raw.isValid_iff_exists_append.2 ⟨a ++ w, b, rfl, rfl⟩
  · rw [start_ofText, stop_ofText, hstart, hstop, String.utf8ByteSize_append]
    exact slice?_append a w b

/-- A part of a text that stands in the source stands there too. -/
theorem Cuts.part {source u v w : String} {offset p : Nat} {s : Span}
    (h : s.Cuts source offset (u ++ v ++ w)) (hp : p = s.start + u.utf8ByteSize) :
    (ofText p v).Cuts source offset v := by
  obtain ⟨a, b, rfl, rfl⟩ := h
  refine ⟨a ++ u, w ++ b, by simp only [String.append_assoc], ?_⟩
  rw [hp, start_ofText, String.utf8ByteSize_append, Nat.add_assoc]

end Span

/-- The spans of a list start at `p`, end at `q`, and consecutive ones are `gap` bytes apart. -/
structure Tiles (gap p q : Nat) (spans : List Span) : Prop where
  consecutive : spans.IsChain fun a b => b.start = a.stop + gap
  first : ∀ s ∈ spans.head?, s.start = p
  last : ∀ s ∈ spans.getLast?, s.stop = q

/-! ### Items laid out one after the other -/

section

variable {α : Type} (gap : Nat) (span : α → Span) (print : α → String)

/-- The items stand one after the other from `p` on, `gap` bytes apart, each at its own text. -/
def Laid : Nat → List α → Prop
  | _, [] => True
  | p, a :: as => span a = .ofText p (print a) ∧ Laid (p + (print a).utf8ByteSize + gap) as

/-- The room that items take, the gap after the last one included. -/
def extent : List α → Nat
  | [] => 0
  | a :: as => (print a).utf8ByteSize + gap + extent as

variable {gap span print}

@[simp] theorem extent_append (as bs : List α) :
    extent gap print (as ++ bs) = extent gap print as + extent gap print bs := by
  induction as with
  | nil => simp [extent]
  | cons a as ih => simp only [List.cons_append, extent, ih]; omega

theorem laid_append {p : Nat} {as bs : List α} :
    Laid gap span print p (as ++ bs) ↔
      Laid gap span print p as ∧ Laid gap span print (p + extent gap print as) bs := by
  induction as generalizing p with
  | nil => simp [Laid, extent]
  | cons a as ih =>
    simp only [List.cons_append, Laid, extent, ih, and_assoc]
    rw [show p + (print a).utf8ByteSize + gap + extent gap print as =
      p + ((print a).utf8ByteSize + gap + extent gap print as) by omega]

theorem laid_concat {p : Nat} {as : List α} {a : α} :
    Laid gap span print p (as ++ [a]) ↔
      Laid gap span print p as ∧ span a = .ofText (p + extent gap print as) (print a) := by
  simp [laid_append, Laid]

theorem Laid.tiles {p q : Nat} {as : List α} (h : Laid gap span print p as)
    (hq : q + gap = p + extent gap print as) : Tiles gap p q (as.map span) := by
  induction as generalizing p with
  | nil => exact ⟨.nil, by simp, by simp⟩
  | cons a as ih =>
    obtain ⟨ha, has⟩ := h
    obtain ⟨hc, hf, hl⟩ := ih has (by simp only [extent] at hq; omega)
    refine ⟨?_, by simp [ha], ?_⟩
    · cases as with
      | nil => exact .singleton _
      | cons b bs =>
        refine List.isChain_cons_cons.2 ⟨?_, hc⟩
        rw [hf (span b) (by simp), ha, Span.stop_ofText]
    · cases as with
      | nil =>
        simp only [extent] at hq
        simp only [List.map_cons, List.map_nil, List.getLast?_singleton, Option.mem_def,
          Option.some.injEq, forall_eq', ha, Span.stop_ofText]
        omega
      | cons b bs => simpa using hl

end

end Selectors
