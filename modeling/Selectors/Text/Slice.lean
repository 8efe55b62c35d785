/-!
# Slices of text

Text is cut at byte offsets of its UTF-8 form.  A cut inside a character, or behind the end, gives
nothing.

* `slice?_append`: the slice between two ends of parts of a text is what stands between them.
-/

namespace Selectors

/-- The characters after the first `n` bytes. -/
def dropBytes? : Nat → List Char → Option (List Char)
  | 0, cs => some cs
  | _ + 1, [] => none
  | n + 1, c :: cs => if c.utf8Size ≤ n + 1 then dropBytes? (n + 1 - c.utf8Size) cs else none

/-- The characters of the first `n` bytes. -/
def takeBytes? : Nat → List Char → Option (List Char)
  | 0, _ => some []
  | _ + 1, [] => none
  | n + 1, c :: cs =>
    if c.utf8Size ≤ n + 1 then (takeBytes? (n + 1 - c.utf8Size) cs).map (c :: ·) else none

/-- The text from byte `start` up to byte `stop`. -/
def slice? (s : String) (start stop : Nat) : Option String :=
  if start ≤ stop then
    ((dropBytes? start s.toList).bind (takeBytes? (stop - start))).map String.ofList
  else none

theorem utf8ByteSize_ofList_cons (c : Char) (cs : List Char) :
    (String.ofList (c :: cs)).utf8ByteSize = c.utf8Size + (String.ofList cs).utf8ByteSize := by
  rw [show c :: cs = [c] ++ cs from rfl, String.ofList_append, String.utf8ByteSize_append]
  simp

theorem dropBytes?_append (pre suf : List Char) :
    dropBytes? (String.ofList pre).utf8ByteSize (pre ++ suf) = some suf := by
  induction pre with
  | nil => cases suf <;> simp [dropBytes?]
  | cons c cs ih =>
    have hc := c.utf8Size_pos
    obtain ⟨n, hn⟩ : ∃ n, c.utf8Size + (String.ofList cs).utf8ByteSize = n + 1 :=
      ⟨c.utf8Size + (String.ofList cs).utf8ByteSize - 1, by omega⟩
    rw [utf8ByteSize_ofList_cons, hn, List.cons_append, dropBytes?, if_pos (by omega),
      show n + 1 - c.utf8Size = (String.ofList cs).utf8ByteSize by omega, ih]

theorem takeBytes?_append (pre suf : List Char) :
    takeBytes? (String.ofList pre).utf8ByteSize (pre ++ suf) = some pre := by
  induction pre with
  | nil => cases suf <;> simp [takeBytes?]
  | cons c cs ih =>
    have hc := c.utf8Size_pos
    obtain ⟨n, hn⟩ : ∃ n, c.utf8Size + (String.ofList cs).utf8ByteSize = n + 1 :=
      ⟨c.utf8Size + (String.ofList cs).utf8ByteSize - 1, by omega⟩
    rw [utf8ByteSize_ofList_cons, hn, List.cons_append, takeBytes?, if_pos (by omega),
      show n + 1 - c.utf8Size = (String.ofList cs).utf8ByteSize by omega, ih]
    rfl

/-- The slice between the ends of two parts of a text is the second part. -/
theorem slice?_append (a b c : String) :
    slice? (a ++ b ++ c) a.utf8ByteSize (a.utf8ByteSize + b.utf8ByteSize) = some b := by
  have hd := dropBytes?_append a.toList (b.toList ++ c.toList)
  have ht := takeBytes?_append b.toList c.toList
  rw [String.ofList_toList] at hd ht
  simp only [slice?, String.toList_append, List.append_assoc, hd, Nat.add_sub_cancel_left,
    Option.bind_some, ht, Option.map_some, String.ofList_toList]
  exact if_pos (Nat.le_add_right _ _)

end Selectors
