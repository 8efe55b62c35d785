import Selectors.Proofs.Coverage.Draft

/-!
# Expressions cover their tokens

Reading an `An+B` expression keeps every byte: a word may be glued from two tokens or cut into two
parts, and blanks join the part before them, but the expression prints to the tokens taken and its
parts lie where the text has them (`NthDraft.Covers.read`).
-/

namespace Selectors

namespace NthNode

theorem print_appendBlanks (n : NthNode) (t : Token) :
    (n.appendBlanks t).print = n.print ++ t.text := by
  cases n <;> simp [appendBlanks, print, Comment.print, String.append_assoc]

theorem span_appendBlanks (n : NthNode) (t : Token) :
    (n.appendBlanks t).span = ⟨n.span.start, t.span.stop⟩ := by
  cases n <;> rfl

end NthNode

/-- The expression spans `w` from `p` on, prints to it, and its parts lie where `w` has them. -/
structure NthDraft.Covers (d : NthDraft) (p : Nat) (w : String) : Prop where
  span : d.span = .ofText p w
  print : d.before ++ NthNode.printAll d.items.reverse = w
  laid : Laid 0 NthNode.span NthNode.print (p + d.before.utf8ByteSize) d.items.reverse

namespace NthDraft

variable {d : NthDraft} {p : Nat} {w : String} {text : String} {span : Span}

theorem covers_start (p : Nat) : (start p).Covers p "" := by
  refine ⟨?_, ?_, trivial⟩
  · simp [start, Span.point, Span.ofText]
  · simp [start, NthNode.printAll]

theorem Covers.stop_eq (h : d.Covers p w) :
    p + d.before.utf8ByteSize + extent 0 NthNode.print d.items.reverse = p + w.utf8ByteSize := by
  rw [← h.print, NthNode.extent_eq, String.utf8ByteSize_append, Nat.add_assoc]

theorem Covers.push (h : d.Covers p w) {n : NthNode}
    (hn : n.span = .ofText (p + w.utf8ByteSize) n.print) : (d.push n).Covers p (w ++ n.print) := by
  refine ⟨?_, ?_, ?_⟩
  · simp only [NthDraft.push, h.span, hn, Span.ofText_append, Span.stop_ofText, Span.start_ofText]
  · simp [NthDraft.push, NthNode.printAll, ← h.print, String.append_assoc]
  · simp only [NthDraft.push, List.reverse_cons]
    exact laid_concat.2 ⟨h.laid, by rw [h.stop_eq, hn]⟩

theorem Covers.pushBlanks {t : Token} (h : d.Covers p w)
    (ht : t.span = .ofText (p + w.utf8ByteSize) t.text) :
    (d.pushBlanks t).Covers p (w ++ t.text) := by
  have he := h.stop_eq
  obtain ⟨hs, hp, hl⟩ := h
  have hspan : (⟨d.span.start, t.span.stop⟩ : Span) = .ofText p (w ++ t.text) := by
    rw [hs, ht, Span.ofText_append, Span.stop_ofText, Span.start_ofText]
  unfold NthDraft.pushBlanks
  split
  · rename_i n ns hi
    rw [hi, List.reverse_cons] at hp hl he
    obtain ⟨hl, hn⟩ := laid_concat.1 hl
    refine ⟨hspan, ?_, ?_⟩
    · rw [← hp]
      simp [NthNode.printAll, NthNode.print_appendBlanks, String.append_assoc]
    · rw [List.reverse_cons]
      refine laid_concat.2 ⟨hl, ?_⟩
      simp only [extent_append, extent] at he
      rw [NthNode.span_appendBlanks, NthNode.print_appendBlanks, hn, ht, Span.ofText_append,
        Span.stop_ofText, Span.start_ofText, Span.mk.injEq]
      exact ⟨rfl, by dsimp only; omega⟩
  · rename_i hi
    rw [hi] at hp hl
    refine ⟨hspan, ?_, ?_⟩
    · simp only [hi, ← hp]
      simp [NthNode.printAll]
    · simp only [hi]
      trivial

theorem Covers.pushPart (h : d.Covers p w) (role : NthRole) (text : String) (span : Span)
    (invalid : Bool) (hs : span = .ofText (p + w.utf8ByteSize) text) :
    (d.pushPart role text span invalid).Covers p (w ++ text) := by
  have hp :
      (NthNode.part role { span := span, text := text, invalid := invalid }).print = text := by
    simp [NthNode.print]
  have := h.push (n := .part role { span := span, text := text, invalid := invalid })
    (by rw [hp]; exact hs)
  rwa [hp] at this

/-- What the next word is taken for does not matter. -/
theorem Covers.phase (h : d.Covers p w) (phase : NthPhase) (afterDash : Bool) :
    ({ d with phase := phase, afterDash := afterDash } : NthDraft).Covers p w :=
  ⟨h.span, h.print, h.laid⟩

theorem Covers.acceptOf (h : d.Covers p w) (hs : span = .ofText (p + w.utf8ByteSize) text) :
    (d.acceptOf text span).Covers p (w ++ text) :=
  (h.pushPart .of text span _ hs).phase _ _

theorem Covers.acceptOffset (h : d.Covers p w) (hs : span = .ofText (p + w.utf8ByteSize) text) :
    (d.acceptOffset text span).Covers p (w ++ text) := by
  unfold NthDraft.acceptOffset
  split
  · exact h.acceptOf hs
  · exact (h.pushPart .offset text span _ hs).phase _ _

theorem Covers.acceptDash (h : d.Covers p w) (hs : span = .ofText (p + w.utf8ByteSize) text) :
    (d.acceptDash text span).Covers p (w ++ text) :=
  (h.pushPart .dash text span _ hs).phase _ _

/-- The two parts of a word that is cut after its `n`. -/
theorem Covers.acceptStep? {d' : NthDraft} (h : d.Covers p w)
    (hs : span = .ofText (p + w.utf8ByteSize) text) (hd : d.acceptStep? text span = some d') :
    d'.Covers p (w ++ text) := by
  unfold NthDraft.acceptStep? at hd
  split at hd
  · cases hd
  · rename_i step rest hsplit
    have htext : text = String.ofList step ++ String.ofList rest := by
      rw [← String.ofList_append, NthForm.splitAtN_append hsplit, String.ofList_toList]
    split at hd
    · -- the step alone covers the front of the word
      have hstep : Covers { d.pushPart .step (String.ofList step)
          ⟨span.start, span.start + (String.ofList step).utf8ByteSize⟩ false with phase := .dash }
          p (w ++ String.ofList step) :=
        (h.pushPart .step (String.ofList step)
          ⟨span.start, span.start + (String.ofList step).utf8ByteSize⟩ false
          (by rw [hs]; rfl)).phase _ _
      have hrest : (⟨span.start + (String.ofList step).utf8ByteSize, span.stop⟩ : Span) =
          .ofText (p + (w ++ String.ofList step).utf8ByteSize) (String.ofList rest) := by
        rw [hs, htext, Span.ofText_append, String.utf8ByteSize_append, Span.ofText, Span.mk.injEq]
        exact ⟨by dsimp only; omega, by dsimp only; omega⟩
      rw [htext, ← String.append_assoc]
      simp only at hd
      split at hd
      · rename_i hr
        cases hd
        rw [hr, String.ofList_nil, String.append_empty]
        exact hstep
      · split at hd
        · rename_i hr
          cases hd
          rw [hr] at hrest ⊢
          exact hstep.acceptDash hrest
        · split at hd
          · cases hd
            exact (hstep.pushPart .offset _ _ false hrest).phase _ _
          · cases hd
    · cases hd

theorem Covers.acceptFirst (h : d.Covers p w) (hs : span = .ofText (p + w.utf8ByteSize) text) :
    (d.acceptFirst text span).1.Covers p (w ++ text) := by
  simp only [NthDraft.acceptFirst]
  split
  · exact (h.pushPart .step text span _ hs).phase _ _
  · split
    · exact (h.pushPart .offset text span _ hs).phase _ _
    · split
      · rename_i d' hd
        exact h.acceptStep? hs hd
      · exact (h.pushPart .step text span _ hs).phase _ _

/-- Taking a word covers it. -/
theorem Covers.accept (h : d.Covers p w) (hs : span = .ofText (p + w.utf8ByteSize) text) :
    (d.accept text span).1.Covers p (w ++ text) := by
  unfold NthDraft.accept
  split
  · exact h.acceptFirst hs
  · split
    · exact h.acceptDash hs
    · exact h.acceptOffset hs
  · exact h.acceptOffset hs
  · exact h.acceptOf hs
  · exact h.acceptOf hs

theorem Covers.pushComment {t : Token} (h : d.Covers p w)
    (ht : t.span = .ofText (p + w.utf8ByteSize) t.text) :
    (d.push (.comment (.ofToken t))).Covers p (w ++ t.text) := by
  have hp : (NthNode.comment (.ofToken t)).print = t.text := by
    simp [NthNode.print, Comment.print, Comment.ofToken]
  have := h.push (n := .comment (.ofToken t)) (by rw [hp]; exact ht)
  rwa [hp] at this

end NthDraft

/-- An expression that took tokens from the front of `ts` and covers them. -/
def NthReading.Takes (r : NthReading) (p : Nat) (w : String) (ts : List Token) : Prop :=
  ∃ us, us ++ r.rest = ts ∧ r.draft.Covers p (w ++ Token.join us)

namespace NthDraft

variable {d : NthDraft} {p : Nat} {w : String}

theorem Covers.takes_nil {es : List Event} {ts : List Token} (h : d.Covers p w) :
    NthReading.Takes ⟨d, ts, es⟩ p w ts := ⟨[], rfl, by simpa [Token.join] using h⟩

theorem takes_append {r : NthReading} {ts : List Token} (us : List Token)
    (h : r.Takes p (w ++ Token.join us) ts) : r.Takes p w (us ++ ts) := by
  obtain ⟨vs, rfl, hd⟩ := h
  exact ⟨us ++ vs, List.append_assoc _ _ _, by rwa [Token.join_append, ← String.append_assoc]⟩

theorem takes_cons {r : NthReading} {t : Token} {ts : List Token}
    (h : r.Takes p (w ++ t.text) ts) : r.Takes p w (t :: ts) :=
  takes_append [t] (by simpa [Token.join] using h)

/-- **An expression covers the tokens that it takes.** -/
theorem Covers.read {ts : List Token} (h : d.Covers p w)
    (ht : Token.Covering (p + w.utf8ByteSize) ts) : (d.read ts).Takes p w ts := by
  fun_induction NthDraft.read d ts generalizing w with
  | case1 d => exact h.takes_nil
  | case2 d t ts hk ih => exact takes_cons (ih (h.pushBlanks ht.head_span) ht.tail)
  | case3 d t ts hk ih => exact takes_cons (ih (h.pushComment ht.head_span) ht.tail)
  | case4 d t ts hk hp => exact h.takes_nil
  | case5 d t ts hk hp a =>
    rename_i ih
    exact takes_cons (ih (h.accept ht.head_span) ht.tail)
  | case6 d t ts hk hp => exact h.takes_nil
  | case7 d t hk hp u us hu a =>
    rename_i ih
    have htext : t.text = "+" := ht.head_text (c := '+') (by rw [hk]; rfl)
    have hspan : (⟨t.span.start, u.span.stop⟩ : Span) =
        .ofText (p + w.utf8ByteSize) ("+" ++ u.text) := by
      rw [← htext, Span.ofText_append, ht.head_span, ht.tail.head_span, Span.start_ofText,
        Span.stop_ofText, String.utf8ByteSize_append, Nat.add_assoc p w.utf8ByteSize]
    have hus := ht.tail.tail
    rw [htext, String.append_assoc] at hus
    refine takes_append [t, u] (ih ?_ ?_)
    · simpa [Token.join, htext] using h.accept hspan
    · simpa [Token.join, htext] using hus
  | case8 d t hk hp u us hu a =>
    rename_i ih
    exact takes_cons (ih (h.accept ht.head_span) ht.tail)
  | case9 d t hk hp => exact takes_cons (h.accept ht.head_span).takes_nil
  | case10 d t ts => exact h.takes_nil

end NthDraft

end Selectors
