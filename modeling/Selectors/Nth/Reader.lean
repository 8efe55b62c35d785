import Selectors.Event
import Selectors.Nth.Form

/-!
# Reading `An+B of S` expressions

The argument of an `:nth-…()` pseudo-class starts with an expression `An+B`, possibly followed by
`of` and selectors.  The expression is read word by word; a word is a text token, or a `+` token
with the text token right after it.  Blanks and comments may stand anywhere between words.

A phase says what the next word is taken for.  Words that do not fit are kept and flagged, so
that nothing is lost.  Reading ends at the first token that can not continue the expression,
which is left for the selectors that follow.

* `NthDraft.accept` takes one word.
* `NthDraft.read` takes as many tokens as the expression has (`NthDraft.read_suffix`).
-/

namespace Selectors

/-- An expression being read. -/
structure NthDraft where
  span : Span
  before : String := ""
  /-- The items so far, last one first. -/
  items : List NthNode := []
  phase : NthPhase := .step
  /-- Whether a sign stood alone, so that the offset after it must have none. -/
  afterDash : Bool := false
  deriving DecidableEq, Repr

namespace NthDraft

/-- An empty expression at `p`. -/
def start (p : Nat) : NthDraft := { span := .point p }

/-- The expression read. -/
def finish (d : NthDraft) : Nth :=
  { span := d.span, before := d.before, nodes := d.items.reverse }

/-- Adds an item. -/
def push (d : NthDraft) (n : NthNode) : NthDraft :=
  { d with items := n :: d.items, span.stop := n.span.stop }

/-- Adds a part. -/
def pushPart (d : NthDraft) (role : NthRole) (text : String) (span : Span) (invalid : Bool) :
    NthDraft :=
  d.push (.part role { span := span, text := text, invalid := invalid })

/-- Adds blanks: to the last item, or in front of the expression when there is none. -/
def pushBlanks (d : NthDraft) (t : Token) : NthDraft :=
  match d.items with
  | n :: ns => { d with items := n.appendBlanks t :: ns, span.stop := t.span.stop }
  | [] => { d with before := d.before ++ t.text, span.stop := t.span.stop }

/-- Takes a word for `of`. -/
def acceptOf (d : NthDraft) (text : String) (span : Span) : NthDraft :=
  { d.pushPart .of text span (text != "of") with phase := .selector }

/-- Takes a word for an offset. -/
def acceptOffset (d : NthDraft) (text : String) (span : Span) : NthDraft :=
  if text = "of" then d.acceptOf text span
  else
    let invalid := !NthForm.isInteger text.toList || (d.afterDash && NthForm.isSigned text.toList)
    { d.pushPart .offset text span invalid with phase := .of }

/-- Takes a sign that stands alone, after which an offset is expected. -/
def acceptDash (d : NthDraft) (text : String) (span : Span) : NthDraft :=
  { d.pushPart .dash text span false with phase := .offset, afterDash := true }

/-- Takes a word for a step that is glued to a sign or to an offset. -/
def acceptStep? (d : NthDraft) (text : String) (span : Span) : Option NthDraft :=
  match NthForm.splitAtN text.toList with
  | none => none
  | some (step, rest) =>
    if NthForm.isStep step then
      let mid := span.start + (String.ofList step).utf8ByteSize
      let d := { d.pushPart .step (String.ofList step) ⟨span.start, mid⟩ false with phase := .dash }
      if rest = [] then some d
      else if rest = ['-'] then some (d.acceptDash "-" ⟨mid, span.stop⟩)
      else if NthForm.isSignedInteger rest then
        some { d.pushPart .offset (String.ofList rest) ⟨mid, span.stop⟩ false with phase := .of }
      else none
    else none

/-- Takes the first word. -/
def acceptFirst (d : NthDraft) (text : String) (span : Span) : NthDraft × List Event :=
  let cs := text.toList
  if NthForm.isKeyword cs then
    ({ d.pushPart .step text span (NthForm.isSigned cs) with phase := .of }, [])
  else if NthForm.isInteger cs then
    ({ d.pushPart .offset text span false with phase := .of }, [])
  else match d.acceptStep? text span with
    | some d => (d, [])
    | none => ({ d.pushPart .step text span true with phase := .dash }, [.invalidStep text])

/-- Takes a word for what the phase expects. -/
def accept (d : NthDraft) (text : String) (span : Span) : NthDraft × List Event :=
  match d.phase with
  | .step => d.acceptFirst text span
  | .dash =>
    if text = "+" ∨ text = "-" then (d.acceptDash text span, [])
    else (d.acceptOffset text span, [])
  | .offset => (d.acceptOffset text span, [])
  | .of | .selector => (d.acceptOf text span, [])

end NthDraft

/-- An expression read, with the tokens after it. -/
structure NthReading where
  draft : NthDraft
  rest : List Token
  events : List Event
  deriving DecidableEq, Repr

namespace NthReading

/-- The same reading with events in front. -/
def after (events : List Event) (r : NthReading) : NthReading :=
  { r with events := events ++ r.events }

@[simp] theorem after_draft (es : List Event) (r : NthReading) : (r.after es).draft = r.draft := rfl
@[simp] theorem after_rest (es : List Event) (r : NthReading) : (r.after es).rest = r.rest := rfl

end NthReading

namespace NthDraft

/-- Reads the tokens that continue the expression. -/
def read (d : NthDraft) : List Token → NthReading
  | [] => ⟨d, [], []⟩
  | t :: ts =>
    match t.kind with
    | .space => (d.pushBlanks t).read ts
    | .comment => (d.push (.comment (.ofToken t))).read ts
    | .text =>
      if d.phase = .selector then ⟨d, t :: ts, []⟩
      else
        let a := d.accept t.text t.span
        (a.1.read ts).after a.2
    | .plus =>
      if d.phase = .selector then ⟨d, t :: ts, []⟩
      else
        match ts with
        | u :: us =>
          if u.kind = .text then
            let a := d.accept ("+" ++ u.text) ⟨t.span.start, u.span.stop⟩
            (a.1.read us).after a.2
          else
            let a := d.accept t.text t.span
            (a.1.read (u :: us)).after a.2
        | [] =>
          let a := d.accept t.text t.span
          ⟨a.1, [], a.2⟩
    | _ => ⟨d, t :: ts, []⟩

/-- Reading leaves a suffix of the tokens. -/
theorem read_suffix (d : NthDraft) (ts : List Token) : (d.read ts).rest <:+ ts := by
  fun_induction read d ts with
  | case1 => exact List.suffix_rfl
  | case2 d t ts h ih => exact ih.trans (List.suffix_cons t ts)
  | case3 d t ts h ih => exact ih.trans (List.suffix_cons t ts)
  | case4 => exact List.suffix_rfl
  | case5 d t ts h hp a ih => exact ih.trans (List.suffix_cons t ts)
  | case6 => exact List.suffix_rfl
  | case7 d t h hp u us hu a ih =>
    exact (ih.trans (List.suffix_cons u us)).trans (List.suffix_cons t (u :: us))
  | case8 d t h hp u us hu a ih => exact ih.trans (List.suffix_cons t (u :: us))
  | case9 => exact List.nil_suffix
  | case10 => exact List.suffix_rfl

end NthDraft

end Selectors
