import FieldTags.Document.Pass

/-! What renumbering a document notes for the log, read off the steps of the pass. -/
namespace FieldTags

def lengthDelta (before after : Nat) : String := toString ((after : Int) - (before : Int))

def Step.notes : Step → List Note
  | .skipped b =>
    [⟨.warn, s!"Skipping message span {b.lbrace}..={b.rbrace}: offsets no longer fit the document"⟩]
  | .handled b body answer =>
    renumberNotes body ++
    [if answer.text = body then ⟨.trace, s!"Span {b.lbrace}..={b.rbrace} unchanged"⟩
    else
      let delta := lengthDelta body.length answer.text.length
      ⟨.trace, s!"Span {b.lbrace}..={b.rbrace} rewritten ({answer.fields} field(s), length delta {delta})"⟩]

def Outcome.notes (t : Bytes) (o : Outcome) : List Note :=
  searchNotes t ++
  [⟨.debug, s!"Processing {o.messages} message span(s)"⟩] ++
  o.steps.flatMap Step.notes ++
  [⟨.debug, s!"Rewrote {o.rewritten} of {o.messages} message(s), {o.fields} field(s) seen"⟩]

end FieldTags
