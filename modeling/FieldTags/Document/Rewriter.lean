import FieldTags.Field.Renumber

/-! Rewriters of message bodies. A rewriter may carry state from one call to the next. -/
namespace FieldTags

/-- The new text of a body and the number of fields that the rewriter says it handled. -/
structure Rewrite where
  text : Bytes
  fields : UInt64
  deriving DecidableEq, Repr

/-- Takes its state and a body; gives its answer and the state for the next call. -/
abbrev Rewriter (σ : Type) := σ → Bytes → Rewrite × σ

namespace Rewriter

def pure (f : Bytes → Rewrite) : Rewriter Unit := fun _ body => (f body, ())

/-- Answers the `i`-th call with the `i`-th function, and later calls by leaving the body alone. -/
def script : Rewriter (List (Bytes → Rewrite))
  | [], body => (⟨body, 0⟩, [])
  | f :: fs, body => (f body, fs)

end Rewriter

def renumber (body : Bytes) : Rewrite :=
  let direct := fields body
  ⟨Edit.applyAll (retag direct) body, .ofNat direct.length⟩

@[simp] theorem renumber_text (body : Bytes) : (renumber body).text = renumberBody body := rfl

end FieldTags
