import FieldTags.Text.Ascii

/-! Replacements in a text. A list of edits in ascending order is one simultaneous substitution:
every range speaks of the text before any of them. -/
namespace FieldTags

structure Edit where
  start : Nat
  stop : Nat
  text : Bytes
  deriving DecidableEq, Repr

namespace Edit

def shift (k : Nat) (e : Edit) : Edit := ⟨k + e.start, k + e.stop, e.text⟩

/-- Applies ascending edits to the rest of a text, the first byte of which stands at `position`. -/
def applyFrom : Nat → List Edit → Bytes → Bytes
  | _, [], rest => rest
  | position, e :: edits, rest =>
    rest.take (e.start - position) ++ e.text ++
      applyFrom e.stop edits (rest.drop (e.stop - position))

def applyAll (edits : List Edit) (t : Bytes) : Bytes := applyFrom 0 edits t

end Edit
end FieldTags
