import FieldTags.Field.Body
import FieldTags.Text.Edit

/-! Renumbering a body: its direct fields get the tags 1, 2, 3, ... in the order of the text, and
every other byte stays. -/
namespace FieldTags

/-- The greatest tag that a schema may use. -/
def maxFieldNumber : Nat := 536870911

def retagFrom (tag : Nat) : List Field → List Edit
  | [] => []
  | f :: fs => ⟨f.tagStart, f.tagStop, Ascii.decimal tag⟩ :: retagFrom (tag + 1) fs

def retag (fs : List Field) : List Edit := retagFrom 1 fs

def renumberBody (body : Bytes) : Bytes := Edit.applyAll (retag (fields body)) body

def Field.notes (f : Field) (tag : Nat) : List Note :=
  let name := f.declaration.name.toText
  (if tag > maxFieldNumber then
    [⟨.warn, s!"Field '{name}' gets tag {tag} beyond the protobuf maximum {maxFieldNumber}"⟩]
  else []) ++
  [⟨.trace, s!"Field '{name}': {f.declaration.tag.toText} -> {tag}"⟩]

def retagNotesFrom (tag : Nat) : List Field → List Note
  | [] => []
  | f :: fs => f.notes tag ++ retagNotesFrom (tag + 1) fs

/-- What renumbering a body notes: its search for nested messages, then one line per field. -/
def renumberNotes (body : Bytes) : List Note :=
  searchNotes body ++ retagNotesFrom 1 (fields body)

end FieldTags
