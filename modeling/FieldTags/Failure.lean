import FieldTags.Block.Brace
import FieldTags.Disk.Error
import FieldTags.Text.Utf8

/-! What can go wrong, by its cause, and its wording. -/
namespace FieldTags

inductive Failure where
  | fileRead (path : Bytes) (cause : DiskError)
  | fileWrite (path : Bytes) (cause : DiskError)
  | backupExists (path : Bytes)
  | invalidUtf8 (path : Bytes)
  | brace (e : BraceError)
  deriving DecidableEq, Repr

namespace Failure

def message : Failure → String
  | .fileRead path cause => s!"failed to read file '{path.toText}': {cause.text}"
  | .fileWrite path cause => s!"failed to write file '{path.toText}': {cause.text}"
  | .backupExists path => s!"backup '{path.toText}' already exists with different content"
  | .invalidUtf8 path => s!"file '{path.toText}' is not valid UTF-8"
  | .brace e => e.message

/-- A text can be renumbered in spite of a recoverable failure. -/
def isRecoverable : Failure → Bool
  | .brace _ => true
  | _ => false

def isNotFound : Failure → Bool
  | .fileRead _ cause => cause.kind == .notFound
  | _ => false

/-- The failure and then its causes, each in its own words. -/
def causes (f : Failure) : List String :=
  match f with
  | .fileRead _ cause | .fileWrite _ cause => [f.message, cause.text]
  | _ => [f.message]

end Failure
end FieldTags
