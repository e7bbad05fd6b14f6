import FieldTags.Block.Basic
import FieldTags.Block.Brace
import FieldTags.Lexical.Mask
import FieldTags.Log
import FieldTags.Message.Head

/-! The message blocks of a text: each head in code whose brace is matched gives one. -/
namespace FieldTags

inductive Finding where
  | outsideCode
  | unmatched (e : BraceError)
  | block (b : Block)
  deriving DecidableEq, Repr

structure Sighting where
  head : Head
  finding : Finding
  deriving DecidableEq, Repr

namespace Sighting

def ofHead (t : Bytes) (mask : List Bool) (h : Head) : Sighting :=
  if mask[h.start]? = some true then
    match matchBrace t h.lbrace with
    | .ok stop => ⟨h, .block ⟨h.lbrace, stop⟩⟩
    | .error e => ⟨h, .unmatched e⟩
  else ⟨h, .outsideCode⟩

def block? (s : Sighting) : Option Block :=
  match s.finding with
  | .block b => some b
  | _ => none

def notes (s : Sighting) : List Note :=
  match s.finding with
  | .outsideCode => [⟨.trace, s!"Ignoring message keyword at {s.head.start} outside code"⟩]
  | .unmatched e =>
    [⟨.trace, s!"No matching brace for offset {s.head.lbrace}"⟩,
      ⟨.trace, s!"Skipping message at {s.head.start}: {e.message}"⟩]
  | .block b => [⟨.trace, s!"Found message span {b.lbrace}..={b.rbrace}"⟩]

end Sighting

def sightings (t : Bytes) : List Sighting :=
  let mask := codeMask t
  (Head.all t).map (Sighting.ofHead t mask)

/-- The message blocks of a text in ascending order of their opening braces. -/
def messageBlocks (t : Bytes) : List Block := (sightings t).filterMap Sighting.block?

def searchNotes (t : Bytes) : List Note := (sightings t).flatMap Sighting.notes

end FieldTags
