import FieldTags.Field.Declaration
import FieldTags.Message.Blocks

/-! The direct fields of a message body. A field begins at a statement start, outside the nested
message blocks and outside the field before it; an option statement is none. -/
namespace FieldTags

/-- A declaration whose statement starts at the offset `start` of a body. -/
structure Field where
  start : Nat
  declaration : Declaration
  deriving DecidableEq, Repr

namespace Field

def tagStart (f : Field) : Nat := f.start + f.declaration.tagStart

def tagStop (f : Field) : Nat := f.tagStart + f.declaration.tag.length

def stop (f : Field) : Nat := f.start + f.declaration.length

/-- The tag as a number, if 32 bits can hold it. -/
def number? (f : Field) : Option Nat :=
  let n := Ascii.value f.declaration.tag
  if n < 0x100000000 then some n else none

def optionKeyword : Bytes := Ascii.word "option"

end Field

/-- The fields at the given statement starts, of which those before `free` are taken. -/
def fieldsFrom (body : Bytes) (nested : List Block) (free : Nat) : List Nat → List Field
  | [] => []
  | start :: starts =>
    if start < free ∨ nested.any (·.containsOffset start) then fieldsFrom body nested free starts
    else
      match Declaration.front? (body.drop start) with
      | none => fieldsFrom body nested free starts
      | some d =>
        if d.type = Field.optionKeyword then fieldsFrom body nested free starts
        else ⟨start, d⟩ :: fieldsFrom body nested (start + d.length) starts

def fields (body : Bytes) : List Field :=
  fieldsFrom body (messageBlocks body) 0 (statementStarts body)

end FieldTags
