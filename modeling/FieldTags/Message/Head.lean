import FieldTags.Text.Blank
import FieldTags.Text.Run

/-! The head of a message: the keyword, a name and an opening brace, with blanks between them. -/
namespace FieldTags

/-- A head by the offsets of its keyword and of its brace. -/
structure Head where
  start : Nat
  lbrace : Nat
  deriving DecidableEq, Repr

namespace Head

def keyword : Bytes := Ascii.word "message"

/-- The length of the ASCII name at the front of a text, 0 if there is none. -/
def nameLength (t : Bytes) : Nat :=
  match t with
  | b :: rest => if Ascii.isNameStart b then 1 + (rest.takeWhile Ascii.isNameByte).length else 0
  | [] => 0

/-- The length of a head after its keyword, its brace included. -/
def restLength? (t : Bytes) : Option Nat :=
  let gap := t.run isBlank
  let name := nameLength (t.drop gap)
  let stop := gap + name + Bytes.run isBlank (t.drop (gap + name))
  if 0 < gap ∧ 0 < name ∧ t[stop]? = some Ascii.leftBrace then some (stop + 1) else none

def length? (t : Bytes) : Option Nat :=
  if keyword.isPrefixOf t then
    (restLength? (t.drop keyword.length)).map (keyword.length + ·)
  else none

/-- The heads of a text, its first byte standing at `position`; `mayStart` tells where a word may
start. -/
def allFrom (position : Nat) : List Bool → Bytes → List Head
  | may :: mayStart, b :: rest =>
    let here := if may then length? (b :: rest) else none
    (here.map fun n => ⟨position, position + n - 1⟩).toList ++
      allFrom (position + 1) mayStart rest
  | _, _ => []

def all (t : Bytes) : List Head := allFrom 0 t.wordMayStart t

end Head
end FieldTags
