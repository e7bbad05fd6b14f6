import FieldTags.Field.Options
import FieldTags.Text.Run

/-! Field declarations, read at the start of a statement:

    [label] type name = number [options];

A type is a map type or a dotted word. Where a text can be read in two ways, a label wins over a
type of the same spelling, and a map type over a word. -/
namespace FieldTags

/-- A declaration by its parts. `tagStart` and `length` count from the start of the statement. -/
structure Declaration where
  label : Option Bytes
  type : Bytes
  name : Bytes
  tag : Bytes
  tagStart : Nat
  length : Nat
  deriving DecidableEq, Repr

namespace Declaration

def gapLength (t : Bytes) : Nat := (t.takeWhile Ascii.isGap).length

def labels : List Bytes := [Ascii.word "optional", Ascii.word "required", Ascii.word "repeated"]

/-- The labels that a text may be read with, none at last, each with the offset after its gap. -/
def labelChoices (t : Bytes) : List (Option Bytes × Nat) :=
  labels.filterMap (fun label =>
    let gap := gapLength (t.drop label.length)
    if label.isPrefixOf t ∧ 0 < gap then some (some label, label.length + gap) else none) ++
  [(none, 0)]

def mapKeyword : Bytes := Ascii.word "map"

def inAngles (b : UInt8) : Bool := b != Ascii.greater && b != Ascii.newline

/-- The length of `map<...>` at the front of a text, up to the first closing angle. -/
def mapTypeLength? (t : Bytes) : Option Nat :=
  let left := mapKeyword.length + gapLength (t.drop mapKeyword.length)
  let right := left + 1 + ((t.drop (left + 1)).takeWhile inAngles).length
  if mapKeyword.isPrefixOf t ∧ t[left]? = some Ascii.less ∧ t[right]? = some Ascii.greater then
    some (right + 1)
  else none

def isTypeChar (c : Char) : Bool := isWord c || c == '.' || c == '<' || c == '>'

def wordTypeLength? (t : Bytes) : Option Nat :=
  let n := t.run isTypeChar
  if 0 < n then some n else none

def typeLengths (t : Bytes) : List Nat := (mapTypeLength? t).toList ++ (wordTypeLength? t).toList

/-- The length of the field name at the front of a text, 0 if there is none. -/
def nameLength (t : Bytes) : Nat :=
  match t with
  | b :: rest => if Ascii.isNameStart b then 1 + Bytes.run isWord rest else 0
  | [] => 0

/-- A way to begin a declaration: its label, and the offsets around its type. -/
structure Opening where
  label : Option Bytes
  typeStart : Nat
  typeStop : Nat

/-- All ways to begin a declaration, the preferred ones first. -/
def openings (t : Bytes) : List Opening :=
  let indent := gapLength t
  (labelChoices (t.drop indent)).flatMap fun (label, skip) =>
    let start := indent + skip
    (typeLengths (t.drop start)).map fun n => ⟨label, start, start + n⟩

def complete? (t : Bytes) (o : Opening) : Option Declaration :=
  let nameStart := o.typeStop + gapLength (t.drop o.typeStop)
  let nameStop := nameStart + nameLength (t.drop nameStart)
  let equals := nameStop + gapLength (t.drop nameStop)
  let tagStart := equals + 1 + gapLength (t.drop (equals + 1))
  let tag := (t.drop tagStart).takeWhile Ascii.isDigit
  let tagStop := tagStart + tag.length
  let group := tagStop + gapLength (t.drop tagStop)
  if o.typeStop < nameStart ∧ nameStart < nameStop ∧ t[equals]? = some Ascii.equals ∧ tag ≠ [] then
    (optionsLength? (t.drop group)).bind fun n =>
      let stop := group + n + gapLength (t.drop (group + n))
      if t[stop]? = some Ascii.semicolon then
        some ⟨o.label, t.between o.typeStart o.typeStop, t.between nameStart nameStop, tag,
          tagStart, stop + 1⟩
      else none
  else none

def front? (t : Bytes) : Option Declaration := (openings t).findSome? (complete? t)

end Declaration
end FieldTags
