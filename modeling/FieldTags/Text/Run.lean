import FieldTags.Text.Utf8
import FieldTags.Text.Word

/-! Characters of one class in a text: the run of them at its front, and, byte by byte, which bytes
belong to them. -/
namespace FieldTags
namespace Bytes

/-- The length of the run after `skip` bytes, which belong to a character already in it. -/
def runAfter (p : Char → Bool) : Nat → Bytes → Nat
  | _, [] => 0
  | skip + 1, _ :: rest => 1 + runAfter p skip rest
  | 0, b :: rest =>
    match Utf8.front? (b :: rest) with
    | none => 0
    | some (c, width) => if p c then 1 + runAfter p (width - 1) rest else 0

def run (p : Char → Bool) (t : Bytes) : Nat := runAfter p 0 t

/-- One mark per byte, after `skip` bytes marked `current` with the character they belong to. -/
def marksAfter (p : Char → Bool) : Nat → Bool → Bytes → List Bool
  | _, _, [] => []
  | skip + 1, current, _ :: rest => current :: marksAfter p skip current rest
  | 0, _, b :: rest =>
    match Utf8.front? (b :: rest) with
    | none => false :: marksAfter p 0 false rest
    | some (c, width) => p c :: marksAfter p (width - 1) (p c) rest

/-- For each byte, whether it belongs to a character of the class `p`. -/
def marks (p : Char → Bool) (t : Bytes) : List Bool := marksAfter p 0 false t

/-- For each byte, whether the character before it is no word character. -/
def wordMayStart (t : Bytes) : List Bool := true :: (t.marks isWord).map (! ·)

end Bytes
end FieldTags
