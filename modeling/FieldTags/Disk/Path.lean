import FieldTags.Text.Ascii

/-! Paths as written: names between slashes, any bytes but these and zero. Nothing is normalised, since
what `.` and `..` mean depends on the folders they stand behind. -/
namespace FieldTags
namespace Path

/-- The parts of a path; a slash at either end leaves an empty part there. -/
def parts : Bytes → List Bytes
  | [] => [[]]
  | c :: cs =>
    if c = Ascii.slash then [] :: parts cs
    else
      match parts cs with
      | [] => [[c]]
      | part :: rest => (c :: part) :: rest

def isAbsolute (path : Bytes) : Bool := path.head? == some Ascii.slash

/-- A part that stays in the folder it stands behind. -/
def stays (part : Bytes) : Bool := part == [] || part == [Ascii.dot]

def up : Bytes := [Ascii.dot, Ascii.dot]

/-- The path of an entry of the folder that is found under `path`. -/
def join (path name : Bytes) : Bytes :=
  if path.getLast? = some Ascii.slash then path ++ name else path ++ Ascii.slash :: name

/-- The greatest number of bytes in one name. -/
def nameLimit : Nat := 255

/-- The least number of bytes that makes a whole path too long. -/
def pathLimit : Nat := 4096

def isTooLong (path : Bytes) : Bool := pathLimit ≤ path.length

end Path
end FieldTags
