import FieldTags.Disk.Host
import FieldTags.Text.Utf8

/-! The files that a command line names. A path that is no folder names itself; a folder names the
schema files below it. -/
namespace FieldTags

/-- Says a note if the verbosity asks for its level: warnings at 0, everything from 3 on. -/
def tell {m : Type → Type} [Monad m] [Host m] (verbosity : Nat) (n : Note) : m Unit :=
  if n.level.detail ≤ verbosity + 1 then Host.say (.note n) else pure ()

def tellAll {m : Type → Type} [Monad m] [Host m] (verbosity : Nat) : List Note → m Unit
  | [] => pure ()
  | n :: ns => do
    tell verbosity n
    tellAll verbosity ns

/-- A name that is not UTF-8 is never hidden. -/
def isHidden (name : Bytes) : Bool := Utf8.isValid name && name.head? == some Ascii.dot

/-- The part of a name after its last dot, if there is a part before the dot. -/
def extension? (name : Bytes) : Option Bytes :=
  let reversed := name.reverse
  let ext := reversed.takeWhile (· ≠ Ascii.dot)
  match reversed.drop ext.length with
  | _ :: _ :: _ => some ext.reverse
  | _ => none

def isSchemaName (name : Bytes) : Bool :=
  (extension? name).map (·.map Ascii.toLower) == some (Ascii.word "proto")

structure Visit where
  path : Bytes
  isSchema : Bool
  deriving DecidableEq, Repr

/-- The entries below the folder `path`, each folder just before what is in it, down to the given
number of levels if there is one. Hidden entries are left out with all that is below them. -/
def visits {α : Type} (levels : Option Nat) (path : Bytes) : Dir α → List Visit
  | .empty => []
  | .file name _ rest =>
    (if levels ≠ some 0 ∧ ¬ isHidden name then [⟨Path.join path name, isSchemaName name⟩] else []) ++
      visits levels path rest
  | .folder name inner rest =>
    (if levels ≠ some 0 ∧ ¬ isHidden name then
      ⟨Path.join path name, false⟩ :: visits (levels.map (· - 1)) (Path.join path name) inner
    else []) ++ visits levels path rest

variable {m : Type → Type} [Monad m] [Host m]

def inputsOf (verbosity : Nat) (levels : Option Nat) (path : Bytes) : m (List Bytes) := do
  match ← Host.folder? path with
  | none => return [path]
  | some folder =>
    tell verbosity ⟨.debug, s!"Scanning directory: {path.toText}"⟩
    let met := ⟨path, false⟩ :: visits levels path folder
    let passed := met.filter (! ·.isSchema)
    tellAll verbosity (passed.map fun v => ⟨.trace, s!"Skipping {v.path.toText}"⟩)
    return (met.filter (·.isSchema)).map (·.path)

def inputs (verbosity : Nat) (levels : Option Nat) : List Bytes → m (List Bytes)
  | [] => return []
  | path :: paths => do
    let here ← inputsOf verbosity levels path
    return here ++ (← inputs verbosity levels paths)

end FieldTags
