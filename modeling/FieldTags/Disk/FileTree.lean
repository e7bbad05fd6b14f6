import FieldTags.Disk.Dir
import FieldTags.Disk.Error
import FieldTags.Disk.Path

/-! A whole tree of files with a working folder, without links. Paths are followed part by part;
a write replaces the whole content of one file or fails and changes nothing. -/
namespace FieldTags

/-- What is found below a folder by reading it under `path` and the folders in it under theirs. The
name of a folder is found also where its path is too long to read it. -/
def Dir.survey {α : Type} (path : Bytes) : Dir α → Dir Unit
  | .empty => .empty
  | .file name _ rest => .file name () (rest.survey path)
  | .folder name inner rest =>
    let below := Path.join path name
    .folder name (if Path.isTooLong below then .empty else inner.survey below) (rest.survey path)

/-- A file tree; `here` holds the names that lead from its top to the working folder. -/
structure FileTree where
  top : Dir Bytes
  here : List Bytes
  ordered : top.Ordered

namespace FileTree

abbrev Location := List Bytes

def atFolder (here : Location) : FileTree :=
  ⟨Dir.empty.makeFolders here, here, Dir.ordered_makeFolders trivial⟩

def entry? (t : FileTree) (l : Location) : Option (Entry Bytes) := t.top.lookup l

def isFolderAt (t : FileTree) (l : Location) : Bool :=
  match t.entry? l with
  | some (.folder _) => true
  | _ => false

/-- Follows the parts of a path from a location, each from a folder that must be there. -/
def follow (t : FileTree) (l : Location) : List Bytes → Except DiskError Location
  | [] => .ok l
  | part :: parts =>
    if t.isFolderAt l then
      if Path.stays part then t.follow l parts
      else if part = Path.up then t.follow l.dropLast parts
      else if Path.nameLimit < part.length then .error .nameTooLong
      else if (t.entry? (l ++ [part])).isSome then t.follow (l ++ [part]) parts
      else .error .missing
    else .error .notAFolder

/-- Where a path starts, if the path as a whole is acceptable. -/
def startOf (t : FileTree) (path : Bytes) : Except DiskError Location :=
  if path.contains 0 then .error .zeroInPath
  else if path = [] then .error .missing
  else if Path.isTooLong path then .error .nameTooLong
  else .ok (if Path.isAbsolute path then [] else t.here)

def locate (t : FileTree) (path : Bytes) : Except DiskError Location := do
  t.follow (← t.startOf path) (Path.parts path)

def find? (t : FileTree) (path : Bytes) : Option (Entry Bytes) :=
  match t.locate path with
  | .ok l => t.entry? l
  | .error _ => none

def isPresent (t : FileTree) (path : Bytes) : Bool := (t.find? path).isSome

def folder? (t : FileTree) (path : Bytes) : Option (Dir Bytes) :=
  match t.find? path with
  | some (.folder inner) => some inner
  | _ => none

def read (t : FileTree) (path : Bytes) : Except DiskError Bytes := do
  match t.entry? (← t.locate path) with
  | some (.file content) => .ok content
  | some (.folder _) => .error .isAFolder
  | none => .error .missing

/-- The location that a write to a path goes to: a name in a folder that is there, of a file or of
nothing yet. -/
def target (t : FileTree) (path : Bytes) : Except DiskError Location := do
  let start ← t.startOf path
  let parts := Path.parts path
  let core := (parts.reverse.dropWhile (· == [])).reverse
  match core.getLast? with
  | none => .error .isAFolder
  | some name =>
    let l ← t.follow start core.dropLast
    if ! t.isFolderAt l then .error .notAFolder
    else if name = [Ascii.dot] ∨ name = Path.up ∨ core.length < parts.length then .error .isAFolder
    else if Path.nameLimit < name.length then .error .nameTooLong
    else if t.isFolderAt (l ++ [name]) then .error .isAFolder
    else .ok (l ++ [name])

def place (t : FileTree) (l : Location) (content : Bytes) : FileTree :=
  ⟨t.top.put l (.file content), t.here, Dir.ordered_put t.ordered trivial⟩

def write (t : FileTree) (path : Bytes) (content : Bytes) : Except DiskError FileTree := do
  return t.place (← t.target path) content

/-- Makes a folder and the folders on the way to it, named from the working folder on. -/
def addFolder (t : FileTree) (names : List Bytes) : FileTree :=
  ⟨t.top.makeFolders (t.here ++ names), t.here, Dir.ordered_makeFolders t.ordered⟩

/-- Adds a file with the folders on the way to it, named from the working folder on. -/
def addFile (t : FileTree) (names : List Bytes) (content : Bytes) : FileTree :=
  (t.addFolder names.dropLast).place (t.here ++ names) content

/-- All files below the working folder, each with the names that lead to it from there. -/
def filesHere (t : FileTree) : List (List Bytes × Bytes) :=
  match t.entry? t.here with
  | some (.folder inner) => inner.files
  | _ => []

end FileTree
end FieldTags
