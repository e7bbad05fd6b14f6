import FieldTags.Command.Inputs
import FieldTags.Digest.Blake3
import FieldTags.Failure

/-! Documents on the host: reading and writing them, and keeping the text that is overwritten. The
backup of a file stands beside it; a text never goes over a different one. -/
namespace FieldTags
variable {m : Type → Type} [Monad m] [Host m]

def readDocument (verbosity : Nat) (path : Bytes) : m (Except Failure Bytes) := do
  match ← Host.read path with
  | .error e => return .error (.fileRead path e)
  | .ok t =>
    tell verbosity ⟨.trace, s!"Read {t.length} bytes from {path.toText}"⟩
    return if Utf8.isValid t then .ok t else .error (.invalidUtf8 path)

def writeDocument (verbosity : Nat) (path t : Bytes) : m (Except Failure Unit) := do
  match ← Host.write path t with
  | .error e => return .error (.fileWrite path e)
  | .ok () =>
    tell verbosity ⟨.trace, s!"Wrote {t.length} bytes to {path.toText}"⟩
    return .ok ()

/-- A failure, with what was being done if it was more than one step. -/
structure Trouble where
  context : Option String
  failure : Failure
  deriving DecidableEq, Repr

def Trouble.describe (t : Trouble) : String :=
  ": ".intercalate (t.context.toList ++ t.failure.causes)

namespace Backup

def plainPath (path : Bytes) (suffix : String) : Bytes := path ++ Bytes.ofString suffix

/-- The path for a text whose plain backup path holds another one. -/
def hashedPath (path : Bytes) (suffix : String) (t : Bytes) : Bytes :=
  path ++ Ascii.tilde :: (((Blake3.hex t).take 8).map Char.toUInt8 ++ Bytes.ofString suffix)

def holds (path t : Bytes) : m Bool := do
  match ← Host.read path with
  | .ok content => return content == t
  | .error _ => return false

def isFree (path t : Bytes) : m Bool := do
  if ← Host.isPresent path then holds path t else return true

def choose (verbosity : Nat) (path : Bytes) (suffix : String) (t : Bytes) :
    m (Except Failure Bytes) := do
  let plain := plainPath path suffix
  let hashed := hashedPath path suffix t
  if ← isFree plain t then return .ok plain
  else if ← isFree hashed t then
    tell verbosity ⟨.info, s!"Backup conflict resolved: {plain.toText} -> {hashed.toText}"⟩
    return .ok hashed
  else return .error (.backupExists hashed)

def write (verbosity : Nat) (path : Bytes) (suffix : String) (t : Bytes) :
    m (Except Trouble Bytes) := do
  match ← choose verbosity path suffix t with
  | .error f => return .error ⟨none, f⟩
  | .ok backup =>
    match ← writeDocument verbosity backup t with
    | .error f => return .error ⟨some s!"Failed to write backup for {path.toText}", f⟩
    | .ok () =>
      tell verbosity ⟨.debug, s!"Backed up {path.toText} to {backup.toText}"⟩
      return .ok backup

end Backup
end FieldTags
