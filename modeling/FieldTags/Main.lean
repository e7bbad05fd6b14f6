import FieldTags.Command.Run

/-! The command on a real host: files through the operating system, lines on the standard output. The
system is asked with names as strings, so it reaches names in UTF-8 only. -/
namespace FieldTags.Main

/-- Some calls give the number of a failure negated and its text without a capital. -/
def numbered (kind : DiskErrorKind) (code : UInt32) (text : String) : DiskError :=
  .numbered kind text.capitalize (if code < 0x80000000 then code else 0 - code).toNat

def diskError : IO.Error → DiskError
  | .noFileOrDirectory _ code text => numbered .notFound code text
  | .permissionDenied _ code text => numbered .permissionDenied code text
  | .alreadyExists _ code text => numbered .alreadyExists code text
  | .inappropriateType _ code text => numbered .other code text
  | .invalidArgument _ code text => numbered .other code text
  | .resourceExhausted _ code text => numbered .other code text
  | .resourceBusy code text => numbered .other code text
  | .otherError code text => numbered .other code text
  | e => ⟨.other, e.toString⟩

def entryAt (path : Bytes) : IO.FS.DirEntry := ⟨path.toText, ""⟩

/-- The files and folders below a folder. What cannot be read is left out, and links are not
followed. -/
partial def survey (folder : Bytes) : IO (Dir Unit) := do
  let entries ← (entryAt folder).root.readDir <|> pure #[]
  let mut found : Dir Unit := .empty
  for e in entries do
    let name := Bytes.ofString e.fileName
    let path := Path.join folder name
    match ← (entryAt path).root.symlinkMetadata.toBaseIO with
    | .ok data =>
      match data.type with
      | .file => found := found.set name (.file ())
      | .dir => found := found.set name (.folder (← survey path))
      | _ => pure ()
    | .error _ => pure ()
  return found

instance : Host IO where
  read path := do
    match ← (IO.FS.readBinFile path.toText).toBaseIO with
    | .ok content => return .ok content.toList
    | .error e => return .error (diskError e)
  write path content := do
    match ← (IO.FS.writeBinFile path.toText ⟨content.toArray⟩).toBaseIO with
    | .ok () => return .ok ()
    | .error e => return .error (diskError e)
  isPresent path := (entryAt path).root.pathExists
  folder? path := do
    if ← (entryAt path).root.isDir then return some (← survey path) else return none
  say line := IO.println line.render

end FieldTags.Main

open FieldTags in
def main (args : List String) : IO UInt32 := do
  let exit ← (command (← IO.getEnv "PROTONUM_BACKUP_SUFFIX") args : IO Exit)
  if let some text := exit.complaint then IO.eprintln text
  return exit.code.toUInt32
