import FieldTags.Command.Arguments
import FieldTags.Command.Files
import FieldTags.Document.Notes

/-! A run over the files of a command line: each is renumbered on its own, a failure of one does not
stop the others, and the counts decide how the run ends. -/
namespace FieldTags

def version : String := "0.1.0"

inductive Report where
  | unchanged
  | renumbered (backup : Option Bytes)
  | wouldRenumber
  | notFound
  deriving DecidableEq, Repr

namespace Report

def describe : Report → String
  | .unchanged => "no changes"
  | .renumbered (some backup) => s!"renumbered, backup at {backup.toText}"
  | .renumbered none => "renumbered"
  | .wouldRenumber => "would renumber"
  | .notFound => "file not found"

def isChange : Report → Bool
  | .renumbered _ | .wouldRenumber => true
  | _ => false

end Report

def Options.offsets (o : Options) : Offsets := if o.fixedOffsets then .fixed else .tracked

variable {m : Type → Type} [Monad m] [Host m]

/-- Writes the new text of a file whose old text went to `backup`, if anywhere. -/
def overwrite (o : Options) (path new : Bytes) (backup : Option Bytes) :
    m (Except Trouble Report) := do
  match ← writeDocument o.verbosity path new with
  | .error f => return .error ⟨some s!"Failed to overwrite {path.toText}", f⟩
  | .ok () => return .ok (.renumbered backup)

def replaceText (o : Options) (path old new : Bytes) : m (Except Trouble Report) := do
  if o.noBackup then overwrite o path new none
  else
    match ← Backup.write o.verbosity path o.backupSuffix old with
    | .error e => return .error e
    | .ok backup => overwrite o path new (some backup)

/-- What a pass over a file notes: the notes of the pass, and a summary with a warning if blocks
were skipped. -/
def passNotes (path t : Bytes) (outcome : Outcome) : List Note :=
  outcome.notes t ++
  [⟨.debug,
    s!"{path.toText}: {outcome.messages} message(s), {outcome.fields} field(s), {outcome.rewritten} rewritten"⟩] ++
  (if 0 < outcome.skipped then
    [⟨.warn, s!"{path.toText}: {outcome.skipped} message(s) skipped because of stale offsets"⟩]
  else [])

def renumberText (o : Options) (path t : Bytes) : m (Except Trouble Report) := do
  let outcome := renumberDocument o.offsets t
  tellAll o.verbosity (passNotes path t outcome)
  if outcome.changed then
    if o.writesFiles then replaceText o path t outcome.text else return .ok .wouldRenumber
  else return .ok .unchanged

def renumberFile (o : Options) (path : Bytes) : m (Except Trouble Report) := do
  match ← readDocument o.verbosity path with
  | .ok t => renumberText o path t
  | .error f =>
    if f.isNotFound then
      tell o.verbosity ⟨.warn, s!"Input file does not exist: {path.toText}"⟩
      return .ok .notFound
    else return .error ⟨none, f⟩

structure Tally where
  processed : Nat
  changed : Nat
  failed : Nat
  deriving DecidableEq, Repr

namespace Tally

def zero : Tally := ⟨0, 0, 0⟩

def count (t : Tally) (r : Except Trouble Report) : Tally :=
  match r with
  | .error _ | .ok .notFound => ⟨t.processed + 1, t.changed, t.failed + 1⟩
  | .ok report => ⟨t.processed + 1, if report.isChange then t.changed + 1 else t.changed, t.failed⟩

def complaint? (t : Tally) (check : Bool) : Option String :=
  if 0 < t.failed then some s!"{t.failed} of {t.processed} file(s) failed"
  else if check ∧ 0 < t.changed then some s!"{t.changed} file(s) need renumbering"
  else none

end Tally

def report (o : Options) (path : Bytes) (r : Except Trouble Report) : m Unit := do
  match r with
  | .ok r => Host.say (.report s!"{path.toText}: {r.describe}")
  | .error e =>
    tell o.verbosity ⟨.error, s!"{path.toText}: {e.describe}"⟩
    Host.say (.report s!"{path.toText}: error: {e.describe}")

def renumberFiles (o : Options) (t : Tally) : List Bytes → m Tally
  | [] => return t
  | path :: paths => do
    let r ← renumberFile o path
    report o path r
    renumberFiles o (t.count r) paths

structure Exit where
  code : Nat
  complaint : Option String
  deriving DecidableEq, Repr

def run (o : Options) : m Exit := do
  let files ← inputs o.verbosity o.maxDepth o.paths
  tell o.verbosity ⟨.info, s!"Processing {files.length} file(s)"⟩
  let t ← renumberFiles o .zero files
  tell o.verbosity ⟨.info,
    s!"Summary: {t.processed} processed, {t.changed} changed, {t.failed} failed"⟩
  match t.complaint? o.check with
  | none => return ⟨0, none⟩
  | some text => return ⟨1, some ("Error: " ++ text)⟩

def helpLines : List String :=
  ["Renumber protobuf field tags sequentially within each message",
    "",
    "Usage: protonum [OPTIONS] <PATH>...",
    "",
    "Options:",
    "  -v, --verbose...                     Show more of the log (-v, -vv, -vvv)",
    "      --dry-run                        Report what would change and write nothing",
    "      --check                          Like --dry-run, and fail if any file would change",
    "      --no-backup                      Overwrite files without keeping a backup",
    "      --backup-suffix <BACKUP_SUFFIX>  What is added to a path for its backup [default: .bak]",
    "      --legacy-offsets                 Leave the offsets of blocks as they were before the edits",
    "      --max-depth <MAX_DEPTH>          How deep to search folders for .proto files",
    "  -h, --help                           Print help",
    "  -V, --version                        Print version"]

/-- Reads a command line and carries it out; `suffix` is the backup suffix of the environment. -/
def command (suffix : Option String) (args : List String) : m Exit := do
  match Options.read suffix args with
  | .ok o => run o
  | .error .version =>
    Host.say (.report s!"protonum {version}")
    return ⟨0, none⟩
  | .error .help =>
    helpLines.forM fun line => Host.say (.report line)
    return ⟨0, none⟩
  | .error (.usage e) => return ⟨2, some ("error: " ++ e.message)⟩

end FieldTags
