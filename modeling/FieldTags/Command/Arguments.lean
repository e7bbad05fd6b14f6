import FieldTags.Command.Count
import FieldTags.Text.Terminal
import FieldTags.Text.Utf8

/-! The command line: flags, options with a value, and paths. An argument that begins with a dash
is never the separate value of an option. A value is judged when the next flag, option or path
shows that it is complete. -/
namespace FieldTags

structure Options where
  paths : List Bytes
  verbosity : Nat
  dryRun : Bool
  check : Bool
  noBackup : Bool
  backupSuffix : String
  fixedOffsets : Bool
  maxDepth : Option Nat
  deriving DecidableEq, Repr

def Options.writesFiles (o : Options) : Bool := !o.dryRun && !o.check

inductive Switch where
  | dryRun
  | check
  | noBackup
  | fixedOffsets
  deriving DecidableEq, Repr

inductive Flag where
  | switch (s : Switch)
  | verbose
  | version
  | help
  deriving DecidableEq, Repr

inductive Setting where
  | backupSuffix
  | maxDepth
  deriving DecidableEq, Repr

def Switch.display : Switch → String
  | .dryRun => "--dry-run"
  | .check => "--check"
  | .noBackup => "--no-backup"
  | .fixedOffsets => "--legacy-offsets"

def Flag.display : Flag → String
  | .switch s => s.display
  | .verbose => "--verbose..."
  | .version => "--version"
  | .help => "--help"

def Setting.display : Setting → String
  | .backupSuffix => "--backup-suffix <BACKUP_SUFFIX>"
  | .maxDepth => "--max-depth <MAX_DEPTH>"

def pathsDisplay : String := "<PATH>..."

inductive UsageError where
  | missingPaths
  | unexpectedArgument (argument : String)
  | unexpectedValue (value display : String)
  | valueRequired (display : String)
  | invalidCount (value : String) (e : CountError)
  | repeated (display : String)
  deriving DecidableEq, Repr

/-- Arguments are quoted without the terminal control sequences in them. -/
def UsageError.message : UsageError → String
  | .missingPaths => "the following required arguments were not provided:"
  | .unexpectedArgument argument => s!"unexpected argument '{Terminal.shown argument}' found"
  | .unexpectedValue value display =>
    s!"unexpected value '{Terminal.shown value}' for '{display}' found; no more were expected"
  | .valueRequired display => s!"a value is required for '{display}' but none was supplied"
  | .invalidCount value e =>
    s!"invalid value '{Terminal.shown value}' for '{Setting.maxDepth.display}': {e.message}"
  | .repeated display => s!"the argument '{display}' cannot be used multiple times"

inductive Stop where
  | usage (e : UsageError)
  | version
  | help
  deriving DecidableEq, Repr

/-- What was given last and is not judged yet. -/
inductive Pending where
  | nothing
  | setting (s : Setting) (value : Option String)
  | paths (given : List String)
  deriving DecidableEq, Repr

structure Draft where
  paths : List String
  verbosity : Nat
  switches : List Switch
  backupSuffix : Option String
  maxDepth : Option Nat
  pending : Pending
  deriving DecidableEq, Repr

namespace Draft

def start : Draft := ⟨[], 0, [], none, none, .nothing⟩

def set (d : Draft) (s : Setting) (value : String) : Except Stop Draft :=
  match s with
  | .backupSuffix =>
    if d.backupSuffix.isSome then .error (.usage (.repeated s.display))
    else .ok { d with backupSuffix := some value }
  | .maxDepth =>
    if d.maxDepth.isSome then .error (.usage (.repeated s.display))
    else
      match Count.read value with
      | .ok n => .ok { d with maxDepth := some n }
      | .error e => .error (.usage (.invalidCount value e))

def settle (d : Draft) : Except Stop Draft :=
  match d.pending with
  | .nothing => .ok d
  | .setting s none => .error (.usage (.valueRequired s.display))
  | .setting s (some value) => { d with pending := .nothing }.set s value
  | .paths given =>
    if given.contains "" then .error (.usage (.valueRequired pathsDisplay))
    else .ok { d with paths := d.paths ++ given, pending := .nothing }

def raise (d : Draft) (f : Flag) : Except Stop Draft := do
  let d ← d.settle
  match f with
  | .switch s =>
    if d.switches.contains s then .error (.usage (.repeated s.display))
    else .ok { d with switches := s :: d.switches }
  | .verbose => .ok { d with verbosity := d.verbosity + 1 }
  | .version => .error .version
  | .help => .error .help

def addPath (d : Draft) (path : String) : Except Stop Draft :=
  match d.pending with
  | .paths given => .ok { d with pending := .paths (given ++ [path]) }
  | _ => do
    let d ← d.settle
    return { d with pending := .paths [path] }

def flags : List (String × Flag) :=
  [("dry-run", .switch .dryRun), ("check", .switch .check), ("no-backup", .switch .noBackup),
    ("legacy-offsets", .switch .fixedOffsets), ("verbose", .verbose), ("version", .version),
    ("help", .help)]

def letters : List (Char × Flag) := [('v', .verbose), ('V', .version), ('h', .help)]

def settings : List (String × Setting) :=
  [("backup-suffix", .backupSuffix), ("max-depth", .maxDepth)]

/-- An argument `--name` or `--name=value`. -/
def addLong (d : Draft) (name : String) (value : Option String) : Except Stop Draft :=
  match flags.lookup name, settings.lookup name, value with
  | some f, _, some value => .error (.usage (.unexpectedValue value f.display))
  | some f, _, none => d.raise f
  | none, some s, some value => do (← d.settle).set s value
  | none, some s, none => do
    let d ← d.settle
    return { d with pending := .setting s none }
  | none, none, _ => .error (.usage (.unexpectedArgument ("--" ++ name)))

def addLetters (d : Draft) : List Char → Except Stop Draft
  | [] => .ok d
  | c :: cs =>
    match letters.lookup c with
    | some f => do (← d.raise f).addLetters cs
    | none => .error (.usage (.unexpectedArgument ("-" ++ c.toString)))

/-- An argument that is neither a flag nor an option: a value that is waited for, or a path. -/
def addPlain (d : Draft) (a : String) : Except Stop Draft :=
  match d.pending with
  | .setting s none => .ok { d with pending := .setting s (some a) }
  | _ => d.addPath a

def add (d : Draft) (a : String) : Except Stop Draft :=
  match a.toList with
  | '-' :: '-' :: cs =>
    let name := cs.takeWhile (· ≠ '=')
    let value := (cs.drop name.length).tail
    d.addLong (String.ofList name)
      (if name.length < cs.length then some (String.ofList value) else none)
  | '-' :: c :: cs => d.addLetters (c :: cs)
  | _ => d.addPlain a

def addPaths (d : Draft) : List String → Except Stop Draft
  | [] => d.settle
  | a :: as => do (← d.addPath a).addPaths as

/-- Reads all arguments; after `--` they are paths. -/
def addAll (d : Draft) : List String → Except Stop Draft
  | [] => d.settle
  | a :: as => if a = "--" then d.addPaths as else do (← d.add a).addAll as

end Draft

def defaultSuffix : String := ".bak"

/-- Reads a command line; `suffix` is the suffix that the environment gives. -/
def Options.read (suffix : Option String) (args : List String) : Except Stop Options := do
  let d ← Draft.start.addAll args
  if d.paths = [] then .error (.usage .missingPaths)
  else
    return {
      paths := d.paths.map Bytes.ofString
      verbosity := d.verbosity
      dryRun := d.switches.contains .dryRun
      check := d.switches.contains .check
      noBackup := d.switches.contains .noBackup
      backupSuffix := d.backupSuffix.getD (suffix.getD defaultSuffix)
      fixedOffsets := d.switches.contains .fixedOffsets
      maxDepth := d.maxDepth }

end FieldTags
