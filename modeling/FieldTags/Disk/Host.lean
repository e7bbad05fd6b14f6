import FieldTags.Disk.FileTree
import FieldTags.Log

/-! What a command needs from where it runs: files to read and write, and a place for its output.
`InMemory` runs it on a file tree held as a value. -/
namespace FieldTags

inductive Line where
  | report (text : String)
  | note (n : Note)
  deriving DecidableEq, Repr

def Line.render : Line → String
  | .report text => text
  | .note n => n.render

class Host (m : Type → Type) where
  read : Bytes → m (Except DiskError Bytes)
  write : Bytes → Bytes → m (Except DiskError Unit)
  isPresent : Bytes → m Bool
  /-- What is found below a folder; none if the path does not lead to a folder. -/
  folder? : Bytes → m (Option (Dir Unit))
  say : Line → m Unit

structure Session where
  tree : FileTree
  said : List Line

abbrev InMemory := StateM Session

namespace InMemory
variable {α β : Type}

instance : Host InMemory where
  read path := fun s => (s.tree.read path, s)
  write path content := fun s =>
    match s.tree.write path content with
    | .ok tree => (.ok (), ⟨tree, s.said⟩)
    | .error e => (.error e, s)
  isPresent path := fun s => (s.tree.isPresent path, s)
  folder? path := fun s => ((s.tree.folder? path).map (·.survey path), s)
  say line := fun s => ((), ⟨s.tree, line :: s.said⟩)

theorem run_pure (a : α) (s : Session) : (pure a : InMemory α).run s = (a, s) := rfl

theorem run_bind (x : InMemory α) (f : α → InMemory β) (s : Session) :
    (x >>= f).run s = (f (x.run s).1).run (x.run s).2 := rfl

theorem run_read (path : Bytes) (s : Session) :
    (Host.read path : InMemory _).run s = (s.tree.read path, s) := rfl

theorem run_write (path : Bytes) (content : Bytes) (s : Session) :
    (Host.write path content : InMemory _).run s =
      match s.tree.write path content with
      | .ok tree => (.ok (), ⟨tree, s.said⟩)
      | .error e => (.error e, s) := rfl

theorem run_isPresent (path : Bytes) (s : Session) :
    (Host.isPresent path : InMemory _).run s = (s.tree.isPresent path, s) := rfl

theorem run_folder? (path : Bytes) (s : Session) :
    (Host.folder? path : InMemory _).run s =
      ((s.tree.folder? path).map (·.survey path), s) := rfl

theorem run_say (line : Line) (s : Session) :
    (Host.say line : InMemory _).run s = ((), ⟨s.tree, line :: s.said⟩) := rfl

end InMemory
end FieldTags
