import FieldTags.Text.Control

/-! Notes for the log and their levels. Pure code returns its notes; only a command shows them. -/
namespace FieldTags

inductive Level where
  | error
  | warn
  | info
  | debug
  | trace
  deriving DecidableEq, Repr

def Level.name : Level → String
  | .error => "ERROR"
  | .warn => "WARN"
  | .info => "INFO"
  | .debug => "DEBUG"
  | .trace => "TRACE"

/-- Levels rise with the detail they show. -/
def Level.detail : Level → Nat
  | .error => 0
  | .warn => 1
  | .info => 2
  | .debug => 3
  | .trace => 4

structure Note where
  level : Level
  text : String
  deriving DecidableEq, Repr

/-- A note as the log shows it, with the control characters of its text made visible. -/
def Note.render (n : Note) : String := n.level.name ++ " " ++ Control.reveal n.text

end FieldTags
