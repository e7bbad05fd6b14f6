import FieldTags.Text.Control

/-! What a text shows where terminal control sequences are taken out of it. A sequence begins with
the escape character, which also breaks off the sequence before it. -/
namespace FieldTags
namespace Terminal
open Control

/-- The part of a control sequence that is being read: what follows the escape character, the choice
of a character set, the parameters of a control function, a system command, the three parts of a
device control before its data, or the data of a string. -/
inductive Sequence where
  | introducer
  | designation
  | parameters
  | systemCommand
  | deviceEntry
  | deviceParameters
  | deviceIntermediates
  | string
  deriving DecidableEq, Repr

def isIntermediate (c : Char) : Bool := ' ' ≤ c && c ≤ '/'

def isParameter (c : Char) : Bool := '0' ≤ c && c ≤ '?'

def isFinal (c : Char) : Bool := '@' ≤ c && c ≤ '~'

/-- Control characters that only lay out text. -/
def isLayout (c : Char) : Bool := ['\t', '\n', formFeed, '\r'].contains c

/-- Characters that a text shows outside all sequences. -/
def isShown (c : Char) : Bool := isLayout c || (' ' ≤ c && c ≠ delete)

/-- A string ends with the byte 0x9C, also where that byte is one of several of a character. -/
def endsString (c : Char) : Bool := (String.utf8EncodeChar c).contains 0x9C

namespace Sequence

/-- What the character after the escape character begins, if it is more than that pair. -/
def opened (c : Char) : Option Sequence :=
  if c = '[' then some parameters
  else if c = ']' then some systemCommand
  else if c = 'P' then some deviceEntry
  else if c = 'X' ∨ c = '^' ∨ c = '_' then some string
  else none

/-- How a sequence goes on with a character; `none` where it ends. A character without a meaning
for the sequence is passed over. -/
def next (s : Sequence) (c : Char) : Option Sequence :=
  if c = escape then some introducer
  else if c = cancel ∨ c = substitute then none
  else
    match s with
    | introducer =>
      if isIntermediate c then some designation
      else if isParameter c || isFinal c then opened c
      else some s
    | designation => if isParameter c || isFinal c then none else some s
    | parameters => if isFinal c then none else some s
    | systemCommand => if c = bell then none else some s
    | deviceEntry =>
      if isIntermediate c then some deviceIntermediates
      else if isParameter c then some deviceParameters
      else if isFinal c then some string
      else some s
    | deviceParameters =>
      if isIntermediate c then some deviceIntermediates
      else if '<' ≤ c && c ≤ '~' then some string
      else some s
    | deviceIntermediates => if isParameter c || isFinal c then some string else some s
    | string => if endsString c then none else some s

/-- Whether layout within the sequence is shown; in the others it is data. -/
def showsLayout : Sequence → Bool
  | introducer | designation | parameters => true
  | _ => false

end Sequence

/-- Where a text is being read. Layout that is shown pauses its sequence: the ASCII characters after
it are shown too, and the next control character resumes the sequence. -/
inductive State where
  | text
  | within (s : Sequence)
  | paused (s : Sequence)
  deriving DecidableEq, Repr

namespace State

def ofSequence : Option Sequence → State
  | none => text
  | some s => within s

def shows : State → Char → Bool
  | within s, c => isLayout c && s.showsLayout
  | _, c => isShown c

def next : State → Char → State
  | text, c => if c = escape then within .introducer else text
  | within s, c => if isLayout c && s.showsLayout then paused s else ofSequence (s.next c)
  | paused s, c =>
    if isShown c then if c ≤ delete then paused s else text
    else ofSequence (s.next c)

end State

/-- The shown part of a text that is read from a state on. -/
def shownFrom : State → List Char → List Char
  | _, [] => []
  | s, c :: cs => if s.shows c then c :: shownFrom (s.next c) cs else shownFrom (s.next c) cs

def shown (text : String) : String := String.ofList (shownFrom .text text.toList)

end Terminal
end FieldTags
