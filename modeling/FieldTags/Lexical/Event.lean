import FieldTags.Lexical.Mode

/-! The structural events of a text: braces, semicolons and line ends in code, and the ends of
comments. They are all that the block structure and the statement starts depend on. -/
namespace FieldTags

inductive EventKind where
  | openBrace
  | closeBrace
  | semicolon
  | lineBreak
  | commentEnd
  deriving DecidableEq, Repr

/-- An event and the offset of its last byte. -/
structure Event where
  kind : EventKind
  offset : Nat
  deriving DecidableEq, Repr

@[inline] def EventKind.inCode? (b : UInt8) : Option EventKind :=
  if b = Ascii.leftBrace then some .openBrace
  else if b = Ascii.rightBrace then some .closeBrace
  else if b = Ascii.semicolon then some .semicolon
  else if b = Ascii.newline then some .lineBreak
  else none

/-- What the byte `b` completes in this mode. -/
@[inline] def Mode.event? (m : Mode) (b : UInt8) : Option EventKind :=
  match m with
  | .code | .slash => EventKind.inCode? b
  | .lineComment => if b = Ascii.newline then some .lineBreak else none
  | .star => if b = Ascii.slash then some .commentEnd else none
  | _ => none

/-- The events of a text that is entered in the mode `m`, its first byte standing at `position`. -/
def eventsFrom (m : Mode) (position : Nat) : Bytes → List Event
  | [] => []
  | b :: rest =>
    ((m.event? b).map (⟨·, position⟩)).toList ++ eventsFrom (m.next b) (position + 1) rest

theorem eventsFrom_append (m : Mode) (position : Nat) (s t : Bytes) :
    eventsFrom m position (s ++ t) =
      eventsFrom m position s ++ eventsFrom (m.run s) (position + s.length) t := by
  induction s generalizing m position with
  | nil => simp [eventsFrom]
  | cons b s ih => simp [eventsFrom, ih, Nat.add_assoc, Nat.add_comm 1]

/-- The events from the offset `start` on, read as code from there. -/
def eventsAt (t : Bytes) (start : Nat) : List Event := eventsFrom .code start (t.drop start)

def events (t : Bytes) : List Event := eventsAt t 0

/-- The offsets where a statement may begin: the front, and after each event, inside the text. -/
def statementStarts (t : Bytes) : List Nat :=
  0 :: ((events t).map (·.offset + 1)).filter (· < t.length)

end FieldTags
