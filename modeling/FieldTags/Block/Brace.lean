import FieldTags.Lexical.Event

/-! The closing brace of an opening brace, found by counting the depth of code braces. -/
namespace FieldTags

inductive BraceError where
  | notAnOpenBrace (offset : Nat)
  | unmatched (offset : Nat)
  deriving DecidableEq, Repr

def BraceError.message : BraceError → String
  | .notAnOpenBrace offset => s!"expected '\x7b' at offset {offset}"
  | .unmatched offset => s!"unmatched '\x7b' at offset {offset}"

/-- The offset of the brace that brings `depth` open blocks down to none. -/
def closing? (depth : Nat) : List Event → Option Nat
  | [] => none
  | e :: es =>
    match e.kind with
    | .openBrace => closing? (depth + 1) es
    | .closeBrace => if depth ≤ 1 then some e.offset else closing? (depth - 1) es
    | _ => closing? depth es

/-- The same offset in a text entered in the mode `m`; it reads no further than that brace. -/
def closingFrom? (m : Mode) (depth position : Nat) : Bytes → Option Nat
  | [] => none
  | b :: rest =>
    match m.event? b with
    | some .openBrace => closingFrom? (m.next b) (depth + 1) (position + 1) rest
    | some .closeBrace =>
      if depth ≤ 1 then some position
      else closingFrom? (m.next b) (depth - 1) (position + 1) rest
    | _ => closingFrom? (m.next b) depth (position + 1) rest

theorem closingFrom?_eq (m : Mode) (depth position : Nat) (t : Bytes) :
    closingFrom? m depth position t = closing? depth (eventsFrom m position t) := by
  induction t generalizing m depth position with
  | nil => rfl
  | cons b t ih =>
    cases h : m.event? b with
    | none => simp [closingFrom?, eventsFrom, h, ih]
    | some k => cases k <;> simp [closingFrom?, eventsFrom, closing?, h, ih]

/-- The closing brace of the opening brace at `start`, the text being read as code from there. -/
def matchBrace (t : Bytes) (start : Nat) : Except BraceError Nat :=
  if t[start]? = some Ascii.leftBrace then
    match closingFrom? .code 0 start (t.drop start) with
    | some stop => .ok stop
    | none => .error (.unmatched start)
  else .error (.notAnOpenBrace start)

theorem matchBrace_of_leftBrace {t : Bytes} {start : Nat} (h : t[start]? = some Ascii.leftBrace) :
    matchBrace t start =
      match closing? 0 (eventsAt t start) with
      | some stop => .ok stop
      | none => .error (.unmatched start) := by
  simp [matchBrace, h, closingFrom?_eq, eventsAt]

end FieldTags
