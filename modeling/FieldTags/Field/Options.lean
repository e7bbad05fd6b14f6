import FieldTags.Lexical.Mode

/-! The bracketed option group at the end of a declaration. It stays on one line, and a bracket
inside one of its string literals does not end it. -/
namespace FieldTags

/-- Where a scan of an option group stands: between literals, in one, or after its backslash. -/
inductive GroupMode where
  | plain
  | quoted (q : Quote)
  | escaped (q : Quote)
  deriving DecidableEq, Repr

namespace GroupMode

/-- The mode after a byte that neither ends the group nor the line. -/
def next (m : GroupMode) (b : UInt8) : GroupMode :=
  match m with
  | .plain =>
    if b = Ascii.doubleQuote then .quoted .double
    else if b = Ascii.singleQuote then .quoted .single
    else .plain
  | .quoted q =>
    if b = Ascii.backslash then .escaped q
    else if b = q.byte then .plain
    else .quoted q
  | .escaped q => .quoted q

/-- The length of the rest of a group, its bracket included. -/
def restLength? (m : GroupMode) : Bytes → Option Nat
  | [] => none
  | b :: rest =>
    if b = Ascii.newline then none
    else if m = .plain ∧ b = Ascii.rightBracket then some 1
    else (restLength? (m.next b) rest).map (1 + ·)

end GroupMode

/-- The length of the option group at the front of a text; a text without one has length 0. -/
def optionsLength? : Bytes → Option Nat
  | [] => some 0
  | b :: rest =>
    if b = Ascii.leftBracket then (GroupMode.restLength? .plain rest).map (1 + ·) else some 0

end FieldTags
