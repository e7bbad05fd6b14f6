import FieldTags.Text.Ascii

/-! The lexical mode before each byte of a text: code, a comment or a string. A mode depends on
the bytes before it alone, so a run over a text is a fold. -/
namespace FieldTags

inductive Quote where
  | double
  | single
  deriving DecidableEq, Repr

def Quote.byte : Quote → UInt8
  | .double => Ascii.doubleQuote
  | .single => Ascii.singleQuote

/-- `slash` is code just after a `/` that may open a comment, `star` a block comment just after a
`*` that may close it, and `escaped` a string just after its backslash. -/
inductive Mode where
  | code
  | slash
  | lineComment
  | blockComment
  | star
  | quoted (q : Quote)
  | escaped (q : Quote)
  deriving DecidableEq, Repr

namespace Mode

@[inline] def nextInCode (b : UInt8) : Mode :=
  if b = Ascii.slash then .slash
  else if b = Ascii.doubleQuote then .quoted .double
  else if b = Ascii.singleQuote then .quoted .single
  else .code

@[inline] def next (m : Mode) (b : UInt8) : Mode :=
  match m with
  | .code => nextInCode b
  | .slash =>
    if b = Ascii.slash then .lineComment
    else if b = Ascii.asterisk then .blockComment
    else nextInCode b
  | .lineComment => if b = Ascii.newline then .code else .lineComment
  | .blockComment => if b = Ascii.asterisk then .star else .blockComment
  | .star =>
    if b = Ascii.slash then .code
    else if b = Ascii.asterisk then .star
    else .blockComment
  | .quoted q =>
    if b = Ascii.backslash then .escaped q
    else if b = q.byte then .code
    else .quoted q
  | .escaped q => .quoted q

def isCode : Mode → Bool
  | .code | .slash => true
  | _ => false

def run (m : Mode) (t : Bytes) : Mode := t.foldl next m

@[simp] theorem run_nil (m : Mode) : run m [] = m := rfl

@[simp] theorem run_cons (m : Mode) (b : UInt8) (t : Bytes) :
    run m (b :: t) = run (m.next b) t := rfl

theorem run_append (m : Mode) (s t : Bytes) : run m (s ++ t) = run (run m s) t := by
  simp [run]

end Mode

/-- What a scan is in the middle of, whether or not a pair of bytes has begun there. -/
inductive Region where
  | code
  | lineComment
  | blockComment
  | quoted (q : Quote)
  deriving DecidableEq, Repr

def Mode.region : Mode → Region
  | .code | .slash => .code
  | .lineComment => .lineComment
  | .blockComment | .star => .blockComment
  | .quoted q | .escaped q => .quoted q

theorem Mode.region_eq_code_iff {m : Mode} : m.region = .code ↔ m = .code ∨ m = .slash := by
  cases m <;> simp [region]

/-- The region that the end of a text lies in, read as code from the offset `start` on. -/
def endRegion (t : Bytes) (start : Nat) : Region := (Mode.run .code (t.drop start)).region

end FieldTags
