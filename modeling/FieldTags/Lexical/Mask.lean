import FieldTags.Lexical.Mode

/-! Which bytes of a text are code. A comment's and a string's own delimiters are not. -/
namespace FieldTags

/-- Whether the byte `b` is code in this mode; a `/` is not if the byte after it opens a comment. -/
def Mode.shows (m : Mode) (b : UInt8) (following : Option UInt8) : Bool :=
  match m with
  | .code =>
    if b = Ascii.slash then following != some Ascii.slash && following != some Ascii.asterisk
    else b != Ascii.doubleQuote && b != Ascii.singleQuote
  | .slash =>
    b != Ascii.slash && b != Ascii.asterisk && b != Ascii.doubleQuote && b != Ascii.singleQuote
  | _ => false

def codeMaskFrom (m : Mode) : Bytes → List Bool
  | [] => []
  | b :: rest => m.shows b rest.head? :: codeMaskFrom (m.next b) rest

def codeMask (t : Bytes) : List Bool := codeMaskFrom .code t

@[simp] theorem length_codeMaskFrom (m : Mode) (t : Bytes) :
    (codeMaskFrom m t).length = t.length := by
  induction t generalizing m with
  | nil => rfl
  | cons b t ih => simp [codeMaskFrom, ih]

@[simp] theorem length_codeMask (t : Bytes) : (codeMask t).length = t.length :=
  length_codeMaskFrom .code t

end FieldTags
