import FieldTags.Field.Body
import FieldTags.Proofs.Lexical.Atoms
import FieldTags.Proofs.Text.Substitution

/-! Schemas by their parts. Each form carries what makes it well formed, so that every value has a
text, and `number` gives the schema that a renumbering is to leave. -/
namespace FieldTags
namespace Schema

def isSpace (b : UInt8) : Bool := b == Ascii.space || (0x09 ≤ b && b ≤ 0x0D)

def isDotted (b : UInt8) : Bool := Ascii.isNameByte b || b == 0x2E

/-- The bytes of numbers, with signs and fractions, and of names used as values. -/
def isScalarByte (b : UInt8) : Bool := isDotted b || b == 0x2B || b == 0x2D

def isBrace (b : UInt8) : Bool := b == Ascii.leftBrace || b == Ascii.rightBrace

/-- The bytes that open a literal or, doubled or before an asterisk, a comment. -/
def isOpening (b : UInt8) : Bool :=
  b == Ascii.slash || b == Ascii.doubleQuote || b == Ascii.singleQuote

def isStatementByte (b : UInt8) : Bool := !isBrace b && !isOpening b && b != Ascii.semicolon

/-- The bytes of ranges and names: nothing is given a value there. -/
def isReservedByte (b : UInt8) : Bool :=
  isStatementByte b && b != Ascii.equals && b != Ascii.less

def isGroupByte (b : UInt8) : Bool :=
  !isBrace b && !isOpening b && b != Ascii.leftBracket && b != Ascii.rightBracket &&
    b != Ascii.newline

structure Run (p : UInt8 → Bool) where
  bytes : Bytes
  all : ∀ b ∈ bytes, p b = true

structure Word (p : UInt8 → Bool) extends Run p where
  nonempty : bytes ≠ []

/-- What may stand between the parts of a field. -/
abbrev Gap := Run Ascii.isGap

abbrev Blanks := Run isSpace

structure CharRun (p : Char → Bool) where
  bytes : Bytes
  chars : List Char
  reads : Utf8.chars? bytes = some chars
  all : ∀ c ∈ chars, p c = true

structure CharWord (p : Char → Bool) extends CharRun p where
  nonempty : bytes ≠ []

structure Name where
  first : UInt8
  rest : Run Ascii.isNameByte
  isNameStart : Ascii.isNameStart first = true

def Name.bytes (n : Name) : Bytes := n.first :: n.rest.bytes

/-- A field's name goes on with any word characters. -/
structure FieldName where
  first : UInt8
  rest : CharRun isWord
  isNameStart : Ascii.isNameStart first = true

def FieldName.bytes (n : FieldName) : Bytes := n.first :: n.rest.bytes

/-- One byte of a phrase, or a whole literal. -/
inductive PhraseUnit (p : UInt8 → Bool) where
  | byte (b : UInt8) (h : p b = true)
  | literal (l : Literal)

def PhraseUnit.atom {p : UInt8 → Bool} : PhraseUnit p → Atom
  | byte b _ => .byte b
  | literal l => .literal l

structure Phrase (p : UInt8 → Bool) where
  units : List (PhraseUnit p)

def Phrase.atoms {p : UInt8 → Bool} (ph : Phrase p) : Atoms := ph.units.map PhraseUnit.atom

def Phrase.bytes {p : UInt8 → Bool} (ph : Phrase p) : Bytes := ph.atoms.text

inductive Label where
  | optional
  | required
  | repeated

def Label.bytes : Label → Bytes
  | optional => Ascii.word "optional"
  | required => Ascii.word "required"
  | repeated => Ascii.word "repeated"

inductive FieldType where
  | word (w : Word isDotted) (h : w.bytes ≠ Field.optionKeyword)
  | map (beforeLess beforeKey : Gap) (key : Word isDotted) (afterKey beforeValue : Gap)
      (value : Word isDotted) (afterValue : Gap)

def FieldType.bytes : FieldType → Bytes
  | word w _ => w.bytes
  | map beforeLess beforeKey key afterKey beforeValue value afterValue =>
    Declaration.mapKeyword ++ beforeLess.bytes ++ [Ascii.less] ++
      (beforeKey.bytes ++ key.bytes ++ afterKey.bytes ++ [0x2C] ++ beforeValue.bytes ++
        value.bytes ++ afterValue.bytes) ++ [Ascii.greater]

/-- `[label] type name = digits [options];` on one line. -/
structure FieldLine where
  label : Option (Label × Word Ascii.isGap)
  type : FieldType
  beforeName : Word Ascii.isGap
  name : FieldName
  beforeEquals : Gap
  afterEquals : Gap
  tag : Numeral
  afterTag : Gap
  options : Option (Phrase isGroupByte × Gap)

namespace FieldLine

def labelBytes (f : FieldLine) : Bytes :=
  match f.label with
  | none => []
  | some (label, gap) => label.bytes ++ gap.bytes

def optionsBytes (f : FieldLine) : Bytes :=
  match f.options with
  | none => []
  | some (group, gap) => [Ascii.leftBracket] ++ group.bytes ++ [Ascii.rightBracket] ++ gap.bytes

def lead (f : FieldLine) : Bytes :=
  f.labelBytes ++ f.type.bytes ++ f.beforeName.bytes ++ f.name.bytes ++ f.beforeEquals.bytes ++
    [Ascii.equals] ++ f.afterEquals.bytes

def trail (f : FieldLine) : Bytes := f.afterTag.bytes ++ f.optionsBytes ++ [Ascii.semicolon]

def text (f : FieldLine) : Bytes := f.lead ++ f.tag.digits ++ f.trail

def number (n : Nat) (f : FieldLine) : FieldLine :=
  { f with
    tag := ⟨Ascii.decimal n, (Ascii.isNumber_decimal n).1, (Ascii.isNumber_decimal n).2⟩ }

end FieldLine

/-- The head of a block after its keyword. Any blank characters may stand around the name. -/
structure Opener where
  beforeName : CharWord isBlank
  name : Name
  afterName : CharRun isBlank

def Opener.text (keyword : Bytes) (o : Opener) : Bytes :=
  keyword ++ o.beforeName.bytes ++ o.name.bytes ++ o.afterName.bytes ++ [Ascii.leftBrace]

/-- `IDENT = int;` -/
structure EnumValue where
  name : Name
  beforeEquals : Blanks
  afterEquals : Blanks
  value : Word isScalarByte
  afterValue : Blanks

def EnumValue.text (v : EnumValue) : Bytes :=
  v.name.bytes ++ v.beforeEquals.bytes ++ [Ascii.equals] ++ v.afterEquals.bytes ++
    v.value.bytes ++ v.afterValue.bytes ++ [Ascii.semicolon]

inductive OptionValue where
  | scalar (w : Word isScalarByte)
  | literal (l : Literal)

def OptionValue.atoms : OptionValue → Atoms
  | scalar w => Atoms.ofBytes w.bytes
  | literal l => [.literal l]

/-- `option ident = literal;` -/
structure OptionLine where
  beforeName : Word isSpace
  name : Word isDotted
  beforeEquals : Blanks
  afterEquals : Blanks
  value : OptionValue
  afterValue : Blanks

def OptionLine.text (o : OptionLine) : Bytes :=
  Field.optionKeyword ++ o.beforeName.bytes ++ o.name.bytes ++ o.beforeEquals.bytes ++
    [Ascii.equals] ++ o.afterEquals.bytes ++ o.value.atoms.text ++ o.afterValue.bytes ++
    [Ascii.semicolon]

/-- `reserved ...;` -/
structure ReservedLine where
  ranges : Phrase isReservedByte

def ReservedLine.text (r : ReservedLine) : Bytes :=
  Ascii.word "reserved" ++ r.ranges.bytes ++ [Ascii.semicolon]

def topKeywords : List Bytes :=
  [Ascii.word "syntax", Ascii.word "package", Ascii.word "import", Ascii.word "option"]

structure TopStatement where
  keyword : Bytes
  isKeyword : keyword ∈ topKeywords
  rest : Phrase isStatementByte

def TopStatement.text (s : TopStatement) : Bytes :=
  s.keyword ++ s.rest.bytes ++ [Ascii.semicolon]

/-- What ends a line of a layout, or a part of one. -/
inductive Break where
  | newline
  | comment (c : Comment)

def Break.atom : Break → Atom
  | newline => .byte Ascii.newline
  | comment c => .comment c

/-- What stands between two items: gaps, line ends and comments in any order. -/
structure Layout where
  lines : List (Gap × Break)
  indent : Gap

def Layout.text (l : Layout) : Bytes :=
  (l.lines.flatMap fun (gap, stop) => gap.bytes ++ stop.atom.text) ++ l.indent.bytes

abbrev Items (α : Type) := List (Layout × α)

def Items.text {α : Type} (f : α → Bytes) (items : Items α) : Bytes :=
  items.flatMap fun (layout, item) => layout.text ++ f item

structure FlatBlock (α : Type) where
  opener : Opener
  items : Items α
  last : Layout

def FlatBlock.text {α : Type} (keyword : Bytes) (f : α → Bytes) (b : FlatBlock α) : Bytes :=
  b.opener.text keyword ++ Items.text f b.items ++ b.last.text ++ [Ascii.rightBrace]

def enumKeyword : Bytes := Ascii.word "enum"

def oneofKeyword : Bytes := Ascii.word "oneof"

/-- The items between the braces of a message. -/
inductive Body where
  | done (last : Layout)
  | field (l : Layout) (f : FieldLine) (rest : Body)
  | oneof (l : Layout) (b : FlatBlock FieldLine) (rest : Body)
  | enum (l : Layout) (b : FlatBlock EnumValue) (rest : Body)
  | option (l : Layout) (o : OptionLine) (rest : Body)
  | reserved (l : Layout) (r : ReservedLine) (rest : Body)
  | message (l : Layout) (o : Opener) (inner rest : Body)

/-- A whole schema. A line comment may end it without a line end. -/
inductive Document where
  | done (last : Layout)
  | comment (last : Layout) (content : Bytes) (h : Ascii.newline ∉ content)
  | statement (l : Layout) (s : TopStatement) (rest : Document)
  | enum (l : Layout) (b : FlatBlock EnumValue) (rest : Document)
  | message (l : Layout) (o : Opener) (inner : Body) (rest : Document)

/-- Gives the fields of a list the tags from `k` on. -/
def numberItems : Nat → Items FieldLine → Items FieldLine
  | _, [] => []
  | k, (l, f) :: items => (l, f.number k) :: numberItems (k + 1) items

namespace Body

def text : Body → Bytes
  | done last => last.text
  | field l f rest => l.text ++ f.text ++ rest.text
  | oneof l b rest => l.text ++ b.text oneofKeyword FieldLine.text ++ rest.text
  | enum l b rest => l.text ++ b.text enumKeyword EnumValue.text ++ rest.text
  | option l o rest => l.text ++ o.text ++ rest.text
  | reserved l r rest => l.text ++ r.text ++ rest.text
  | message l o inner rest =>
    l.text ++ o.text Head.keyword ++ inner.text ++ [Ascii.rightBrace] ++ rest.text

/-- Gives the direct fields, those of a oneof among them, the tags from `k` on, and the direct
fields of each message inside the tags from 1 on. -/
def number : Nat → Body → Body
  | _, done last => done last
  | k, field l f rest => field l (f.number k) (number (k + 1) rest)
  | k, oneof l b rest =>
    oneof l { b with items := numberItems k b.items } (number (k + b.items.length) rest)
  | k, enum l b rest => enum l b (number k rest)
  | k, option l o rest => option l o (number k rest)
  | k, reserved l r rest => reserved l r (number k rest)
  | k, message l o inner rest => message l o (number 1 inner) (number k rest)

def messages : Body → Nat
  | done _ => 0
  | message _ _ inner rest => 1 + inner.messages + rest.messages
  | field _ _ rest | oneof _ _ rest | enum _ _ rest | option _ _ rest | reserved _ _ rest =>
    rest.messages

/-- The number of fields, those of the messages inside among them. -/
def fields : Body → Nat
  | done _ => 0
  | field _ _ rest => 1 + rest.fields
  | oneof _ b rest => b.items.length + rest.fields
  | message _ _ inner rest => inner.fields + rest.fields
  | enum _ _ rest | option _ _ rest | reserved _ _ rest => rest.fields

end Body

namespace Document

def text : Document → Bytes
  | done last => last.text
  | comment last content _ => last.text ++ [Ascii.slash, Ascii.slash] ++ content
  | statement l s rest => l.text ++ s.text ++ rest.text
  | enum l b rest => l.text ++ b.text enumKeyword EnumValue.text ++ rest.text
  | message l o inner rest =>
    l.text ++ o.text Head.keyword ++ inner.text ++ [Ascii.rightBrace] ++ rest.text

/-- Numbers the direct fields of every message from 1 on. -/
def number : Document → Document
  | done last => done last
  | comment last content h => comment last content h
  | statement l s rest => statement l s (number rest)
  | enum l b rest => enum l b (number rest)
  | message l o inner rest => message l o (inner.number 1) (number rest)

def messages : Document → Nat
  | done _ | comment _ _ _ => 0
  | message _ _ inner rest => 1 + inner.messages + rest.messages
  | statement _ _ rest | enum _ _ rest => rest.messages

def fields : Document → Nat
  | done _ | comment _ _ _ => 0
  | message _ _ inner rest => inner.fields + rest.fields
  | statement _ _ rest | enum _ _ rest => rest.fields

end Document

end Schema
end FieldTags
