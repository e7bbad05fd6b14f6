/-! The ASCII bytes that the schema syntax is written in, and the byte classes of names, numbers
and gaps. -/
namespace FieldTags

/-- Text as its UTF-8 bytes. Every offset and length of the library counts these. -/
abbrev Bytes := List UInt8

namespace Ascii

@[inline] def tab : UInt8 := 0x09
@[inline] def newline : UInt8 := 0x0A
@[inline] def space : UInt8 := 0x20
@[inline] def doubleQuote : UInt8 := 0x22
@[inline] def singleQuote : UInt8 := 0x27
@[inline] def asterisk : UInt8 := 0x2A
@[inline] def dot : UInt8 := 0x2E
@[inline] def slash : UInt8 := 0x2F
@[inline] def semicolon : UInt8 := 0x3B
@[inline] def less : UInt8 := 0x3C
@[inline] def equals : UInt8 := 0x3D
@[inline] def greater : UInt8 := 0x3E
@[inline] def leftBracket : UInt8 := 0x5B
@[inline] def backslash : UInt8 := 0x5C
@[inline] def rightBracket : UInt8 := 0x5D
@[inline] def leftBrace : UInt8 := 0x7B
@[inline] def rightBrace : UInt8 := 0x7D
@[inline] def tilde : UInt8 := 0x7E

def isDigit (b : UInt8) : Bool := 0x30 ≤ b && b ≤ 0x39

def isNameStart (b : UInt8) : Bool :=
  (0x41 ≤ b && b ≤ 0x5A) || (0x61 ≤ b && b ≤ 0x7A) || b == 0x5F

def isNameByte (b : UInt8) : Bool := isNameStart b || isDigit b

/-- A byte of the gaps inside a declaration, which stay on one line. -/
def isGap (b : UInt8) : Bool := b == space || b == tab

def toLower (b : UInt8) : UInt8 := if 0x41 ≤ b && b ≤ 0x5A then b + 0x20 else b

def word (s : String) : Bytes := s.toList.map Char.toUInt8

/-- The value of a run of digits. -/
def value (digits : Bytes) : Nat := digits.foldl (fun n d => 10 * n + (d.toNat - 0x30)) 0

/-- The decimal digits of a number, without leading zeros. -/
def decimal (n : Nat) : Bytes := (Nat.toDigits 10 n).map Char.toUInt8

end Ascii
end FieldTags
