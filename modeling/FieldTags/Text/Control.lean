/-! Control characters that a terminal acts on, made visible. Tabs and line ends stay as they are. -/
namespace FieldTags
namespace Control

def bell : Char := '\x07'
def backspace : Char := '\x08'
def formFeed : Char := '\x0c'
def cancel : Char := '\x18'
def substitute : Char := '\x1a'
def escape : Char := '\x1b'
def delete : Char := '\x7f'

/-- The ASCII characters that can move a cursor, ring, or begin a sequence. -/
def isActive (c : Char) : Bool := [bell, backspace, formFeed, escape, delete].contains c

/-- The control characters above ASCII, from U+0080 to U+009F. -/
def isUpper (c : Char) : Bool := '\u0080' ≤ c && c ≤ '\u009f'

def hexDigits (c : Char) : List Char := [Nat.digitChar (c.toNat / 16), Nat.digitChar (c.toNat % 16)]

/-- Names a control character by its number, and leaves any other character. -/
def visible (c : Char) : List Char :=
  if isActive c then ['\\', 'x'] ++ hexDigits c
  else if isUpper c then ['\\', 'u', '{'] ++ hexDigits c ++ ['}']
  else [c]

def reveal (text : String) : String := String.ofList (text.toList.flatMap visible)

end Control
end FieldTags
