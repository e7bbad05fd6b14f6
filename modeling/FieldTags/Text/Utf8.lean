import FieldTags.Text.Ascii

/-! UTF-8 read strictly: no overlong form, no surrogate, nothing above U+10FFFF. `front?` reads one
character, `chars?` a whole text; slices exist only between two character boundaries. -/
namespace FieldTags
namespace Utf8

def isContinuation (b : UInt8) : Bool := 0x80 ≤ b && b < 0xC0

def payload? (b : UInt8) : Option Nat :=
  if isContinuation b then some (b.toNat - 0x80) else none

/-- The character at the front of a text and the number of bytes it takes. -/
def front? : Bytes → Option (Char × Nat)
  | [] => none
  | a :: rest =>
    if a < 0x80 then some (Char.ofNat a.toNat, 1)
    else if a < 0xC2 then none
    else if a < 0xE0 then do
      let x ← rest[0]? >>= payload?
      some (Char.ofNat ((a.toNat - 0xC0) * 0x40 + x), 2)
    else if a < 0xF0 then do
      let x ← rest[0]? >>= payload?
      let y ← rest[1]? >>= payload?
      let code := ((a.toNat - 0xE0) * 0x40 + x) * 0x40 + y
      if code < 0x800 ∨ (0xD800 ≤ code ∧ code < 0xE000) then none
      else some (Char.ofNat code, 3)
    else if a < 0xF5 then do
      let x ← rest[0]? >>= payload?
      let y ← rest[1]? >>= payload?
      let z ← rest[2]? >>= payload?
      let code := (((a.toNat - 0xF0) * 0x40 + x) * 0x40 + y) * 0x40 + z
      if code < 0x10000 ∨ 0x110000 ≤ code then none
      else some (Char.ofNat code, 4)
    else none

/-- Reads on after the first `skip` bytes, which belong to a character already read. -/
def charsAfter? : Nat → Bytes → Option (List Char)
  | _, [] => some []
  | skip + 1, _ :: rest => charsAfter? skip rest
  | 0, b :: rest =>
    match front? (b :: rest) with
    | none => none
    | some (c, width) => (charsAfter? (width - 1) rest).map (c :: ·)

/-- The characters of a text, if it is valid UTF-8. -/
def chars? (t : Bytes) : Option (List Char) := charsAfter? 0 t

def isValid (t : Bytes) : Bool := (chars? t).isSome

/-- How many bytes at the front of a text could begin a character, which then is not completed. Where
none could, it is the first one. -/
def brokenWidth (t : Bytes) : Nat :=
  if 3 ≤ t.length ∧ (front? (t.take 3 ++ [0x80])).isSome then 3
  else if 2 ≤ t.length ∧ ((front? (t.take 2 ++ [0x80])).isSome ∨
    (front? (t.take 2 ++ [0x80, 0x80])).isSome) then 2
  else 1

/-- The characters of any bytes, after the first `skip` of these; U+FFFD stands for each stretch that is
no character. -/
def shownAfter : Nat → Bytes → List Char
  | _, [] => []
  | skip + 1, _ :: rest => shownAfter skip rest
  | 0, b :: rest =>
    match front? (b :: rest) with
    | none => '\ufffd' :: shownAfter (brokenWidth (b :: rest) - 1) rest
    | some (c, width) => c :: shownAfter (width - 1) rest

theorem shownAfter_of_charsAfter? {skip : Nat} {t : Bytes} {cs : List Char}
    (h : charsAfter? skip t = some cs) : shownAfter skip t = cs := by
  fun_induction shownAfter skip t generalizing cs with
  | case1 => simpa [charsAfter?] using h
  | case2 skip _ rest ih => exact ih h
  | case3 b rest hfront => simp [charsAfter?, hfront] at h
  | case4 b rest c width hfront ih =>
    simp only [charsAfter?, hfront, Option.map_eq_some_iff] at h
    obtain ⟨cs, hrest, rfl⟩ := h
    rw [ih hrest]

end Utf8

namespace Bytes

def ofString (s : String) : Bytes := s.toList.flatMap String.utf8EncodeChar

/-- The text as a string; valid UTF-8 is kept whole. -/
def toText (t : Bytes) : String := String.ofList (Utf8.shownAfter 0 t)

theorem toText_of_chars? {t : Bytes} {cs : List Char} (h : Utf8.chars? t = some cs) :
    t.toText = String.ofList cs :=
  congrArg String.ofList (Utf8.shownAfter_of_charsAfter? h)

/-- The last two bytes begin a character of three. -/
example : toText [0x2E, 0xFF, 0xE2, 0x82] = ".\ufffd\ufffd" := by decide

/-- The ends of a text and the places before its characters. -/
def isBoundary (t : Bytes) (i : Nat) : Bool :=
  i == 0 || i == t.length || (t[i]?.map (! Utf8.isContinuation ·)).getD false

def between (t : Bytes) (start stop : Nat) : Bytes := (t.take stop).drop start

/-- The text from `start` up to `stop`, if both are boundaries in that order. -/
def slice? (t : Bytes) (start stop : Nat) : Option Bytes :=
  if start ≤ stop ∧ t.isBoundary start ∧ t.isBoundary stop then some (t.between start stop)
  else none

def splice (t : Bytes) (start stop : Nat) (new : Bytes) : Bytes :=
  t.take start ++ new ++ t.drop stop

end Bytes
end FieldTags
