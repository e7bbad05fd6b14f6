/-! Brace blocks by the offsets of their two braces. -/
namespace FieldTags

structure Block where
  lbrace : Nat
  rbrace : Nat
  deriving DecidableEq, Repr

namespace Block

def bodyStart (b : Block) : Nat := b.lbrace + 1

/-- Both braces of `other` lie strictly between the braces of `b`. -/
def contains (b other : Block) : Bool := b.lbrace < other.lbrace && other.rbrace < b.rbrace

def containsOffset (b : Block) (i : Nat) : Bool := b.lbrace < i && i < b.rbrace

def shift (k : Nat) (b : Block) : Block := ⟨k + b.lbrace, k + b.rbrace⟩

end Block
end FieldTags
