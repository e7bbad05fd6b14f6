import FieldTags.Text.Ascii

/-! The BLAKE3 digest of a text. The text is cut into chunks of 1024 bytes, each chunk into blocks
of 64; the chunks are the leaves of a tree whose nodes are joined in pairs, level by level. -/
namespace FieldTags
namespace Blake3

def iv : Vector UInt32 8 :=
  #v[0x6A09E667, 0xBB67AE85, 0x3C6EF372, 0xA54FF53A, 0x510E527F, 0x9B05688C, 0x1F83D9AB, 0x5BE0CD19]

/-- Where each message word of a round stood in the round before. -/
def schedule : Vector (Fin 16) 16 := #v[2, 6, 3, 10, 7, 0, 4, 13, 1, 11, 12, 5, 9, 14, 15, 8]

def chunkStart : UInt32 := 1
def chunkEnd : UInt32 := 2
def parent : UInt32 := 4
def root : UInt32 := 8

abbrev State := Vector UInt32 16

def rotateRight (x n : UInt32) : UInt32 := (x >>> n) ||| (x <<< (32 - n))

def quarter (v : State) (a b c d : Fin 16) (x y : UInt32) : State :=
  let v := v.set a (v[a] + v[b] + x)
  let v := v.set d (rotateRight (v[d] ^^^ v[a]) 16)
  let v := v.set c (v[c] + v[d])
  let v := v.set b (rotateRight (v[b] ^^^ v[c]) 12)
  let v := v.set a (v[a] + v[b] + y)
  let v := v.set d (rotateRight (v[d] ^^^ v[a]) 8)
  let v := v.set c (v[c] + v[d])
  v.set b (rotateRight (v[b] ^^^ v[c]) 7)

/-- One round: the four columns, then the four diagonals. -/
def round (v m : State) : State :=
  let v := quarter v 0 4 8 12 m[0] m[1]
  let v := quarter v 1 5 9 13 m[2] m[3]
  let v := quarter v 2 6 10 14 m[4] m[5]
  let v := quarter v 3 7 11 15 m[6] m[7]
  let v := quarter v 0 5 10 15 m[8] m[9]
  let v := quarter v 1 6 11 12 m[10] m[11]
  let v := quarter v 2 7 8 13 m[12] m[13]
  quarter v 3 4 9 14 m[14] m[15]

def permute (m : State) : State := schedule.map fun i => m[i]

def rounds : Nat → State → State → State
  | 0, v, _ => v
  | n + 1, v, m => rounds n (round v m) (permute m)

/-- A call of the compression function that is still to be made. -/
structure Node where
  chaining : Vector UInt32 8
  block : State
  counter : Nat
  length : Nat
  flags : UInt32

def Node.compress (n : Node) (more : UInt32) : Vector UInt32 8 :=
  let tail : Vector UInt32 8 :=
    #v[iv[0], iv[1], iv[2], iv[3], n.counter.toUInt32, (n.counter / 0x100000000).toUInt32,
      n.length.toUInt32, n.flags ||| more]
  let v := rounds 7 (n.chaining ++ tail) n.block
  Vector.ofFn fun i : Fin 8 => v[i.val] ^^^ v[i.val + 8]

/-- The text in pieces of the given size, the last one shorter; an empty text is one piece. -/
def pieces (size : Nat) (t : Bytes) : List Bytes :=
  (List.range (max 1 ((t.length + size - 1) / size))).map fun i => (t.drop (i * size)).take size

def littleEndian (bytes : Bytes) : UInt32 :=
  bytes.foldr (fun b n => n * 256 + b.toUInt32) 0

def blockWords (block : Bytes) : State :=
  Vector.ofFn fun i : Fin 16 => littleEndian ((block.drop (4 * i.val)).take 4)

def chunkFrom (counter : Nat) (chaining : Vector UInt32 8) (flags : UInt32) : List Bytes → Node
  | [] => ⟨chaining, blockWords [], counter, 0, flags ||| chunkEnd⟩
  | [last] => ⟨chaining, blockWords last, counter, last.length, flags ||| chunkEnd⟩
  | block :: blocks =>
    let node : Node := ⟨chaining, blockWords block, counter, block.length, flags⟩
    chunkFrom counter (node.compress 0) 0 blocks

def chunk (bytes : Bytes) (counter : Nat) : Node :=
  chunkFrom counter iv chunkStart (pieces 64 bytes)

def join (left right : Node) : Node :=
  ⟨iv, left.compress 0 ++ right.compress 0, 0, 64, parent⟩

def joinPairs : List Node → List Node
  | a :: b :: rest => join a b :: joinPairs rest
  | rest => rest

theorem length_joinPairs_le (nodes : List Node) : (joinPairs nodes).length ≤ nodes.length := by
  fun_induction joinPairs nodes with
  | case1 a b rest ih => simp only [List.length_cons]; omega
  | case2 => exact Nat.le_refl _

/-- Joins pairs of nodes until one is left. -/
def top (first : Node) : List Node → Node
  | [] => first
  | second :: rest => top (join first second) (joinPairs rest)
termination_by nodes => nodes.length
decreasing_by
  have := length_joinPairs_le rest
  simp only [List.length_cons]; omega

def words (t : Bytes) : Vector UInt32 8 :=
  match (pieces 1024 t).mapIdx fun i bytes => chunk bytes i with
  | [] => iv
  | first :: rest => (top first rest).compress root

def wordBytes (w : UInt32) : Bytes :=
  [w.toUInt8, (w >>> 8).toUInt8, (w >>> 16).toUInt8, (w >>> 24).toUInt8]

def digest (t : Bytes) : Bytes := (words t).toList.flatMap wordBytes

def hexByte (b : UInt8) : List Char :=
  [Nat.digitChar (b.toNat / 16), Nat.digitChar (b.toNat % 16)]

def hex (t : Bytes) : List Char := (digest t).flatMap hexByte

end Blake3
end FieldTags
