import GossipStore.Bytes

set_option autoImplicit false

/-! # BLAKE3

The hash by which replicas compare what they hold, in its plain mode with a digest of 32 bytes. The
input is cut into chunks of 1024 bytes and each chunk into blocks of 64. The blocks of a chunk are
chained, and the chunks are the leaves of a binary tree whose left subtrees are complete. Joining
neighbours level by level, with an odd one carried up, builds just this tree. -/

namespace GossipStore

namespace Blake3

/-! ## Words -/

/-- Sixteen words: a block, or the state of the compression. -/
abbrev Words := Vector UInt32 16

/-- A chaining value. -/
abbrev Chaining := Vector UInt32 8

/-- The initial chaining value. -/
def initial : Chaining :=
  #v[0x6a09e667, 0xbb67ae85, 0x3c6ef372, 0xa54ff53a, 0x510e527f, 0x9b05688c, 0x1f83d9ab,
    0x5be0cd19]

/-- The word whose little-endian bytes are given. -/
def wordOf (b : Bytes) : UInt32 := UInt32.ofNat (Bytes.toNat b.reverse)

/-- The little-endian bytes of a word. -/
def wordBytes (w : UInt32) : Bytes := (Bytes.ofNat 4 w.toNat).reverse

/-- The words of a block, which is filled up with zeros. -/
def blockWords (b : Bytes) : Words := Vector.ofFn fun i => wordOf ((b.drop (4 * i)).take 4)

/-- Rotates a word to the right. -/
def rotate (w : UInt32) (n : UInt32) : UInt32 := (w >>> n) ||| (w <<< (32 - n))

/-! ## Compression -/

/-- Mixes two words of the message into four words of the state. -/
def mix (s : Words) (a b c d : Fin 16) (x y : UInt32) : Words :=
  let a₁ := s[a] + s[b] + x
  let d₁ := rotate (s[d] ^^^ a₁) 16
  let c₁ := s[c] + d₁
  let b₁ := rotate (s[b] ^^^ c₁) 12
  let a₂ := a₁ + b₁ + y
  let d₂ := rotate (d₁ ^^^ a₂) 8
  let c₂ := c₁ + d₂
  let b₂ := rotate (b₁ ^^^ c₂) 7
  (((s.set a a₂).set b b₂).set c c₂).set d d₂

/-- Mixes a message into the columns of the state and then into its diagonals. -/
def mixAll (s m : Words) : Words :=
  let s := mix s 0 4 8 12 m[0] m[1]
  let s := mix s 1 5 9 13 m[2] m[3]
  let s := mix s 2 6 10 14 m[4] m[5]
  let s := mix s 3 7 11 15 m[6] m[7]
  let s := mix s 0 5 10 15 m[8] m[9]
  let s := mix s 1 6 11 12 m[10] m[11]
  let s := mix s 2 7 8 13 m[12] m[13]
  mix s 3 4 9 14 m[14] m[15]

/-- The place from which each word of the next round's message comes. -/
def schedule : Vector (Fin 16) 16 := #v[2, 6, 3, 10, 7, 0, 4, 13, 1, 11, 12, 5, 9, 14, 15, 8]

/-- Runs a number of rounds, with the message rearranged between them. -/
def rounds : Nat → Words → Words → Words
  | 0, s, _ => s
  | n + 1, s, m => rounds n (mixAll s m) (Vector.ofFn fun i => m[schedule[i]])

/-- The inputs of one compression. -/
structure Node where
  chaining : Chaining
  block : Words
  counter : UInt64
  blockLength : UInt32
  flags : UInt32

namespace Flag

/-- The block is the first of its chunk. -/
def chunkStart : UInt32 := 1

/-- The block is the last of its chunk. -/
def chunkEnd : UInt32 := 2

/-- The block holds two chaining values. -/
def parent : UInt32 := 4

/-- The node is the root of the tree. -/
def root : UInt32 := 8

end Flag

/-- The first half of what a node compresses to. -/
def Node.compress (n : Node) : Chaining :=
  let h := n.chaining
  let start : Words :=
    #v[h[0], h[1], h[2], h[3], h[4], h[5], h[6], h[7], initial[0], initial[1], initial[2],
      initial[3], n.counter.toUInt32, (n.counter >>> 32).toUInt32, n.blockLength, n.flags]
  let s := rounds 7 start n.block
  Vector.ofFn fun (i : Fin 8) => s[i.val] ^^^ s[i.val + 8]

/-! ## Chunks -/

/-- Cuts a list into pieces of a length, the last of which may be shorter. The empty list is one
empty piece. -/
def pieces {α : Type} (size : Nat) (l : List α) : List (List α) :=
  if _h : 0 < size ∧ size < l.length then l.take size :: pieces size (l.drop size) else [l]
termination_by l.length
decreasing_by simp only [List.length_drop]; omega

/-- Chains the blocks of a chunk up to the last one, which stays open. -/
def chainBlocks (counter : UInt64) (chaining : Chaining) (flags : UInt32) : List Bytes → Node
  | [] => ⟨chaining, blockWords [], counter, 0, flags ||| Flag.chunkEnd⟩
  | [b] => ⟨chaining, blockWords b, counter, UInt32.ofNat b.length, flags ||| Flag.chunkEnd⟩
  | b :: rest =>
    let node : Node := ⟨chaining, blockWords b, counter, UInt32.ofNat b.length, flags⟩
    chainBlocks counter node.compress 0 rest

/-- The node of a chunk. -/
def chunkNode (chunk : Bytes) (counter : Nat) : Node :=
  chainBlocks (UInt64.ofNat counter) initial Flag.chunkStart (pieces 64 chunk)

/-! ## The tree -/

/-- The node above two nodes. -/
def parentNode (left right : Node) : Node :=
  ⟨initial, left.compress ++ right.compress, 0, 64, Flag.parent⟩

/-- Joins neighbours from the left; an odd node at the end stays. -/
def joinPairs : List Node → List Node
  | left :: right :: rest => parentNode left right :: joinPairs rest
  | l => l

theorem length_joinPairs_le (l : List Node) : (joinPairs l).length ≤ l.length := by
  fun_induction joinPairs l with
  | case1 left right rest ih => simp only [List.length_cons]; omega
  | case2 l => exact Nat.le_refl _

/-- The root of the tree over a first node and more nodes to its right. -/
def rootNode (first : Node) : List Node → Node
  | [] => first
  | second :: rest => rootNode (parentNode first second) (joinPairs rest)
termination_by l => l.length
decreasing_by
  have := length_joinPairs_le rest
  simp only [List.length_cons]; omega

/-- The digest of a byte string. -/
def hash (b : Bytes) : Bytes :=
  let root := match (pieces 1024 b).zipIdx.map fun e => chunkNode e.1 e.2 with
    | [] => chunkNode [] 0
    | first :: rest => rootNode first rest
  { root with flags := root.flags ||| Flag.root }.compress.toList.flatMap wordBytes

end Blake3

end GossipStore
