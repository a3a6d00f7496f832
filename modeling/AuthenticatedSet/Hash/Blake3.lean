import AuthenticatedSet.Bytes.LittleEndian

/-!
# BLAKE3 in its plain mode, 32 bytes out

The input is cut into chunks of 1024 bytes, a chunk into blocks of 64. Blocks of a chunk are chained
through `compress`; chunks are joined pairwise in a binary tree whose left side is the largest power
of two of chunks that leaves something for the right. Only the last compression of the whole tree is
flagged as root.

* `compress` -- the permutation on sixteen words, folded into a chaining value
* `Pending`  -- a compression not yet run: it is a chaining value inside the tree, the digest at
  its top
* `hash`     -- the digest of a byte string

Recursion is on the length of the input throughout, so there is no bound on the input.
-/

namespace AuthenticatedSet.Blake3

/-! ## 1. The compression function -/

/-- The eight words a block is chained with. -/
abbrev Chain := Vector UInt32 8

/-- Sixteen words: a message block, or the state that mixes it in. -/
abbrev Block := Vector UInt32 16

/-- The initial chaining value. -/
def start : Chain :=
  #v[0x6A09E667, 0xBB67AE85, 0x3C6EF372, 0xA54FF53A, 0x510E527F, 0x9B05688C, 0x1F83D9AB, 0x5BE0CD19]

/-- Set on the first block of a chunk. -/
def chunkStart : UInt32 := 1
/-- Set on the last block of a chunk. -/
def chunkEnd : UInt32 := 2
/-- Set where two subtrees are joined. -/
def parent : UInt32 := 4
/-- Set on the one compression that gives the digest. -/
def root : UInt32 := 8

/-- The word rotated right by `count` bits, for `0 < count < 32`. -/
def rotateRight (word count : UInt32) : UInt32 :=
  (word >>> count) ||| (word <<< (32 - count))

/-- The quarter round: two message words mixed into four state words. -/
def quarter (state : Block) (a b c d : Fin 16) (x y : UInt32) : Block :=
  let va := state[a] + state[b] + x
  let vd := rotateRight (state[d] ^^^ va) 16
  let vc := state[c] + vd
  let vb := rotateRight (state[b] ^^^ vc) 12
  let va := va + vb + y
  let vd := rotateRight (vd ^^^ va) 8
  let vc := vc + vd
  let vb := rotateRight (vb ^^^ vc) 7
  (((state.set a va).set b vb).set c vc).set d vd

/-- One round: the four columns, then the four diagonals. -/
def round (state message : Block) : Block :=
  let state := quarter state 0 4 8 12 message[0] message[1]
  let state := quarter state 1 5 9 13 message[2] message[3]
  let state := quarter state 2 6 10 14 message[4] message[5]
  let state := quarter state 3 7 11 15 message[6] message[7]
  let state := quarter state 0 5 10 15 message[8] message[9]
  let state := quarter state 1 6 11 12 message[10] message[11]
  let state := quarter state 2 7 8 13 message[12] message[13]
  quarter state 3 4 9 14 message[14] message[15]

/-- The order in which the next round reads the message words of this one. -/
def permutation : Vector (Fin 16) 16 :=
  #v[2, 6, 3, 10, 7, 0, 4, 13, 1, 11, 12, 5, 9, 14, 15, 8]

/-- The message as the next round reads it. -/
def permute (message : Block) : Block :=
  permutation.map (message[·])

/-- `count` rounds, the message permuted between them. -/
def rounds : Nat → Block → Block → Block
  | 0, state, _ => state
  | count + 1, state, message => rounds count (round state message) (permute message)

/-- A compression that has not run yet: the block with everything it is mixed with. -/
structure Pending where
  chain : Chain
  block : Block
  counter : UInt64
  length : UInt32
  flags : UInt32

/-- The eight words that seven rounds leave: the two halves of the state added without carry. -/
def compress (p : Pending) (extra : UInt32) : Chain :=
  let state : Block := p.chain ++
    #v[start[0], start[1], start[2], start[3],
      p.counter.toUInt32, (p.counter >>> 32).toUInt32, p.length, p.flags ||| extra]
  let state := rounds 7 state p.block
  Vector.ofFn fun i : Fin 8 => state[i.val] ^^^ state[i.val + 8]

/-- The chaining value of a subtree that is not the whole tree. -/
def Pending.chaining (p : Pending) : Chain := compress p 0

/-- The digest, when the subtree is the whole tree. -/
def Pending.digest (p : Pending) : Vector UInt8 32 :=
  let words := compress p root
  Vector.ofFn fun i : Fin 32 => (words[i.val / 4] >>> (8 * (i.val % 4)).toUInt32).toUInt8

/-! ## 2. Chunks and the tree over them -/

/-- Up to 64 bytes as sixteen little-endian words, filled up with zero bytes. -/
def blockOfBytes (bytes : List UInt8) : Block :=
  let bytes := bytes.toArray
  Vector.ofFn fun i : Fin 16 =>
    let byteAt (k : Nat) : UInt32 := (bytes[4 * i.val + k]?.getD 0).toUInt32
    byteAt 0 ||| (byteAt 1 <<< 8) ||| (byteAt 2 <<< 16) ||| (byteAt 3 <<< 24)

/-- The last compression of a chunk, the blocks before it chained in. `flags` is `chunkStart` as
long as no block has been taken. -/
def chunkFrom (counter : UInt64) (flags : UInt32) (chain : Chain) (bytes : List UInt8) : Pending :=
  if _ : 64 < bytes.length then
    let p : Pending := ⟨chain, blockOfBytes (bytes.take 64), counter, 64, flags⟩
    chunkFrom counter 0 p.chaining (bytes.drop 64)
  else
    ⟨chain, blockOfBytes bytes, counter, bytes.length.toUInt32, flags ||| chunkEnd⟩
termination_by bytes.length
decreasing_by simp; omega

/-- The last compression of the chunk with this number. -/
def chunk (counter : UInt64) (bytes : List UInt8) : Pending :=
  chunkFrom counter chunkStart start bytes

/-- Two subtrees joined. -/
def join (left right : Chain) : Pending :=
  ⟨start, left ++ right, 0, 64, parent⟩

/-- The length of the left side of a tree over more than one chunk: the largest power of two of
chunks that leaves something for the right. -/
def leftLength (length : Nat) : Nat := 1 <<< (length - 1).log2

theorem leftLength_pos (length : Nat) : 0 < leftLength length := by
  rw [leftLength, Nat.one_shiftLeft]
  exact Nat.two_pow_pos _

theorem leftLength_lt {length : Nat} (h : 1024 < length) : leftLength length < length := by
  have := Nat.log2_self_le (n := length - 1) (by omega)
  rw [leftLength, Nat.one_shiftLeft]
  omega

/-- The tree over the bytes, whose first chunk has this number. -/
def tree (counter : UInt64) (bytes : List UInt8) : Pending :=
  if _ : 1024 < bytes.length then
    let cut := leftLength bytes.length
    join (tree counter (bytes.take cut)).chaining
      (tree (counter + (cut / 1024).toUInt64) (bytes.drop cut)).chaining
  else
    chunk counter bytes
termination_by bytes.length
decreasing_by
  · have := leftLength_lt ‹_›
    simp only [List.length_take]
    omega
  · have := leftLength_pos bytes.length
    simp only [List.length_drop]
    omega

/-- The BLAKE3 digest of a byte string. -/
def hash (bytes : List UInt8) : Vector UInt8 32 :=
  (tree 0 bytes).digest

end AuthenticatedSet.Blake3
