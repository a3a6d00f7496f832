import AuthenticatedSet.Bytes.LittleEndian
import AuthenticatedSet.Hash.Blake3
import AuthenticatedSet.Hasher

/-!
# What BLAKE3 is given

Everything this library hashes with BLAKE3 is one of five kinds of content. The first byte tells
them apart and every part of variable length goes behind its own length, so that two contents with
the same bytes are the same content; the two digests of a pair go in sorted order, which makes the
pair unordered.

| content       | bytes                                                       |
|---------------|-------------------------------------------------------------|
| key           | `00`, the key in 8 bytes                                    |
| pair          | `01`, length and bytes of the smaller, then of the larger   |
| end of level  | `02`                                                        |
| confirmation  | `03`, the version in 8 bytes, length and bytes of the digest |
| seed of a key pair | a fixed text, the seed in 8 bytes                      |

Lengths are 8 bytes; all numbers are little-endian.
-/

namespace AuthenticatedSet

/-- The content of one BLAKE3 digest. -/
inductive Preimage where
  | leaf (key : Key)
  | pair (a b : Digest)
  | endMark
  | confirmation (version : UInt64) (digest : Digest)
  | seed (value : UInt64)
deriving DecidableEq, Repr

namespace Preimage

/-- The text in front of the seed of a key pair. It starts with the byte `61`, which no other
content starts with. -/
def seedLabel : List UInt8 := "authskip keypair seed".toUTF8.toList

/-- A word in 8 little-endian bytes. -/
def word (value : UInt64) : List UInt8 := LittleEndian.encode 8 value.toNat

/-- The bytes of a digest behind their number in 8 bytes. -/
def measured (digest : Digest) : List UInt8 :=
  LittleEndian.encode 8 digest.length ++ digest.bytes

/-- The bytes that are hashed. -/
def bytes : Preimage → List UInt8
  | .leaf key => 0x00 :: word key.toUInt64
  | .pair a b =>
    let (smaller, larger) := Digest.sorted a b
    0x01 :: (measured smaller ++ measured larger)
  | .endMark => [0x02]
  | .confirmation version digest => 0x03 :: (word version ++ measured digest)
  | .seed value => seedLabel ++ word value

/-- The BLAKE3 digest of the content, in 32 bytes. -/
def hash (content : Preimage) : Vector UInt8 32 := Blake3.hash content.bytes

end Preimage

/-- The hasher of this library: BLAKE3 of the content, its kind in front. -/
def Hasher.blake3 : Hasher where
  leaf key := .ofVector (Preimage.leaf key).hash
  combine a b := .ofVector (Preimage.pair a b).hash
  endMark := .ofVector Preimage.endMark.hash

/-- BLAKE3 is given the same bytes for a pair in either order. -/
theorem Hasher.blake3_commutative : Hasher.blake3.Commutative := by
  intro a b
  simp only [Hasher.blake3, Preimage.hash, Preimage.bytes, Digest.sorted_comm a b]

end AuthenticatedSet
