import AuthenticatedSet.Hasher

/-!
# Hashers one can read

Two hashers that hide nothing, for worked examples and for looking at what a list commits to.

* `Hasher.text`    -- a digest is the expression it was made from, in ASCII; it never collides as
  long as its salt stays the same
* `Hasher.byteSum` -- a digest is one byte, a sum; it collides often
-/

namespace AuthenticatedSet.Hasher

/-- The bytes of an ASCII text. -/
def ascii (text : String) : List UInt8 := text.toUTF8.toList

/-- What a salt appends: nothing for 0, otherwise `#` and the salt. -/
def saltMark (salt : Nat) : String :=
  if salt = 0 then "" else "#" ++ toString salt

/-- Digests as expressions: a key is its decimal text, an end of a level is `_`, a pair is
`(smaller larger)`. Keys and ends carry the salt, pairs do not. -/
def text (salt : Nat) : Hasher where
  leaf key := ⟨ascii (toString key.toInt ++ saltMark salt)⟩
  combine a b :=
    let (smaller, larger) := Digest.sorted a b
    ⟨ascii "(" ++ smaller.bytes ++ ascii " " ++ larger.bytes ++ ascii ")"⟩
  endMark := ⟨ascii ("_" ++ saltMark salt)⟩

/-- The sum of the bytes, modulo 256. -/
def total (bytes : List UInt8) : UInt8 := bytes.foldl (· + ·) 0

/-- Digests as sums: a key is its low byte, an end of a level has no byte, a pair is one more than
the sum of all bytes. -/
def byteSum : Hasher where
  leaf key := ⟨[key.toUInt64.toUInt8]⟩
  combine a b := ⟨[1 + total a.bytes + total b.bytes]⟩
  endMark := .empty

theorem byteSum_commutative : byteSum.Commutative := by
  intro a b
  simp only [byteSum, UInt8.add_assoc, UInt8.add_comm (total a.bytes)]

end AuthenticatedSet.Hasher
