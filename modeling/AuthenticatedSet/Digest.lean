import AuthenticatedSet.Bytes.Hex

/-!
# Digests

A digest is a string of bytes of whatever length its hasher gives. Digests are compared byte by
byte, a digest that is the start of another one being the smaller.

* `Digest`          -- the bytes
* `Digest.ofVector` -- a digest of fixed width
* `Digest.compare`  -- the order, as one of three answers
* `Digest.render`   -- the text `Digest(..)` with the bytes in hexadecimal
-/

namespace AuthenticatedSet

/-- What a hasher gives: bytes that stand for the content they were made from. -/
structure Digest where
  bytes : List UInt8
deriving DecidableEq, Hashable, Repr

namespace Digest

/-- The digest of no bytes. -/
def empty : Digest := ⟨[]⟩

instance : Inhabited Digest := ⟨empty⟩

/-- The digest with these bytes. -/
def ofVector {n : Nat} (bytes : Vector UInt8 n) : Digest := ⟨bytes.toList⟩

/-- The number of bytes. -/
def length (d : Digest) : Nat := d.bytes.length

/-- Whether the digest has no bytes. -/
def isEmpty (d : Digest) : Bool := d.bytes.isEmpty

/-- Lexicographic by byte; a digest that another one starts with is below it. -/
instance : LT Digest := ⟨fun a b => a.bytes < b.bytes⟩

instance : LE Digest := ⟨fun a b => a.bytes ≤ b.bytes⟩

instance (a b : Digest) : Decidable (a < b) := inferInstanceAs (Decidable (a.bytes < b.bytes))

instance (a b : Digest) : Decidable (a ≤ b) := inferInstanceAs (Decidable (a.bytes ≤ b.bytes))

theorem le_total (a b : Digest) : a ≤ b ∨ b ≤ a := List.le_total a.bytes b.bytes

theorem le_antisymm {a b : Digest} (h : a ≤ b) (h' : b ≤ a) : a = b := by
  cases a; cases b
  exact congrArg Digest.mk (List.le_antisymm h h')

/-- The order of two digests as one of three answers. -/
def compare (a b : Digest) : Ordering :=
  if a < b then .lt else if a = b then .eq else .gt

/-- The two digests with the smaller one first. -/
def sorted (a b : Digest) : Digest × Digest :=
  if a ≤ b then (a, b) else (b, a)

/-- Sorting forgets which of the two came first. -/
theorem sorted_comm (a b : Digest) : sorted a b = sorted b a := by
  unfold sorted
  split <;> split
  · rename_i h h'
    rw [le_antisymm h h']
  · rfl
  · rfl
  · rename_i h h'
    exact absurd (le_total a b) (by simp [h, h'])

/-- The text of a digest, such as `Digest(ab01)`. -/
def render (d : Digest) : String := "Digest(" ++ Hex.encode d.bytes ++ ")"

end Digest

end AuthenticatedSet
