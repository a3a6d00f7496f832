/-!
# Bytes, part 1: a natural number as little-endian bytes

Every number this library hashes, signs or sends has a fixed width and goes least significant byte
first. This file fixes that reading once, for every width:

* `encode count value` -- the `count` low base-256 digits of `value`
* `decode bytes`       -- the number whose digits the bytes are
* `capacity count`     -- how many numbers fit into `count` bytes
* `toVector`           -- `encode` with its width in the type

The two undo each other on numbers that fit (`decode_encode`) and on all byte strings
(`encode_decode`), so a field of a message determines its number and the other way round.
-/

namespace AuthenticatedSet.LittleEndian

/-- The `count` low base-256 digits of `value`, least significant first; higher digits are lost. -/
def encode : Nat → Nat → List UInt8
  | 0, _ => []
  | count + 1, value => UInt8.ofNat value :: encode count (value / 256)

/-- The number whose base-256 digits are the bytes, least significant first. -/
def decode : List UInt8 → Nat
  | [] => 0
  | byte :: rest => byte.toNat + 256 * decode rest

/-- How many numbers fit into `count` bytes: those below `capacity count`. -/
def capacity : Nat → Nat
  | 0 => 1
  | count + 1 => 256 * capacity count

@[simp] theorem length_encode (count value : Nat) : (encode count value).length = count := by
  induction count generalizing value with
  | zero => rfl
  | succ count ih => simp [encode, ih]

theorem decode_lt (bytes : List UInt8) : decode bytes < capacity bytes.length := by
  induction bytes with
  | nil => decide
  | cons byte rest ih =>
    have := byte.toNat_lt
    simp only [decode, List.length_cons, capacity]
    omega

theorem decode_encode {count value : Nat} (h : value < capacity count) :
    decode (encode count value) = value := by
  induction count generalizing value with
  | zero =>
    simp only [capacity] at h
    simp only [encode, decode]
    omega
  | succ count ih =>
    have small : value / 256 < capacity count := by
      simp only [capacity] at h
      omega
    simp only [encode, decode, ih small, UInt8.toNat_ofNat']
    omega

theorem encode_decode (bytes : List UInt8) : encode bytes.length (decode bytes) = bytes := by
  induction bytes with
  | nil => rfl
  | cons byte rest ih =>
    have := byte.toNat_lt
    have digit : UInt8.ofNat (byte.toNat + 256 * decode rest) = byte := by
      apply UInt8.toNat_inj.mp
      simp only [UInt8.toNat_ofNat']
      omega
    have others : (byte.toNat + 256 * decode rest) / 256 = decode rest := by omega
    simp [encode, decode, digit, others, ih]

/-- The `count` low digits of `value` as a byte vector of exactly that width. -/
def toVector (count value : Nat) : Vector UInt8 count :=
  ⟨(encode count value).toArray, by simp⟩

@[simp] theorem toList_toVector (count value : Nat) :
    (toVector count value).toList = encode count value := by
  simp [toVector, Vector.toList]

end AuthenticatedSet.LittleEndian
