/-!
# SHA-512

The input is closed by one set bit, zeros and its own length in bits, cut into blocks of 128 bytes,
and each block is spread over eighty words that are mixed into an eight-word state.

* `pad`      -- the input closed to a multiple of 128 bytes
* `schedule` -- the eighty words of a block
* `compress` -- one block mixed into the state
* `hash`     -- the 64-byte digest of a byte string

All words are big-endian, unlike everywhere else in this library.
-/

namespace AuthenticatedSet.Sha512

/-! ## 1. Constants -/

/-- The eight words of the state. -/
structure State where
  a : UInt64
  b : UInt64
  c : UInt64
  d : UInt64
  e : UInt64
  f : UInt64
  g : UInt64
  h : UInt64

/-- The initial state: fractional parts of the square roots of the first eight primes. -/
def start : State :=
  ⟨0x6a09e667f3bcc908, 0xbb67ae8584caa73b, 0x3c6ef372fe94f82b, 0xa54ff53a5f1d36f1,
    0x510e527fade682d1, 0x9b05688c2b3e6c1f, 0x1f83d9abfb41bd6b, 0x5be0cd19137e2179⟩

/-- The round constants: fractional parts of the cube roots of the first eighty primes. -/
def roundConstants : Vector UInt64 80 :=
  #v[
    0x428a2f98d728ae22, 0x7137449123ef65cd, 0xb5c0fbcfec4d3b2f, 0xe9b5dba58189dbbc,
    0x3956c25bf348b538, 0x59f111f1b605d019, 0x923f82a4af194f9b, 0xab1c5ed5da6d8118,
    0xd807aa98a3030242, 0x12835b0145706fbe, 0x243185be4ee4b28c, 0x550c7dc3d5ffb4e2,
    0x72be5d74f27b896f, 0x80deb1fe3b1696b1, 0x9bdc06a725c71235, 0xc19bf174cf692694,
    0xe49b69c19ef14ad2, 0xefbe4786384f25e3, 0x0fc19dc68b8cd5b5, 0x240ca1cc77ac9c65,
    0x2de92c6f592b0275, 0x4a7484aa6ea6e483, 0x5cb0a9dcbd41fbd4, 0x76f988da831153b5,
    0x983e5152ee66dfab, 0xa831c66d2db43210, 0xb00327c898fb213f, 0xbf597fc7beef0ee4,
    0xc6e00bf33da88fc2, 0xd5a79147930aa725, 0x06ca6351e003826f, 0x142929670a0e6e70,
    0x27b70a8546d22ffc, 0x2e1b21385c26c926, 0x4d2c6dfc5ac42aed, 0x53380d139d95b3df,
    0x650a73548baf63de, 0x766a0abb3c77b2a8, 0x81c2c92e47edaee6, 0x92722c851482353b,
    0xa2bfe8a14cf10364, 0xa81a664bbc423001, 0xc24b8b70d0f89791, 0xc76c51a30654be30,
    0xd192e819d6ef5218, 0xd69906245565a910, 0xf40e35855771202a, 0x106aa07032bbd1b8,
    0x19a4c116b8d2d0c8, 0x1e376c085141ab53, 0x2748774cdf8eeb99, 0x34b0bcb5e19b48a8,
    0x391c0cb3c5c95a63, 0x4ed8aa4ae3418acb, 0x5b9cca4f7763e373, 0x682e6ff3d6b2b8a3,
    0x748f82ee5defb2fc, 0x78a5636f43172f60, 0x84c87814a1f0ab72, 0x8cc702081a6439ec,
    0x90befffa23631e28, 0xa4506cebde82bde9, 0xbef9a3f7b2c67915, 0xc67178f2e372532b,
    0xca273eceea26619c, 0xd186b8c721c0c207, 0xeada7dd6cde0eb1e, 0xf57d4f7fee6ed178,
    0x06f067aa72176fba, 0x0a637dc5a2c898a6, 0x113f9804bef90dae, 0x1b710b35131c471b,
    0x28db77f523047d84, 0x32caab7b40c72493, 0x3c9ebe0a15c9bebc, 0x431d67c49c100d4c,
    0x4cc5d4becb3e42b6, 0x597f299cfc657e2a, 0x5fcb6fab3ad6faec, 0x6c44198c4a475817]

/-! ## 2. Words and blocks -/

/-- The word rotated right by `count` bits, for `0 < count < 64`. -/
def rotateRight (word count : UInt64) : UInt64 :=
  (word >>> count) ||| (word <<< (64 - count))

/-- The `count` low base-256 digits of `value`, most significant first. -/
def bigEndian (count value : Nat) : Vector UInt8 count :=
  Vector.ofFn fun i => UInt8.ofNat (value >>> (8 * (count - 1 - i.val)))

/-- The input, one set bit, zeros up to sixteen bytes short of a block end, and the number of bits
of the input in those sixteen bytes. -/
def pad (bytes : List UInt8) : List UInt8 :=
  let zeros := (239 - bytes.length % 128) % 128
  bytes ++ 0x80 :: List.replicate zeros 0 ++ (bigEndian 16 (8 * bytes.length)).toList

/-- The bytes cut into blocks of 128; a rest that fills no block is dropped. -/
def blocks (bytes : List UInt8) : List (List UInt8) :=
  if _ : 128 ≤ bytes.length then
    bytes.take 128 :: blocks (bytes.drop 128)
  else
    []
termination_by bytes.length
decreasing_by simp only [List.length_drop]; omega

/-- The sixteen big-endian words of a block. -/
def words (block : List UInt8) : Array UInt64 :=
  let bytes := block.toArray
  Array.ofFn fun i : Fin 16 =>
    (List.range 8).foldl (fun word k => (word <<< 8) ||| (bytes[8 * i.val + k]?.getD 0).toUInt64) 0

/-- The sixteen words of a block continued to eighty. -/
def schedule (block : List UInt8) : Array UInt64 :=
  (List.range 64).foldl
    (fun w i =>
      let at15 := w.getD (i + 1) 0
      let at2 := w.getD (i + 14) 0
      let low := rotateRight at15 1 ^^^ rotateRight at15 8 ^^^ (at15 >>> 7)
      let high := rotateRight at2 19 ^^^ rotateRight at2 61 ^^^ (at2 >>> 6)
      w.push (w.getD i 0 + low + w.getD (i + 9) 0 + high))
    (words block)

/-! ## 3. The compression function -/

/-- One of the eighty rounds, with the sum of its constant and its word. -/
def round (s : State) (term : UInt64) : State :=
  let choice := (s.e &&& s.f) ^^^ (~~~s.e &&& s.g)
  let majority := (s.a &&& s.b) ^^^ (s.a &&& s.c) ^^^ (s.b &&& s.c)
  let spread := rotateRight s.e 14 ^^^ rotateRight s.e 18 ^^^ rotateRight s.e 41
  let t₁ := s.h + spread + choice + term
  let t₂ := (rotateRight s.a 28 ^^^ rotateRight s.a 34 ^^^ rotateRight s.a 39) + majority
  ⟨t₁ + t₂, s.a, s.b, s.c, s.d + t₁, s.e, s.f, s.g⟩

/-- Two states added word by word. -/
def State.add (s t : State) : State :=
  ⟨s.a + t.a, s.b + t.b, s.c + t.c, s.d + t.d, s.e + t.e, s.f + t.f, s.g + t.g, s.h + t.h⟩

/-- One block mixed into the state. -/
def compress (state : State) (block : List UInt8) : State :=
  let terms := List.zipWith (· + ·) roundConstants.toList (schedule block).toList
  state.add (terms.foldl round state)

/-- The state as 64 bytes. -/
def State.toBytes (s : State) : Vector UInt8 64 :=
  let word (w : UInt64) : Vector UInt8 8 := bigEndian 8 w.toNat
  word s.a ++ word s.b ++ word s.c ++ word s.d ++ word s.e ++ word s.f ++ word s.g ++ word s.h

/-- The SHA-512 digest of a byte string. -/
def hash (bytes : List UInt8) : Vector UInt8 64 :=
  ((blocks (pad bytes)).foldl compress start).toBytes

end AuthenticatedSet.Sha512
