import AuthenticatedSet.Curve.Point
import AuthenticatedSet.Hash.Sha512

/-!
# Ed25519

Signatures over the curve of `Curve.Point`, with SHA-512. A secret of 32 bytes is stretched to a
scalar and a nonce key; a signature is a point `R` and a scalar `s` with
`s B = R + k A`, where `A` is the public point and `k` the digest of `R`, `A` and the message.

* `publicKey` -- the public bytes that belong to a secret
* `sign`      -- the signature of a message under a secret
* `verify`    -- whether a signature holds; it recomputes `R` and compares bytes

The check is the plain one: `A` may be any bytes that stand for a point, of small order too and not
reduced too, the cofactor is not cleared, but `s` has to be reduced.
-/

namespace AuthenticatedSet.Ed25519

open Curve

/-- The scalar and the nonce key a secret is stretched to. -/
structure Expanded where
  scalar : Nat
  nonceKey : List UInt8

/-- The lowest three bits and the top bit of 32 bytes cleared, the bit below the top one set. -/
def clamp (number : Nat) : Nat :=
  number % (1 <<< 254) / 8 * 8 + (1 <<< 254)

/-- SHA-512 of the secret: the clamped first half is the scalar, the second half the nonce key. -/
def expand (secret : Vector UInt8 32) : Expanded :=
  let digest := (Sha512.hash secret.toList).toList
  ⟨clamp (LittleEndian.decode (digest.take 32)), digest.drop 32⟩

/-- The SHA-512 digest of the bytes as a number modulo the group order. -/
def scalarOf (bytes : List UInt8) : Nat :=
  LittleEndian.decode (Sha512.hash bytes).toList % Point.order

/-- The public bytes that belong to a secret. -/
def publicKey (secret : Vector UInt8 32) : Vector UInt8 32 :=
  (Point.base.scale (expand secret).scalar).compress

/-- The signature of a message under a secret. It depends on nothing else: the public key in it is
the one derived from the secret. -/
def sign (secret : Vector UInt8 32) (message : List UInt8) : Vector UInt8 64 :=
  let expanded := expand secret
  let nonce := scalarOf (expanded.nonceKey ++ message)
  let point := (Point.base.scale nonce).compress
  let challenge := scalarOf (point.toList ++ (publicKey secret).toList ++ message)
  point ++ LittleEndian.toVector 32 ((challenge * expanded.scalar + nonce) % Point.order)

/-- Whether the signature of the message holds under the public bytes: these stand for a point `A`,
the second half `s` is reduced, and `s B - k A` compresses to the first half. -/
def verify (publicKey : Vector UInt8 32) (message : List UInt8) (signature : Vector UInt8 64) :
    Bool :=
  let point := signature.toList.take 32
  let scalar := LittleEndian.decode (signature.toList.drop 32)
  match Point.decompress? publicKey with
  | none => false
  | some author =>
    let challenge := scalarOf (point ++ publicKey.toList ++ message)
    let recomputed := (Point.base.scale scalar).add (author.negate.scale challenge)
    scalar < Point.order && recomputed.compress.toList == point

end AuthenticatedSet.Ed25519
