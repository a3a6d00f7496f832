import AuthenticatedSet.Hasher.Preimage
import AuthenticatedSet.Signature.Ed25519

/-!
# Key pairs

An author is known by a public key and signs with a secret. A pair holds both as bytes; nothing
makes them belong together, and signing reads the secret alone.

How signatures are made and checked is a scheme's own. What is published is signed in Ed25519; nothing
that follows from signatures that hold depends on it.

* `PublicKey`, `SecretKey`, `Signature`, `KeyPair` -- bytes of fixed width
* `SignatureScheme`, `SignatureScheme.ed25519` -- how signatures are made and checked
* `KeyPair.ofSecret`, `KeyPair.ofSeed` -- the pair of a secret, and of a number
* `KeyPair.sign`, `PublicKey.verify`   -- signing and checking
* `render` of each -- how it is shown; a secret never is
-/

namespace AuthenticatedSet

/-- The key an author is known by. -/
structure PublicKey where
  bytes : Vector UInt8 32
deriving DecidableEq, Repr

/-- The key an author signs with. -/
structure SecretKey where
  bytes : Vector UInt8 32
deriving DecidableEq

/-- The signature of a message. -/
structure Signature where
  bytes : Vector UInt8 64
deriving DecidableEq, Repr

/-- A public and a secret key. -/
structure KeyPair where
  publicKey : PublicKey
  secretKey : SecretKey
deriving DecidableEq

/-- How signatures are made with a secret key and checked with a public one. -/
structure SignatureScheme where
  /-- The signature of a message. -/
  sign : SecretKey → List UInt8 → Signature
  /-- Whether the signature of the message holds under the key. -/
  verify : PublicKey → List UInt8 → Signature → Bool

/-- The scheme in use. -/
def SignatureScheme.ed25519 : SignatureScheme where
  sign secret message := ⟨Ed25519.sign secret.bytes message⟩
  verify key message signature := Ed25519.verify key.bytes message signature.bytes

namespace KeyPair

/-- The pair of a secret. A fresh pair is that of 32 random bytes, which the program around the
library draws. -/
def ofSecret (secret : Vector UInt8 32) : KeyPair :=
  ⟨⟨Ed25519.publicKey secret⟩, ⟨secret⟩⟩

/-- The pair of a number: the same number always gives the same pair. -/
def ofSeed (seed : UInt64) : KeyPair :=
  ofSecret (Preimage.seed seed).hash

/-- The signature of a message under the secret key of the pair. -/
def sign (pair : KeyPair) (message : List UInt8) : Signature :=
  SignatureScheme.ed25519.sign pair.secretKey message

/-- The text of a pair: its public key only. -/
def render (pair : KeyPair) : String :=
  "KeyPair \x7b pub: " ++ Hex.encode pair.publicKey.bytes.toList ++ " \x7d"

end KeyPair

/-- Whether the signature of the message holds under this key. -/
def PublicKey.verify (key : PublicKey) (message : List UInt8) (signature : Signature) : Bool :=
  SignatureScheme.ed25519.verify key message signature

/-- The text of a public key. -/
def PublicKey.render (key : PublicKey) : String :=
  "KeyPub(" ++ Hex.encode key.bytes.toList ++ ")"

/-- The text of a secret key, which does not depend on the key. -/
def SecretKey.render (_ : SecretKey) : String := "KeySec(..)"

/-- The text of a signature. -/
def Signature.render (signature : Signature) : String :=
  "Signature(" ++ Hex.encode signature.bytes.toList ++ ")"

end AuthenticatedSet
