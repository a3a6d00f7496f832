import AuthenticatedSet.Commitment.Basic
import AuthenticatedSet.Signature.KeyPair

/-!
# Signed confirmations

The author of a confirmation signs the BLAKE3 digest of it, version and root digest included.
Whoever gets the three parts can check the signature, and then any proof against the confirmation.
-/

namespace AuthenticatedSet

/-- A confirmation with the signature of its author. -/
structure SignedConfirmation where
  author : PublicKey
  confirmation : Confirmation
  signature : Signature
deriving DecidableEq

/-- The message that is signed for a confirmation. -/
def Confirmation.message (c : Confirmation) : List UInt8 :=
  (Preimage.confirmation c.version c.digest).hash.toList

/-- The confirmation signed by the pair in some scheme, under its public key. -/
def Confirmation.signIn (c : Confirmation) (scheme : SignatureScheme) (pair : KeyPair) :
    SignedConfirmation :=
  ⟨pair.publicKey, c, scheme.sign pair.secretKey c.message⟩

/-- The confirmation signed by the pair. -/
def Confirmation.sign (c : Confirmation) (pair : KeyPair) : SignedConfirmation :=
  c.signIn .ed25519 pair

namespace SignedConfirmation

/-- Whether the signature is the author's on this confirmation, in some scheme. -/
def isAuthenticIn (s : SignedConfirmation) (scheme : SignatureScheme) : Bool :=
  scheme.verify s.author s.confirmation.message s.signature

/-- Whether the signature is the author's on this confirmation. -/
def isAuthentic (s : SignedConfirmation) : Bool :=
  s.isAuthenticIn .ed25519

/-- The verdict on a path, with signatures in some scheme: without a good one it is incorrect,
whatever the proof. -/
def pathVerdictIn (s : SignedConfirmation) (scheme : SignatureScheme) (p : MembershipProof)
    (h : Hasher) : Verdict :=
  if s.isAuthenticIn scheme then s.confirmation.pathVerdict p h else .incorrect

/-- The verdict on a path: without a good signature it is incorrect, whatever the proof. -/
def pathVerdict (s : SignedConfirmation) (p : MembershipProof) (h : Hasher) : Verdict :=
  s.pathVerdictIn .ed25519 p h

/-- The text of a signed confirmation, field by field. -/
def render (s : SignedConfirmation) : String :=
  "SignedConfirmation \x7b author: " ++ s.author.render ++ ", confirmation: "
    ++ s.confirmation.render ++ ", signature: " ++ s.signature.render ++ " \x7d"

end SignedConfirmation

end AuthenticatedSet
