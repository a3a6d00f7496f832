import AuthenticatedSet.Commitment.SignedConfirmation
import AuthenticatedSet.Codec.Decoder

/-!
# The messages as bytes

Three messages travel: confirmations, membership proofs and signed confirmations. Each starts with
a tag of its own; the fields follow without padding, numbers little-endian.

| message             | tag  | fields                                                          |
|---------------------|------|-----------------------------------------------------------------|
| confirmation        | `10` | version (8), digest                                             |
| membership proof    | `11` | version (8), flag (1), key (8), number of digests (4), digests  |
| signed confirmation | `12` | author (32), signature (64), version (8), digest                |
| digest              |      | number of bytes (4), bytes                                      |

* `Format`                                 -- a tag, a writer of fields and a reader of fields
* `Format.encode`, `Format.decode`         -- whole messages
* `confirmation`, `membershipProof`, `signedConfirmation` -- the three formats

Counts are written modulo 2^32, so what is read back is what was written only for messages whose
digests, and whose number of digests, stay below that.
-/

namespace AuthenticatedSet.Codec

/-! ## 1. Whole messages -/

/-- How one kind of message is written and read. -/
structure Format (α : Type) where
  /-- The first byte. -/
  tag : UInt8
  /-- The bytes of the fields. -/
  write : α → List UInt8
  /-- The fields from their bytes. -/
  read : Decoder α

namespace Format

variable {α : Type}

/-- The bytes of a message. -/
def encode (format : Format α) (message : α) : List UInt8 :=
  format.tag :: format.write message

/-- A whole message: its tag, its fields, nothing after them. -/
def whole (format : Format α) : Decoder α := do
  Decoder.tag format.tag
  let message ← format.read
  Decoder.finish
  return message

/-- The message that the bytes are, or the cause why they are none. -/
def decode (format : Format α) (bytes : List UInt8) : Except DecodeError α :=
  format.whole.run' bytes

end Format

/-! ## 2. Fields -/

/-- A digest behind its length. -/
def writeDigest (digest : Digest) : List UInt8 :=
  LittleEndian.encode 4 digest.length ++ digest.bytes

/-- A digest behind its length. -/
def readDigest : Decoder Digest := do
  let length ← Decoder.number 4
  return .ofVector (← Decoder.take length)

/-- The fields of a confirmation, the same in a signed one. -/
def writeConfirmation (c : Confirmation) : List UInt8 :=
  LittleEndian.encode 8 c.version.toNat ++ writeDigest c.digest

/-- The fields of a confirmation, the same in a signed one. -/
def readConfirmation : Decoder Confirmation := do
  let version ← Decoder.number 8
  let digest ← readDigest
  return ⟨.ofNat version, digest⟩

/-- The fields of a membership proof. -/
def writeMembershipProof (p : MembershipProof) : List UInt8 :=
  LittleEndian.encode 8 p.version.toNat
    ++ (if p.present then 1 else 0)
    :: (LittleEndian.encode 8 p.key.toUInt64.toNat
      ++ LittleEndian.encode 4 p.digests.length
      ++ p.digests.flatMap writeDigest)

/-- The fields of a membership proof. -/
def readMembershipProof : Decoder MembershipProof := do
  let version ← Decoder.number 8
  let present ← Decoder.flag
  let key ← Decoder.number 8
  let count ← Decoder.number 4
  let digests ← readDigest.times count
  return ⟨.ofNat version, present, (UInt64.ofNat key).toInt64, digests⟩

/-- The fields of a signed confirmation. -/
def writeSignedConfirmation (s : SignedConfirmation) : List UInt8 :=
  s.author.bytes.toList ++ s.signature.bytes.toList ++ writeConfirmation s.confirmation

/-- The fields of a signed confirmation. The signature is read, not checked. -/
def readSignedConfirmation : Decoder SignedConfirmation := do
  let author ← Decoder.take 32
  let signature ← Decoder.take 64
  let confirmation ← readConfirmation
  return ⟨⟨author⟩, confirmation, ⟨signature⟩⟩

/-! ## 3. The three formats -/

/-- The format of confirmations. -/
def confirmation : Format Confirmation := ⟨0x10, writeConfirmation, readConfirmation⟩

/-- The format of membership proofs. -/
def membershipProof : Format MembershipProof := ⟨0x11, writeMembershipProof, readMembershipProof⟩

/-- The format of signed confirmations. -/
def signedConfirmation : Format SignedConfirmation :=
  ⟨0x12, writeSignedConfirmation, readSignedConfirmation⟩

end AuthenticatedSet.Codec
