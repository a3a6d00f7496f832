/-!
# Bytes, part 2: bytes as text

Digests, keys and signatures are shown as lower-case hexadecimal, two digits a byte, no separator.
-/

namespace AuthenticatedSet.Hex

/-- The two lower-case hexadecimal digits of a byte. -/
def digits (byte : UInt8) : List Char :=
  [Nat.digitChar (byte.toNat / 16), Nat.digitChar (byte.toNat % 16)]

/-- Two lower-case hexadecimal digits for each byte, in order. -/
def encode (bytes : List UInt8) : String :=
  String.ofList (bytes.flatMap digits)

end AuthenticatedSet.Hex
