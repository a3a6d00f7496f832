import AuthenticatedSet.Bytes.Hex
import AuthenticatedSet.Bytes.LittleEndian

/-!
# Reading bytes, and why it fails

A decoder takes what it needs from the front of a byte string and leaves the rest, or names the
one cause for which it could not.

* `DecodeError`   -- the four causes, with their texts
* `Decoder`       -- a reader of bytes
* `Decoder.take`  -- exactly so many bytes; everything else is made of it
* `Decoder.times` -- the same thing a given number of times
-/

namespace AuthenticatedSet.Codec

/-! ## 1. Causes of failure -/

/-- Why bytes are not a message. -/
inductive DecodeError where
  /-- The bytes end although the field being read needs this many more. -/
  | truncated (needed : Nat)
  /-- The message starts with this tag, which belongs to another kind of message or to none. -/
  | unexpectedTag (tag : UInt8)
  /-- A truth value is this byte, neither 0 nor 1. -/
  | invalidFlag (flag : UInt8)
  /-- The message is complete and this many bytes follow. -/
  | trailingBytes (count : Nat)
deriving DecidableEq, Repr

namespace DecodeError

/-- A byte as `0x` and its two hexadecimal digits. -/
def hexByte (byte : UInt8) : String := "0x" ++ Hex.encode [byte]

/-- The cause, told to a reader. -/
def message : DecodeError → String
  | .truncated needed =>
    "unexpected end of input: needed " ++ toString needed ++ " more bytes"
  | .unexpectedTag tag => "unexpected message tag " ++ hexByte tag
  | .invalidFlag flag => "invalid presence flag " ++ hexByte flag
  | .trailingBytes count => toString count ++ " trailing bytes after message"

/-- The cause by name, with what it carries. -/
def render : DecodeError → String
  | .truncated needed => "Truncated \x7b needed: " ++ toString needed ++ " \x7d"
  | .unexpectedTag tag => "UnexpectedTag(" ++ toString tag.toNat ++ ")"
  | .invalidFlag flag => "InvalidFlag(" ++ toString flag.toNat ++ ")"
  | .trailingBytes count => "TrailingBytes(" ++ toString count ++ ")"

end DecodeError

/-! ## 2. Decoders -/

/-- A reader of bytes: from the bytes that are left, a value and the bytes left after it. -/
abbrev Decoder := StateT (List UInt8) (Except DecodeError)

namespace Decoder

/-- Exactly `count` bytes from the front. -/
def take (count : Nat) : Decoder (Vector UInt8 count) := fun bytes =>
  let front := bytes.take count
  if h : front.length = count then
    .ok (⟨front.toArray, by simpa using h⟩, bytes.drop count)
  else
    .error (.truncated (count - front.length))

/-- A little-endian number of `count` bytes. -/
def number (count : Nat) : Decoder Nat := do
  return LittleEndian.decode (← take count).toList

/-- A single byte. -/
def byte : Decoder UInt8 := do
  return (← take 1)[0]

/-- A truth value: the byte 0 or the byte 1. -/
def flag : Decoder Bool := do
  match ← byte with
  | 0 => return false
  | 1 => return true
  | other => throw (.invalidFlag other)

/-- This byte and no other. -/
def tag (expected : UInt8) : Decoder Unit := do
  let found ← byte
  if found ≠ expected then
    throw (.unexpectedTag found)

/-- `count` values in a row. It stops at the first one that fails, so a count that the bytes cannot
hold does no work. -/
def times {α : Type} (one : Decoder α) : Nat → Decoder (List α)
  | 0 => return []
  | count + 1 => do
    let first ← one
    let rest ← times one count
    return first :: rest

/-- Nothing is left. -/
def finish : Decoder Unit := fun bytes =>
  match bytes with
  | [] => .ok ((), [])
  | _ :: _ => .error (.trailingBytes bytes.length)

end Decoder

end AuthenticatedSet.Codec
