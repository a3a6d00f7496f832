import AuthenticatedSet.Codec.Format
import AuthenticatedSet.Proofs.Store

/-!
# Messages and bytes determine each other

Every message of which all counts fit into 32 bits is written as bytes from which just this message
is read, and whatever is read is such a message, written in just these bytes. So there is one
spelling of a message: no other bytes are read as it.

Each decoder of a field is the inverse of a writer. What it takes off the front of a byte string is
what is written of the value it answers; the rest of the string is left as it is.

* `Decoder.Reads`      -- a decoder takes what a writer writes, and nothing else
* `Reads.run_bind`     -- a field in front of what is read next
* `reads_take`, `reads_number`, `reads_flag`, `reads_times`, `reads_digest` -- the fields
* `Format.Faithful`    -- messages and bytes determine each other
* `Format.faithful`    -- they do if the decoder of the fields takes what their writer writes
* `formats_faithful`   -- the three formats
-/

namespace AuthenticatedSet

/-! ## 1. Messages that can be written -/

/-- The length of the digest fits into 32 bits. -/
def Digest.Writable (d : Digest) : Prop := d.length < 4294967296

def Confirmation.Writable (c : Confirmation) : Prop := c.digest.Writable

/-- The number of digests and all their lengths fit into 32 bits. -/
def MembershipProof.Writable (p : MembershipProof) : Prop :=
  p.digests.length < 4294967296 ∧ ∀ d ∈ p.digests, d.Writable

def SignedConfirmation.Writable (s : SignedConfirmation) : Prop := s.confirmation.Writable

namespace Codec

/-! ## 2. Decoders and writers -/

namespace Decoder

variable {α β : Type} {decoder one : Decoder α} {next : α → Decoder β} {P : α → Prop}
  {write : α → List UInt8} {bytes rest : List UInt8} {value value' : β} {count : Nat}

/-- The decoder takes off the front what is written of some value with the property, and nothing
else. -/
def Reads (decoder : Decoder α) (P : α → Prop) (write : α → List UInt8) : Prop :=
  ∀ bytes value rest, decoder.run bytes = .ok (value, rest) ↔
    P value ∧ bytes = write value ++ rest

theorem run_pure_eq_ok_iff : (pure value : Decoder β).run bytes = .ok (value', rest) ↔
    value = value' ∧ bytes = rest := by
  rw [StateT.run_pure, pure_eq_ok, Except.ok.injEq, Prod.mk.injEq]

/-- **A field in front**: what is read next starts behind what is written of the field. -/
theorem Reads.run_bind (reads : decoder.Reads P write) :
    (decoder >>= next).run bytes = .ok (value, rest) ↔
      ∃ field behind, P field ∧ bytes = write field ++ behind ∧
        (next field).run behind = .ok (value, rest) := by
  rw [StateT.run_bind, bind_eq_ok_iff]
  refine ⟨fun read => ?_, fun written => ?_⟩
  · obtain ⟨⟨field, behind⟩, ok, ok'⟩ := read
    obtain ⟨holds, same⟩ := (reads _ _ _).mp ok
    exact ⟨field, behind, holds, same, ok'⟩
  · obtain ⟨field, behind, holds, same, ok'⟩ := written
    exact ⟨(field, behind), (reads _ _ _).mpr ⟨holds, same⟩, ok'⟩

/-! ## 3. Fields -/

theorem reads_take (count : Nat) : (take count).Reads (fun _ => True) Vector.toList := by
  intro bytes value rest
  rw [true_and]
  show take count bytes = _ ↔ _
  unfold take
  dsimp only
  split
  · rename_i full
    rw [Except.ok.injEq, Prod.mk.injEq]
    refine ⟨fun read => ?_, fun written => ?_⟩
    · obtain ⟨rfl, rfl⟩ := read
      exact (List.take_append_drop count bytes).symm
    · subst written
      have length : value.toList.length = count := value.size_toArray
      exact ⟨Vector.toList_inj.mp (List.take_left' length), List.drop_left' length⟩
  · rename_i short
    refine iff_of_false (by simp) ?_
    rintro rfl
    exact short (by simp)

theorem reads_number (count : Nat) :
    (number count).Reads (· < LittleEndian.capacity count) (LittleEndian.encode count) := by
  intro bytes value rest
  rw [number, (reads_take count).run_bind]
  simp only [run_pure_eq_ok_iff, true_and]
  refine ⟨fun read => ?_, fun written => ?_⟩
  · obtain ⟨digits, behind, rfl, rfl, rfl⟩ := read
    have length : digits.toList.length = count := digits.size_toArray
    have small := LittleEndian.decode_lt digits.toList
    have same := LittleEndian.encode_decode digits.toList
    rw [length] at small same
    exact ⟨small, by rw [same]⟩
  · obtain ⟨small, rfl⟩ := written
    exact ⟨LittleEndian.toVector count value, rest, by simp,
      by rw [LittleEndian.toList_toVector, LittleEndian.decode_encode small], rfl⟩

theorem reads_byte : byte.Reads (fun _ => True) fun b => [b] := by
  intro bytes value rest
  rw [byte, (reads_take 1).run_bind]
  simp only [run_pure_eq_ok_iff, true_and]
  refine ⟨fun read => ?_, fun written => ?_⟩
  · obtain ⟨digits, behind, rfl, rfl, rfl⟩ := read
    have length : digits.toList.length = 1 := digits.size_toArray
    obtain ⟨b, single⟩ := List.length_eq_one_iff.mp length
    have first : digits[0] = b := by simp [← Vector.getElem_toList, single]
    rw [single, first]
  · subst written
    exact ⟨#v[value], rest, rfl, rfl, rfl⟩

/-- The byte of a truth value. -/
theorem reads_flag : flag.Reads (fun _ => True) fun b => [if b then 1 else 0] := by
  intro bytes value rest
  rw [flag, reads_byte.run_bind]
  simp only [true_and]
  refine ⟨fun read => ?_, fun written => ?_⟩
  · obtain ⟨b, behind, rfl, ok⟩ := read
    split at ok
    · obtain ⟨rfl, rfl⟩ := run_pure_eq_ok_iff.mp ok
      rfl
    · obtain ⟨rfl, rfl⟩ := run_pure_eq_ok_iff.mp ok
      rfl
    · cases ok
  · subst written
    refine ⟨_, rest, rfl, ?_⟩
    cases value <;> rfl

theorem reads_tag (expected : UInt8) :
    (tag expected).Reads (fun _ => True) fun _ => [expected] := by
  intro bytes value rest
  rw [tag, reads_byte.run_bind]
  simp only [true_and]
  refine ⟨fun read => ?_, fun written => ?_⟩
  · obtain ⟨found, behind, rfl, ok⟩ := read
    split at ok
    · cases ok
    · rename_i same
      obtain ⟨-, rfl⟩ := run_pure_eq_ok_iff.mp ok
      rw [not_not.mp same]
  · subst written
    exact ⟨expected, rest, rfl, by simp⟩

/-- Behind the end nothing is read on. -/
theorem run_finish_bind {next : Unit → Decoder β} :
    (finish >>= next).run bytes = .ok (value, rest) ↔
      bytes = [] ∧ (next ()).run [] = .ok (value, rest) := by
  cases bytes with
  | nil => exact (and_iff_right rfl).symm
  | cons byte bytes => exact iff_of_false (nomatch ·) (nomatch ·.1)

theorem reads_times (reads : one.Reads P write) (count : Nat) :
    (times one count).Reads (fun values => values.length = count ∧ ∀ value ∈ values, P value)
      (·.flatMap write) := by
  induction count with
  | zero =>
    intro bytes values rest
    rw [times, run_pure_eq_ok_iff]
    refine ⟨fun read => ?_, fun written => ?_⟩
    · obtain ⟨rfl, rfl⟩ := read
      simp
    · obtain ⟨⟨none, -⟩, rfl⟩ := written
      obtain rfl := List.length_eq_zero_iff.mp none
      simp
  | succ count ih =>
    intro bytes values rest
    rw [times, reads.run_bind]
    simp only [ih.run_bind, run_pure_eq_ok_iff]
    refine ⟨fun read => ?_, fun written => ?_⟩
    · obtain ⟨first, behind, holds, rfl, others, behind', ⟨length, all⟩, rfl, rfl, rfl⟩ := read
      exact ⟨⟨congrArg (· + 1) length, List.forall_mem_cons.mpr ⟨holds, all⟩⟩, by simp⟩
    · obtain ⟨⟨length, all⟩, rfl⟩ := written
      obtain ⟨first, others, rfl⟩ := List.exists_cons_of_length_eq_add_one length
      obtain ⟨holds, all⟩ := List.forall_mem_cons.mp all
      exact ⟨first, _, holds, by simp, others, rest, ⟨Nat.succ.inj length, all⟩, rfl, rfl, rfl⟩

end Decoder

open Decoder

theorem reads_digest : readDigest.Reads Digest.Writable writeDigest := by
  intro bytes digest rest
  rw [readDigest, (reads_number 4).run_bind]
  simp only [(reads_take _).run_bind, run_pure_eq_ok_iff, true_and]
  refine ⟨fun read => ?_, fun written => ?_⟩
  · obtain ⟨length, behind, small, rfl, content, behind', rfl, rfl, rfl⟩ := read
    have size : (Digest.ofVector content).length = length := content.size_toArray
    refine ⟨lt_of_eq_of_lt size small, ?_⟩
    rw [writeDigest, size, List.append_assoc]
    rfl
  · obtain ⟨small, rfl⟩ := written
    refine ⟨digest.length, _, small, List.append_assoc _ _ _, ?_⟩
    exact ⟨⟨digest.bytes.toArray, List.size_toArray⟩, rest, rfl, rfl, rfl⟩

/-! ## 4. The fields of each message -/

theorem reads_confirmation : readConfirmation.Reads Confirmation.Writable writeConfirmation := by
  intro bytes c rest
  rw [readConfirmation, (reads_number 8).run_bind]
  simp only [reads_digest.run_bind, run_pure_eq_ok_iff]
  refine ⟨fun read => ?_, fun written => ?_⟩
  · obtain ⟨version, behind, small, rfl, digest, behind', writable, rfl, rfl, rfl⟩ := read
    refine ⟨writable, ?_⟩
    rw [writeConfirmation, UInt64.toNat_ofNat_of_lt' small, List.append_assoc]
  · obtain ⟨writable, rfl⟩ := written
    refine ⟨c.version.toNat, _, c.version.toNat_lt, List.append_assoc _ _ _, ?_⟩
    exact ⟨c.digest, rest, writable, rfl, by rw [UInt64.ofNat_toNat], rfl⟩

theorem reads_membershipProof :
    readMembershipProof.Reads MembershipProof.Writable writeMembershipProof := by
  intro bytes p rest
  rw [readMembershipProof, (reads_number 8).run_bind]
  simp only [reads_flag.run_bind, (reads_number _).run_bind, (reads_times reads_digest _).run_bind,
    run_pure_eq_ok_iff, true_and]
  refine ⟨fun read => ?_, fun written => ?_⟩
  · obtain ⟨version, behind1, small, rfl, present, behind2, rfl, key, behind3, small', rfl,
      count, behind4, few, rfl, digests, behind5, ⟨rfl, writable⟩, rfl, rfl, rfl⟩ := read
    refine ⟨⟨few, writable⟩, ?_⟩
    rw [writeMembershipProof, UInt64.toNat_ofNat_of_lt' small, UInt64.toUInt64_toInt64,
      UInt64.toNat_ofNat_of_lt' small']
    simp
  · obtain ⟨⟨few, writable⟩, rfl⟩ := written
    have fields : writeMembershipProof p ++ rest = LittleEndian.encode 8 p.version.toNat ++
        ([if p.present then 1 else 0] ++ (LittleEndian.encode 8 p.key.toUInt64.toNat ++
          (LittleEndian.encode 4 p.digests.length ++ (p.digests.flatMap writeDigest ++ rest)))) := by
      simp [writeMembershipProof]
    rw [fields]
    exact ⟨p.version.toNat, _, p.version.toNat_lt, rfl, p.present, _, rfl, p.key.toUInt64.toNat, _,
      p.key.toUInt64.toNat_lt, rfl, p.digests.length, _, few, rfl, p.digests, rest,
      ⟨rfl, writable⟩, rfl,
      by rw [UInt64.ofNat_toNat, UInt64.ofNat_toNat, Int64.toInt64_toUInt64], rfl⟩

theorem reads_signedConfirmation :
    readSignedConfirmation.Reads SignedConfirmation.Writable writeSignedConfirmation := by
  intro bytes s rest
  rw [readSignedConfirmation, (reads_take 32).run_bind]
  simp only [(reads_take 64).run_bind, reads_confirmation.run_bind, run_pure_eq_ok_iff, true_and]
  refine ⟨fun read => ?_, fun written => ?_⟩
  · obtain ⟨author, behind, rfl, signature, behind', rfl, c, behind'', writable, rfl, rfl, rfl⟩ :=
      read
    refine ⟨writable, ?_⟩
    simp [writeSignedConfirmation]
  · obtain ⟨writable, rfl⟩ := written
    exact ⟨s.author.bytes, _, by simp [writeSignedConfirmation], s.signature.bytes, _, rfl,
      s.confirmation, rest, writable, rfl, rfl, rfl⟩

/-! ## 5. Whole messages -/

namespace Format

variable {α : Type} {format : Format α} {Writable : α → Prop}

/-- Messages and bytes determine each other. -/
structure Faithful (format : Format α) (Writable : α → Prop) : Prop where
  /-- Bytes are read as a message that can be written exactly if they are what is written of it. -/
  decode_iff : ∀ bytes message, Writable message →
    (format.decode bytes = .ok message ↔ bytes = format.encode message)
  /-- No other message is read. -/
  writable : ∀ bytes message, format.decode bytes = .ok message → Writable message
  /-- Bytes that have been changed are refused, or are another message. -/
  apart : ∀ bytes bytes' message, format.decode bytes = .ok message → bytes' ≠ bytes →
    format.decode bytes' ≠ .ok message

/-- **Whole messages**: the tag, what the fields are, and nothing behind them. -/
theorem decode_eq_ok_iff (reads : format.read.Reads Writable format.write) {bytes : List UInt8}
    {message : α} :
    format.decode bytes = .ok message ↔ Writable message ∧ bytes = format.encode message := by
  have run : format.decode bytes = .ok message ↔
      ∃ rest, format.whole.run bytes = .ok (message, rest) := by
    rw [decode, StateT.run'_eq]
    cases format.whole.run bytes with
    | error e => simp
    | ok found => simp [Prod.ext_iff]
  rw [run]
  simp only [whole, (reads_tag _).run_bind, reads.run_bind, run_finish_bind, run_pure_eq_ok_iff,
    true_and]
  refine ⟨fun read => ?_, fun written => ?_⟩
  · obtain ⟨rest, -, behind, rfl, read, rest', writable, rfl, rfl, rfl, rfl⟩ := read
    exact ⟨writable, by simp [encode]⟩
  · obtain ⟨writable, rfl⟩ := written
    exact ⟨[], (), _, rfl, message, [], writable, (List.append_nil _).symm, rfl, rfl, rfl⟩

theorem faithful (reads : format.read.Reads Writable format.write) : format.Faithful Writable where
  decode_iff bytes message writable := by
    rw [decode_eq_ok_iff reads, and_iff_right writable]
  writable bytes message ok := ((decode_eq_ok_iff reads).mp ok).1
  apart bytes bytes' message ok other ok' :=
    other (((decode_eq_ok_iff reads).mp ok').2.trans ((decode_eq_ok_iff reads).mp ok).2.symm)

end Format

/-- **In all three formats messages and bytes determine each other**, for confirmations, membership
proofs and signed confirmations whose counts fit into 32 bits: what is written is read as the same
message, what is read is written in the same bytes, and changed bytes are refused or are another
message. -/
theorem formats_faithful :
    confirmation.Faithful Confirmation.Writable ∧
      membershipProof.Faithful MembershipProof.Writable ∧
      signedConfirmation.Faithful SignedConfirmation.Writable :=
  ⟨Format.faithful reads_confirmation, Format.faithful reads_membershipProof,
    Format.faithful reads_signedConfirmation⟩

example : confirmation.encode ⟨2, ⟨[0xaa, 0xbb]⟩⟩ =
    [0x10, 2, 0, 0, 0, 0, 0, 0, 0, 2, 0, 0, 0, 0xaa, 0xbb] := by decide

end Codec

end AuthenticatedSet
