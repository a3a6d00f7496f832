import AuthenticatedSet.Commitment.SignedConfirmation

/-!
# Different contents are hashed from different bytes

Five kinds of content go into BLAKE3. Their first bytes differ, numbers have a fixed width and
digests stand behind their length, so the bytes say which content they were made from. Only the
order of a pair is lost: its digests are sorted first. So whenever two contents get the same digest,
either they are the same, or the function that hashes them has been given two byte strings that it
does not tell apart. This holds of any function; the library's is BLAKE3.

* `Preimage.Same`       -- the same content, the order of a pair apart
* `Preimage.Measurable` -- digests whose length fits in front of them
* `Preimage.output`     -- what the library makes of a content
* `bytes_eq_iff`        -- the same bytes are the same content
* `hash_bytes_eq_iff`   -- what any function of the bytes tells apart
* `contents_separated`  -- the whole statement, for any function, and for BLAKE3 in the library
-/

namespace AuthenticatedSet

/-- Sorting two digests forgets which of them came first, and nothing else. -/
theorem Digest.sorted_eq_iff {a b c d : Digest} :
    sorted a b = sorted c d ↔ (a = c ∧ b = d) ∨ (a = d ∧ b = c) := by
  constructor
  · intro h
    unfold sorted at h
    split at h <;> split at h <;> obtain ⟨rfl, rfl⟩ := Prod.mk.inj h <;> simp
  · rintro (⟨rfl, rfl⟩ | ⟨rfl, rfl⟩)
    · rfl
    · exact sorted_comm _ _

namespace Preimage

/-- The same content: of the same kind and made from the same, the order of a pair apart. -/
inductive Same : Preimage → Preimage → Prop
  | refl (p : Preimage) : Same p p
  | swap (a b : Digest) : Same (.pair a b) (.pair b a)

/-- The length of every digest in the content fits into the 8 bytes in front of it. -/
def Measurable : Preimage → Prop
  | .pair a b => a.length < 18446744073709551616 ∧ b.length < 18446744073709551616
  | .confirmation _ digest => digest.length < 18446744073709551616
  | .leaf _ | .endMark | .seed _ => True

/-- What the library makes of a content: a digest of its hasher, the message that is signed for a
confirmation, or the secret of a key pair. -/
def output : Preimage → List UInt8
  | .leaf key => (Hasher.blake3.leaf key).bytes
  | .pair a b => (Hasher.blake3.combine a b).bytes
  | .endMark => Hasher.blake3.endMark.bytes
  | .confirmation version digest => (Confirmation.mk version digest).message
  | .seed value => (KeyPair.ofSeed value).secretKey.bytes.toList

variable {p q : Preimage} {a b c d : Digest} {v w : UInt64} {rest rest' : List UInt8}

/-! ## 1. Reading the parts back -/

theorem word_append_inj (h : word v ++ rest = word w ++ rest') : v = w ∧ rest = rest' := by
  have capacity : LittleEndian.capacity 8 = UInt64.size := rfl
  obtain ⟨same, rests⟩ := List.append_inj h (by simp [word])
  have decoded := congrArg LittleEndian.decode same
  rw [word, word, LittleEndian.decode_encode (capacity ▸ v.toNat_lt_size),
    LittleEndian.decode_encode (capacity ▸ w.toNat_lt_size)] at decoded
  exact ⟨UInt64.toNat_inj.mp decoded, rests⟩

/-- A digest behind its length is told apart from what follows. -/
theorem measured_append_inj (ha : a.length < 18446744073709551616)
    (hb : b.length < 18446744073709551616) (h : measured a ++ rest = measured b ++ rest') :
    a = b ∧ rest = rest' := by
  have capacity : LittleEndian.capacity 8 = 18446744073709551616 := rfl
  simp only [measured, List.append_assoc] at h
  obtain ⟨lengths, h⟩ := List.append_inj h (by simp)
  have length := congrArg LittleEndian.decode lengths
  rw [LittleEndian.decode_encode (capacity ▸ ha), LittleEndian.decode_encode (capacity ▸ hb)]
    at length
  obtain ⟨bytes, rests⟩ := List.append_inj h length
  exact ⟨congrArg Digest.mk bytes, rests⟩

/-! ## 2. Reading a content back -/

/-- The first byte, which tells the kinds apart. -/
def mark : Preimage → UInt8
  | .leaf _ => 0x00
  | .pair .. => 0x01
  | .endMark => 0x02
  | .confirmation .. => 0x03
  | .seed _ => 0x61

theorem head?_bytes (p : Preimage) : p.bytes.head? = some p.mark := by
  cases p with
  | seed value =>
    have label : seedLabel.head? = some 0x61 := by decide +kernel
    rw [bytes, List.head?_append, label]
    rfl
  | _ => rfl

theorem leaf_inj {k k' : Key} (h : (leaf k).bytes = (leaf k').bytes) : k = k' := by
  have words : word k.toUInt64 ++ [] = word k'.toUInt64 ++ [] := by
    simpa using (List.cons.inj h).2
  cases k; cases k'
  exact congrArg Int64.ofUInt64 (word_append_inj words).1

theorem seed_inj (h : (seed v).bytes = (seed w).bytes) : v = w := by
  have words : word v ++ [] = word w ++ [] := by
    simpa using List.append_cancel_left h
  exact (word_append_inj words).1

theorem confirmation_inj (ha : (confirmation v a).Measurable) (hb : (confirmation w b).Measurable)
    (h : (confirmation v a).bytes = (confirmation w b).bytes) : v = w ∧ a = b := by
  obtain ⟨version, h⟩ := word_append_inj (List.cons.inj h).2
  have digests : measured a ++ [] = measured b ++ [] := by simpa using h
  exact ⟨version, (measured_append_inj ha hb digests).1⟩

theorem Measurable.sorted (h : (pair a b).Measurable) :
    (Digest.sorted a b).1.length < 18446744073709551616 ∧
      (Digest.sorted a b).2.length < 18446744073709551616 := by
  unfold Digest.sorted
  split
  · exact h
  · exact h.symm

/-- The bytes of a pair determine its digests, but not which of them came first. -/
theorem pair_inj (hab : (pair a b).Measurable) (hcd : (pair c d).Measurable)
    (h : (pair a b).bytes = (pair c d).bytes) : (a = c ∧ b = d) ∨ (a = d ∧ b = c) := by
  have parts : measured (Digest.sorted a b).1 ++ measured (Digest.sorted a b).2 =
      measured (Digest.sorted c d).1 ++ measured (Digest.sorted c d).2 := (List.cons.inj h).2
  obtain ⟨smaller, h⟩ := measured_append_inj hab.sorted.1 hcd.sorted.1 parts
  have larger : measured (Digest.sorted a b).2 ++ [] = measured (Digest.sorted c d).2 ++ [] := by
    simpa using h
  exact Digest.sorted_eq_iff.mp
    (Prod.ext smaller (measured_append_inj hab.sorted.2 hcd.sorted.2 larger).1)

/-- **The same bytes are the same content.** -/
theorem bytes_eq_iff (hp : p.Measurable) (hq : q.Measurable) : p.bytes = q.bytes ↔ p.Same q := by
  constructor
  · intro h
    have marks : p.mark = q.mark := by
      have heads := congrArg List.head? h
      rw [head?_bytes, head?_bytes] at heads
      exact Option.some.inj heads
    cases p with
    | leaf k =>
      cases q with
      | leaf k' => exact leaf_inj h ▸ .refl _
      | _ => simp [mark] at marks
    | pair a b =>
      cases q with
      | pair c d =>
        rcases pair_inj hp hq h with ⟨rfl, rfl⟩ | ⟨rfl, rfl⟩
        · exact .refl _
        · exact .swap _ _
      | _ => simp [mark] at marks
    | endMark =>
      cases q with
      | endMark => exact .refl _
      | _ => simp [mark] at marks
    | confirmation v a =>
      cases q with
      | confirmation w b =>
        obtain ⟨rfl, rfl⟩ := confirmation_inj hp hq h
        exact .refl _
      | _ => simp [mark] at marks
    | seed v =>
      cases q with
      | seed w => exact seed_inj h ▸ .refl _
      | _ => simp [mark] at marks
  · rintro (_ | ⟨a, b⟩)
    · rfl
    · rw [bytes, bytes, Digest.sorted_comm]

/-! ## 3. What is made of the bytes -/

/-- A function gives the same for two different byte strings. -/
def CollidesOn {α : Type} (hash : List UInt8 → α) (bytes bytes' : List UInt8) : Prop :=
  bytes ≠ bytes' ∧ hash bytes = hash bytes'

/-- Whatever the bytes are hashed with: contents with the same digest are the same, or their bytes
collide. -/
theorem hash_bytes_eq_iff {α : Type} (hash : List UInt8 → α) (hp : p.Measurable)
    (hq : q.Measurable) :
    hash p.bytes = hash q.bytes ↔ p.Same q ∨ CollidesOn hash p.bytes q.bytes := by
  rw [← bytes_eq_iff hp hq, CollidesOn]
  constructor
  · intro h
    exact (Classical.em _).imp_right fun ne => ⟨ne, h⟩
  · rintro (h | ⟨-, h⟩)
    · rw [h]
    · exact h

/-- What the library makes of a content is the BLAKE3 digest of its bytes. -/
theorem output_eq (p : Preimage) : p.output = (Blake3.hash p.bytes).toList := by
  cases p with
  | leaf key => simp only [output, Hasher.blake3, Digest.ofVector, hash]
  | pair a b => simp only [output, Hasher.blake3, Digest.ofVector, hash]
  | endMark => simp only [output, Hasher.blake3, Digest.ofVector, hash]
  | confirmation version digest => rw [output, Confirmation.message, hash]
  | seed value => rw [output, KeyPair.ofSeed, KeyPair.ofSecret, hash]

end Preimage

/-! ## 4. The statement -/

open Preimage in
/-- **Contents are kept apart.** Of any two contents with digests shorter than 2^64 bytes the bytes
that are hashed are the same exactly when the contents are, the order of a pair apart. So whatever
function hashes these bytes, it gives the same for both exactly when they are the same or it
collides on their bytes. What the library makes of a content is the BLAKE3 digest of its bytes:
there the function is BLAKE3. A pair has one digest, whatever its order and however long its parts
are. -/
theorem contents_separated :
    (∀ p q : Preimage, p.Measurable → q.Measurable →
      (p.bytes = q.bytes ↔ p.Same q) ∧
      (∀ hash : List UInt8 → Vector UInt8 32,
        hash p.bytes = hash q.bytes ↔ p.Same q ∨ CollidesOn hash p.bytes q.bytes) ∧
      (p.output = q.output ↔ p.Same q ∨ CollidesOn Blake3.hash p.bytes q.bytes)) ∧
    (∀ p : Preimage, p.output = (Blake3.hash p.bytes).toList) ∧
    ∀ a b, Hasher.blake3.combine a b = Hasher.blake3.combine b a := by
  refine ⟨fun p q hp hq => ?_, output_eq, Hasher.blake3_commutative⟩
  refine ⟨bytes_eq_iff hp hq, fun hash => hash_bytes_eq_iff hash hp hq, ?_⟩
  rw [output_eq, output_eq, Vector.toList_inj]
  exact hash_bytes_eq_iff Blake3.hash hp hq

open Preimage in
/-- A byte moved from one digest of a pair to the other gives other bytes, and the same digest only
if BLAKE3 collides on them; the function that gives zeros for all bytes collides there. A digest and
a longer one that starts with it give the same in either order. -/
theorem contents_separated_sample :
    (pair ⟨[1, 2]⟩ ⟨[3]⟩).Measurable ∧ (pair ⟨[1]⟩ ⟨[2, 3]⟩).Measurable ∧
      (pair ⟨[1, 2]⟩ ⟨[3]⟩).bytes ≠ (pair ⟨[1]⟩ ⟨[2, 3]⟩).bytes ∧
      ((pair ⟨[1, 2]⟩ ⟨[3]⟩).output = (pair ⟨[1]⟩ ⟨[2, 3]⟩).output →
        CollidesOn Blake3.hash (pair ⟨[1, 2]⟩ ⟨[3]⟩).bytes (pair ⟨[1]⟩ ⟨[2, 3]⟩).bytes) ∧
      CollidesOn (fun _ => Vector.replicate 32 (0 : UInt8)) (pair ⟨[1, 2]⟩ ⟨[3]⟩).bytes
        (pair ⟨[1]⟩ ⟨[2, 3]⟩).bytes ∧
      (pair ⟨[1]⟩ ⟨[1, 2]⟩).bytes = (pair ⟨[1, 2]⟩ ⟨[1]⟩).bytes := by
  obtain ⟨separated, -⟩ := contents_separated
  have hp : (pair ⟨[1, 2]⟩ ⟨[3]⟩).Measurable := ⟨by decide, by decide⟩
  have hq : (pair ⟨[1]⟩ ⟨[2, 3]⟩).Measurable := ⟨by decide, by decide⟩
  have other : ¬ (pair ⟨[1, 2]⟩ ⟨[3]⟩).Same (pair ⟨[1]⟩ ⟨[2, 3]⟩) := nofun
  obtain ⟨bytes, hashes, outputs⟩ := separated _ _ hp hq
  have hr : (pair ⟨[1]⟩ ⟨[1, 2]⟩).Measurable := ⟨by decide, by decide⟩
  obtain ⟨swapped, -⟩ := separated _ (pair ⟨[1, 2]⟩ ⟨[1]⟩) hr hr.symm
  exact ⟨hp, hq, mt bytes.mp other, fun h => (outputs.mp h).resolve_left other,
    ((hashes fun _ => Vector.replicate 32 0).mp rfl).resolve_left other, swapped.mpr (.swap _ _)⟩

end AuthenticatedSet
