import AuthenticatedSet.Proofs.Codec

/-!
# What the causes of failure say

A message can fail to be read for four causes, and each says what is wrong with the bytes as a whole,
although it is met by one field of many: the first byte is no tag of this kind of message, the flag
is no truth value, a message is complete and bytes follow, or the bytes are the start of a message.
In the last case the number that is asked for is exact as far as the bytes tell: fewer bytes more
never are enough, and what they are does not change what is asked for.

This is said of decoders first, where it passes from two fields to both in a row: what the one has
read stays read when more bytes come, and the other one asks for them.

* `Decoder.ShortBy`    -- the bytes end inside what is read, by this many
* `Decoder.BadFlag`    -- a byte that is no truth value stands where the flag is
* `Decoder.Explains`   -- a decoder fails for these two causes only
* `Decoder.Fixed`      -- a decoder that takes as many bytes of any content
* `Explains.bind`, `Fixed.bind` -- two fields in a row
* `Format.Diagnoses`   -- what the four causes say about a message
* `formats_diagnose`   -- they do for the three formats
-/

namespace AuthenticatedSet.Codec

namespace Decoder

variable {α β : Type} {decoder one : Decoder α} {next : α → Decoder β} {value : α} {value' : β}
  {bytes rest more : List UInt8} {cause : DecodeError} {place place' : Option Nat}
  {needed width : Nat} {f : UInt8}

/-! ## 1. How a decoder fails -/

/-- The bytes end inside what is read. With fewer bytes more than are needed they still do, by so
many fewer, and some bytes complete them. -/
structure ShortBy (decoder : Decoder α) (bytes : List UInt8) (needed : Nat) : Prop where
  positive : 0 < needed
  fewer : ∀ more : List UInt8, more.length < needed →
    decoder.run (bytes ++ more) = .error (.truncated (needed - more.length))
  completed : ∃ more value, decoder.run (bytes ++ more) = .ok (value, [])

/-- A byte that is no truth value stands at the place of the flag, if there is a flag. -/
def BadFlag (place : Option Nat) (bytes : List UInt8) (f : UInt8) : Prop :=
  ∃ i ∈ place, bytes[i]? = some f ∧ f ≠ 0 ∧ f ≠ 1

/-- The decoder fails only where the bytes end too early, or because of the flag at this place; and
it reads from the front, whatever follows. -/
structure Explains (decoder : Decoder α) (place : Option Nat) : Prop where
  suffix : ∀ {bytes value rest}, decoder.run bytes = .ok (value, rest) → rest <:+ bytes
  append : ∀ {bytes value rest}, decoder.run bytes = .ok (value, rest) →
    ∀ more, decoder.run (bytes ++ more) = .ok (value, rest ++ more)
  short : ∀ {bytes needed}, decoder.run bytes = .error (.truncated needed) →
    decoder.ShortBy bytes needed
  flag : ∀ {bytes f}, decoder.run bytes = .error (.invalidFlag f) ↔ BadFlag place bytes f
  causes : ∀ {bytes cause}, decoder.run bytes = .error cause →
    (∃ needed, cause = .truncated needed) ∨ ∃ f, cause = .invalidFlag f

theorem not_badFlag_none : ¬ BadFlag none bytes f := by
  rintro ⟨i, hi, -⟩
  cases hi

theorem not_badFlag_nil : ¬ BadFlag place [] f := by
  rintro ⟨i, -, byte, -⟩
  cases byte

/-- A place behind so many bytes. -/
theorem badFlag_map_append : BadFlag (place.map (bytes.length + ·)) (bytes ++ rest) f ↔
    BadFlag place rest f := by
  cases place with
  | none => exact iff_of_false not_badFlag_none not_badFlag_none
  | some i => simp [BadFlag, List.getElem?_append_right]

theorem BadFlag.append (bad : BadFlag place bytes f) (more : List UInt8) :
    BadFlag place (bytes ++ more) f := by
  obtain ⟨i, hi, byte, other⟩ := bad
  refine ⟨i, hi, ?_, other⟩
  rw [List.getElem?_append_left (List.getElem?_eq_some_iff.mp byte).1, byte]

/-- Some bytes are just what is read. -/
theorem Explains.exists_run (explains : decoder.Explains place) :
    ∃ bytes value, decoder.run bytes = .ok (value, []) := by
  cases run : decoder.run [] with
  | ok found =>
    obtain ⟨value, rest⟩ := found
    obtain rfl := List.suffix_nil.mp (explains.suffix run)
    exact ⟨[], value, run⟩
  | error cause =>
    rcases explains.causes run with ⟨needed, rfl⟩ | ⟨f, rfl⟩
    · exact (explains.short run).completed
    · exact absurd (explains.flag.mp run) not_badFlag_nil

/-! ## 2. Two decoders in a row -/

theorem run_bind_of_ok (ok : decoder.run bytes = .ok (value, rest)) :
    (decoder >>= next).run bytes = (next value).run rest := by
  rw [StateT.run_bind, ok]
  rfl

theorem run_bind_of_error (error : decoder.run bytes = .error cause) :
    (decoder >>= next).run bytes = .error cause := by
  rw [StateT.run_bind, error]
  rfl

/-- Either of the two fails. -/
theorem run_bind_eq_error_iff : (decoder >>= next).run bytes = .error cause ↔
    decoder.run bytes = .error cause ∨
      ∃ value rest, decoder.run bytes = .ok (value, rest) ∧
        (next value).run rest = .error cause := by
  cases run : decoder.run bytes with
  | error cause' => simp [run_bind_of_error run]
  | ok found =>
    obtain ⟨value, rest⟩ := found
    simp [run_bind_of_ok run]

/-- What the second one needs, both need. -/
theorem ShortBy.bind (explains : decoder.Explains place)
    (ok : decoder.run bytes = .ok (value, rest)) (short : (next value).ShortBy rest needed) :
    (decoder >>= next).ShortBy bytes needed where
  positive := short.positive
  fewer more few := by
    rw [run_bind_of_ok (explains.append ok more)]
    exact short.fewer more few
  completed := by
    obtain ⟨more, value', ok'⟩ := short.completed
    exact ⟨more, value', (run_bind_of_ok (explains.append ok more)).trans ok'⟩

/-- What the first one needs, both need: once it is complete, the second one can be completed. -/
theorem ShortBy.bind_first (explains : decoder.Explains place)
    (second : ∀ value, (next value).Explains place') (short : decoder.ShortBy bytes needed) :
    (decoder >>= next).ShortBy bytes needed where
  positive := short.positive
  fewer more few := run_bind_of_error (short.fewer more few)
  completed := by
    obtain ⟨more, value, ok⟩ := short.completed
    obtain ⟨behind, value', ok'⟩ := (second value).exists_run
    refine ⟨more ++ behind, value', ?_⟩
    rw [← List.append_assoc, run_bind_of_ok (explains.append ok behind)]
    exact ok'

/-- **Two decoders in a row**, as long as it is known when the flag of one of them is bad. -/
theorem Explains.bind_of_flag {whole : Option Nat} (first : decoder.Explains place)
    (second : ∀ value, (next value).Explains place')
    (flag : ∀ {bytes f}, (decoder >>= next).run bytes = .error (.invalidFlag f) ↔
      BadFlag whole bytes f) : (decoder >>= next).Explains whole where
  suffix {bytes value' rest} ok := by
    rw [StateT.run_bind] at ok
    obtain ⟨⟨value, behind⟩, ok, ok'⟩ := bind_eq_ok_iff.mp ok
    exact ((second value).suffix ok').trans (first.suffix ok)
  append {bytes value' rest} ok more := by
    rw [StateT.run_bind] at ok
    obtain ⟨⟨value, behind⟩, ok, ok'⟩ := bind_eq_ok_iff.mp ok
    exact (run_bind_of_ok (first.append ok more)).trans ((second value).append ok' more)
  short {bytes needed} error := by
    rcases run_bind_eq_error_iff.mp error with error | ⟨value, rest, ok, error⟩
    · exact (first.short error).bind_first first second
    · exact ((second value).short error).bind first ok
  flag := flag
  causes {bytes cause} error := by
    rcases run_bind_eq_error_iff.mp error with error | ⟨value, rest, -, error⟩
    · exact first.causes error
    · exact (second value).causes error

/-- **A flag in the first one only.** -/
theorem Explains.bind (first : decoder.Explains place)
    (second : ∀ value, (next value).Explains none) : (decoder >>= next).Explains place :=
  first.bind_of_flag second fun {bytes f} => by
    rw [run_bind_eq_error_iff, first.flag]
    refine or_iff_left ?_
    rintro ⟨value, rest, -, error⟩
    exact not_badFlag_none ((second value).flag.mp error)

theorem explains_pure (value : α) : (pure value : Decoder α).Explains none where
  suffix ok := (run_pure_eq_ok_iff.mp ok).2 ▸ List.suffix_rfl
  append ok more := by
    obtain ⟨rfl, rfl⟩ := run_pure_eq_ok_iff.mp ok
    rfl
  short := nofun
  flag := iff_of_false nofun not_badFlag_none
  causes := nofun

/-! ## 3. Fields -/

/-- The decoder takes so many bytes, whatever they are. -/
structure Fixed (decoder : Decoder α) (width : Nat) : Prop where
  enough : ∀ front : List UInt8, front.length = width →
    ∃ value, ∀ rest, decoder.run (front ++ rest) = .ok (value, rest)
  short : ∀ bytes : List UInt8, bytes.length < width →
    decoder.run bytes = .error (.truncated (width - bytes.length))

namespace Fixed

/-- What it has read has that width. -/
theorem exists_front (fixed : decoder.Fixed width) (ok : decoder.run bytes = .ok (value, rest)) :
    ∃ front : List UInt8, front.length = width ∧ bytes = front ++ rest ∧
      ∀ rest', decoder.run (front ++ rest') = .ok (value, rest') := by
  have le : width ≤ bytes.length := by
    by_contra few
    rw [fixed.short bytes (Nat.not_le.mp few)] at ok
    cases ok
  have length : (bytes.take width).length = width := List.length_take_of_le le
  obtain ⟨value', run⟩ := fixed.enough _ length
  have same := run (bytes.drop width)
  rw [List.take_append_drop, ok] at same
  obtain ⟨rfl, rfl⟩ := Prod.mk.inj (Except.ok.inj same)
  exact ⟨_, length, (List.take_append_drop width bytes).symm, run⟩

/-- It fails only for lack of bytes. -/
theorem lt_of_error (fixed : decoder.Fixed width) (error : decoder.run bytes = .error cause) :
    bytes.length < width ∧ cause = .truncated (width - bytes.length) := by
  have few : bytes.length < width := by
    by_contra le
    obtain ⟨value, run⟩ := fixed.enough _ (List.length_take_of_le (Nat.not_lt.mp le))
    have ok := run (bytes.drop width)
    rw [List.take_append_drop, error] at ok
    cases ok
  rw [fixed.short bytes few] at error
  exact ⟨few, (Except.error.inj error).symm⟩

theorem explains (fixed : decoder.Fixed width) : decoder.Explains none where
  suffix ok := by
    obtain ⟨front, -, rfl, -⟩ := fixed.exists_front ok
    exact List.suffix_append front _
  append ok more := by
    obtain ⟨front, -, rfl, run⟩ := fixed.exists_front ok
    rw [List.append_assoc]
    exact run _
  short {bytes needed} error := by
    obtain ⟨few, same⟩ := fixed.lt_of_error error
    obtain rfl := DecodeError.truncated.inj same
    refine ⟨by omega, fun more less => ?_, ?_⟩
    · rw [fixed.short _ (by rw [List.length_append]; omega), List.length_append, Nat.sub_sub]
    · obtain ⟨value, run⟩ := fixed.enough (bytes ++ List.replicate (width - bytes.length) 0)
        (by simp; omega)
      exact ⟨_, value, by simpa using run []⟩
  flag := iff_of_false (fun error => nomatch (fixed.lt_of_error error).2) not_badFlag_none
  causes error := .inl ⟨_, (fixed.lt_of_error error).2⟩

/-- **A flag in the second one only**, behind what the first one takes. -/
theorem bind (first : decoder.Fixed width) (second : ∀ value, (next value).Explains place) :
    (decoder >>= next).Explains (place.map (width + ·)) :=
  first.explains.bind_of_flag second fun {bytes f} => by
    constructor
    · intro failed
      rcases run_bind_eq_error_iff.mp failed with error | ⟨value, rest, ok, error⟩
      · cases (first.lt_of_error error).2
      · obtain ⟨front, rfl, rfl, -⟩ := first.exists_front ok
        exact badFlag_map_append.mpr ((second value).flag.mp error)
    · intro bad
      have le : width ≤ bytes.length := by
        obtain ⟨i, hi, byte, -⟩ := bad
        obtain ⟨j, -, rfl⟩ := Option.map_eq_some_iff.mp hi
        have := (List.getElem?_eq_some_iff.mp byte).1
        omega
      obtain ⟨front, rest, rfl, rfl⟩ : ∃ front rest, bytes = front ++ rest ∧ front.length = width :=
        ⟨_, _, (List.take_append_drop width bytes).symm, List.length_take_of_le le⟩
      obtain ⟨value, run⟩ := first.enough front rfl
      rw [run_bind_of_ok (run rest)]
      exact (second value).flag.mpr (badFlag_map_append.mp bad)

theorem map (fixed : decoder.Fixed width) (g : α → β) :
    (decoder >>= fun value => pure (g value)).Fixed width where
  enough front length := by
    obtain ⟨value, run⟩ := fixed.enough front length
    exact ⟨g value, fun rest => (run_bind_of_ok (run rest)).trans rfl⟩
  short bytes few := run_bind_of_error (fixed.short bytes few)

end Fixed

theorem fixed_take (count : Nat) : (take count).Fixed count where
  enough front length :=
    ⟨⟨front.toArray, by simpa using length⟩, fun rest =>
      (reads_take count _ _ _).mpr ⟨trivial, by simp [Vector.toList]⟩⟩
  short bytes few := by
    have length : (bytes.take count).length = bytes.length := by
      rw [List.length_take]
      omega
    show take count bytes = _
    unfold take
    rw [dif_neg (by omega), length]

theorem fixed_number (count : Nat) : (number count).Fixed count := (fixed_take count).map _

theorem run_flag_nil : flag.run [] = .error (.truncated 1) := rfl

theorem run_flag_cons (b : UInt8) (rest : List UInt8) : flag.run (b :: rest) =
    if b = 0 then .ok (false, rest) else if b = 1 then .ok (true, rest)
    else .error (.invalidFlag b) := by
  have read : byte.run (b :: rest) = .ok (b, rest) := (reads_byte _ _ _).mpr ⟨trivial, rfl⟩
  rw [flag, run_bind_of_ok read]
  split
  · rfl
  · rfl
  · rename_i other0 other1
    rw [if_neg other0, if_neg other1]
    rfl

/-- A byte is all that a flag needs, and says what is wrong with it. -/
theorem run_flag_eq_error_iff : flag.run bytes = .error cause ↔
    (bytes = [] ∧ cause = .truncated 1) ∨ ∃ f, cause = .invalidFlag f ∧ BadFlag (some 0) bytes f := by
  cases bytes with
  | nil => simp [run_flag_nil, not_badFlag_nil, eq_comm]
  | cons b rest =>
    rw [run_flag_cons]
    split
    · simp_all [BadFlag]
    · split
      · simp_all [BadFlag]
      · simp_all [BadFlag, eq_comm]

theorem explains_flag : flag.Explains (some 0) where
  suffix {bytes value rest} ok := by
    obtain ⟨-, rfl⟩ := (reads_flag _ _ _).mp ok
    exact List.suffix_append _ _
  append {bytes value rest} ok more := by
    obtain ⟨-, rfl⟩ := (reads_flag _ _ _).mp ok
    exact (reads_flag _ _ _).mpr ⟨trivial, List.append_assoc _ _ _⟩
  short {bytes needed} error := by
    rcases run_flag_eq_error_iff.mp error with ⟨rfl, same⟩ | ⟨f, same, -⟩
    · obtain rfl := DecodeError.truncated.inj same
      refine ⟨Nat.one_pos, fun more few => ?_, [0], false, rfl⟩
      obtain rfl := List.length_eq_zero_iff.mp (Nat.lt_one_iff.mp few)
      rfl
    · cases same
  flag {bytes f} := by
    rw [run_flag_eq_error_iff]
    simp
  causes {bytes cause} error := by
    rcases run_flag_eq_error_iff.mp error with ⟨-, same⟩ | ⟨f, same, -⟩
    · exact .inl ⟨1, same⟩
    · exact .inr ⟨f, same⟩

theorem explains_times (explains : one.Explains none) (count : Nat) :
    (times one count).Explains none := by
  induction count with
  | zero => exact explains_pure []
  | succ count ih => exact explains.bind fun first => ih.bind fun rest => explains_pure _

end Decoder

open Decoder

theorem explains_digest : readDigest.Explains none :=
  (fixed_number 4).bind fun length => (fixed_take length).bind fun _ => explains_pure _

theorem explains_confirmation : readConfirmation.Explains none :=
  (fixed_number 8).bind fun _ => explains_digest.bind fun _ => explains_pure _

/-- The flag stands behind the version. -/
theorem explains_membershipProof : readMembershipProof.Explains (some 8) :=
  (fixed_number 8).bind fun _ => explains_flag.bind fun _ => (fixed_number 8).bind fun _ =>
    (fixed_number 4).bind fun count => (explains_times explains_digest count).bind
      fun _ => explains_pure _

theorem explains_signedConfirmation : readSignedConfirmation.Explains none :=
  (fixed_take 32).bind fun _ => (fixed_take 64).bind fun _ => explains_confirmation.bind
    fun _ => explains_pure _

/-! ## 4. Whole messages -/

namespace Format

variable {α : Type} {format : Format α} {Writable : α → Prop} {place : Option Nat}
  {bytes fields more : List UInt8} {message : α} {cause : DecodeError} {t : UInt8} {needed : Nat}

/-- The bytes are those of a message that can be written. -/
def IsEncoding (format : Format α) (Writable : α → Prop) (bytes : List UInt8) : Prop :=
  ∃ message, Writable message ∧ bytes = format.encode message

/-- What the causes of failure say about the bytes of a message, whose flag, if it has one, is at
this place. -/
structure Diagnoses (format : Format α) (Writable : α → Prop) (place : Option Nat) : Prop where
  /-- The first byte is not the tag of the format. -/
  unexpectedTag : ∀ bytes t, format.decode bytes = .error (.unexpectedTag t) ↔
    bytes.head? = some t ∧ t ≠ format.tag
  /-- The first byte is the tag, and the flag is no truth value, whatever follows. -/
  invalidFlag : ∀ bytes f, format.decode bytes = .error (.invalidFlag f) ↔
    bytes.head? = some format.tag ∧ BadFlag place bytes f
  /-- So many bytes follow a whole message. -/
  trailingBytes : ∀ bytes count, format.decode bytes = .error (.trailingBytes count) ↔
    ∃ front behind, bytes = front ++ behind ∧ format.IsEncoding Writable front ∧
      behind.length = count ∧ 0 < count
  /-- The bytes are the start of a message, without its end. -/
  truncated : ∀ bytes, (∃ needed, format.decode bytes = .error (.truncated needed)) ↔
    ∃ behind, behind ≠ [] ∧ format.IsEncoding Writable (bytes ++ behind)
  /-- Some bytes are needed; fewer than are needed leave the message short by as many fewer; and no
  message that starts with the bytes goes on for fewer. -/
  needed : ∀ bytes needed, format.decode bytes = .error (.truncated needed) → 0 < needed ∧
    (∀ more : List UInt8, more.length < needed →
      format.decode (bytes ++ more) = .error (.truncated (needed - more.length))) ∧
    ∀ behind, format.IsEncoding Writable (bytes ++ behind) → needed ≤ behind.length

theorem decode_nil (format : Format α) : format.decode [] = .error (.truncated 1) := rfl

theorem decode_cons_of_ne (format : Format α) (fields : List UInt8) (ne : t ≠ format.tag) :
    format.decode (t :: fields) = .error (.unexpectedTag t) := by
  have read : byte.run (t :: fields) = .ok (t, fields) := (reads_byte _ _ _).mpr ⟨trivial, rfl⟩
  have tagged : (Decoder.tag format.tag).run (t :: fields) = .error (.unexpectedTag t) := by
    rw [Decoder.tag, run_bind_of_ok read, if_pos ne]
    rfl
  rw [decode, StateT.run'_eq, whole, run_bind_of_error tagged]
  rfl

/-- Behind the tag stand the fields, and nothing behind them. -/
theorem decode_tag_cons (format : Format α) (fields : List UInt8) :
    format.decode (format.tag :: fields) = match format.read.run fields with
      | .error cause => .error cause
      | .ok (message, []) => .ok message
      | .ok (_, byte :: rest) => .error (.trailingBytes (byte :: rest).length) := by
  have tagged : (Decoder.tag format.tag).run (format.tag :: fields) = .ok ((), fields) :=
    (reads_tag _ _ _ _).mpr ⟨trivial, rfl⟩
  rw [decode, StateT.run'_eq, whole, run_bind_of_ok tagged]
  cases run : format.read.run fields with
  | error cause =>
    rw [run_bind_of_error run]
    rfl
  | ok found =>
    obtain ⟨message, rest⟩ := found
    rw [run_bind_of_ok run]
    cases rest <;> rfl

/-- Where whole messages fail: without a byte, at the tag, within the fields, or behind them. -/
theorem decode_eq_error_iff : format.decode bytes = .error cause ↔
    (bytes = [] ∧ cause = .truncated 1) ∨
    (∃ t fields, bytes = t :: fields ∧ t ≠ format.tag ∧ cause = .unexpectedTag t) ∨
    (∃ fields, bytes = format.tag :: fields ∧ format.read.run fields = .error cause) ∨
    (∃ fields message behind, bytes = format.tag :: fields ∧
      format.read.run fields = .ok (message, behind) ∧ behind ≠ [] ∧
      cause = .trailingBytes behind.length) := by
  cases bytes with
  | nil => simp [decode_nil, eq_comm]
  | cons t fields =>
    by_cases ne : t = format.tag
    · subst ne
      rw [decode_tag_cons]
      cases run : format.read.run fields with
      | error cause' => simp [run]
      | ok found =>
        obtain ⟨message, behind⟩ := found
        cases behind <;> simp [run, eq_comm]
    · simp [decode_cons_of_ne format fields ne, ne, eq_comm]

theorem decode_of_fields_error (error : format.read.run fields = .error cause) :
    format.decode (format.tag :: fields) = .error cause :=
  decode_eq_error_iff.mpr (.inr (.inr (.inl ⟨fields, rfl, error⟩)))

/-- With fewer bytes more than are needed, bytes that are short are so by so many fewer. -/
theorem truncated_append (explains : format.read.Explains place)
    (failed : format.decode bytes = .error (.truncated needed)) :
    0 < needed ∧ ∀ more : List UInt8, more.length < needed →
      format.decode (bytes ++ more) = .error (.truncated (needed - more.length)) := by
  rcases decode_eq_error_iff.mp failed with ⟨rfl, same⟩ | ⟨t, fields, -, -, same⟩ |
    ⟨fields, rfl, error⟩ | ⟨_, _, _, -, -, -, same⟩
  · obtain rfl := DecodeError.truncated.inj same
    refine ⟨Nat.one_pos, fun more few => ?_⟩
    obtain rfl := List.length_eq_zero_iff.mp (Nat.lt_one_iff.mp few)
    rfl
  · cases same
  · have short := explains.short error
    exact ⟨short.positive, fun more few => decode_of_fields_error (short.fewer more few)⟩
  · cases same

section Diagnoses

variable (reads : format.read.Reads Writable format.write) (explains : format.read.Explains place)

include reads

/-- What is read to its end are the fields of a message. -/
theorem isEncoding_of_run (ok : format.read.run fields = .ok (message, [])) :
    format.IsEncoding Writable (format.tag :: fields) := by
  obtain ⟨writable, rfl⟩ := (reads _ _ _).mp ok
  exact ⟨message, writable, congrArg _ (List.append_nil _)⟩

/-- A message starts with its tag, and its fields are read to their end. -/
theorem IsEncoding.exists_run (encoding : format.IsEncoding Writable (t :: fields)) :
    t = format.tag ∧ ∃ message, format.read.run fields = .ok (message, []) := by
  obtain ⟨message, writable, same⟩ := encoding
  obtain ⟨rfl, rfl⟩ := List.cons.inj same
  exact ⟨rfl, message, (reads _ _ _).mpr ⟨writable, (List.append_nil _).symm⟩⟩

include explains

/-- Bytes are short exactly if they are the start of a message, without its end. -/
theorem truncated_iff : (∃ needed, format.decode bytes = .error (.truncated needed)) ↔
    ∃ behind, behind ≠ [] ∧ format.IsEncoding Writable (bytes ++ behind) := by
  constructor
  · rintro ⟨needed, failed⟩
    rcases decode_eq_error_iff.mp failed with ⟨rfl, -⟩ | ⟨t, fields, -, -, same⟩ |
      ⟨fields, rfl, error⟩ | ⟨_, _, _, -, -, -, same⟩
    · obtain ⟨fields, message, ok⟩ := explains.exists_run
      exact ⟨format.tag :: fields, by simp, isEncoding_of_run reads ok⟩
    · cases same
    · obtain ⟨behind, message, ok⟩ := (explains.short error).completed
      refine ⟨behind, ?_, isEncoding_of_run reads ok⟩
      rintro rfl
      rw [List.append_nil, error] at ok
      cases ok
    · cases same
  · rintro ⟨behind, more, encoding⟩
    cases bytes with
    | nil => exact ⟨1, rfl⟩
    | cons t fields =>
      rw [List.cons_append] at encoding
      obtain ⟨rfl, message, ok⟩ := IsEncoding.exists_run reads encoding
      cases run : format.read.run fields with
      | ok found =>
        obtain ⟨message', rest⟩ := found
        have ok' := explains.append run behind
        rw [ok] at ok'
        obtain ⟨-, same⟩ := Prod.mk.inj (Except.ok.inj ok')
        exact absurd (List.append_eq_nil_iff.mp same.symm).2 more
      | error cause =>
        rcases explains.causes run with ⟨needed, rfl⟩ | ⟨f, rfl⟩
        · exact ⟨needed, decode_of_fields_error run⟩
        · rw [explains.flag.mpr ((explains.flag.mp run).append behind)] at ok
          cases ok

variable (place) in
/-- **The causes of failure say what is wrong with a message**, whatever its fields are, if their
decoder takes what their writer writes, and fails only for lack of bytes or because of a flag. -/
theorem diagnoses : format.Diagnoses Writable (place.map (1 + ·)) where
  unexpectedTag bytes t := by
    constructor
    · intro failed
      rcases decode_eq_error_iff.mp failed with ⟨-, same⟩ | ⟨t', fields, rfl, ne, same⟩ |
        ⟨fields, -, error⟩ | ⟨_, _, _, -, -, -, same⟩
      · cases same
      · obtain rfl := DecodeError.unexpectedTag.inj same
        exact ⟨rfl, ne⟩
      · rcases explains.causes error with ⟨needed, same⟩ | ⟨f, same⟩ <;> cases same
      · cases same
    · rintro ⟨first, ne⟩
      obtain ⟨fields, rfl⟩ := List.head?_eq_some_iff.mp first
      exact decode_cons_of_ne format fields ne
  invalidFlag bytes f := by
    constructor
    · intro failed
      rcases decode_eq_error_iff.mp failed with ⟨-, same⟩ | ⟨t', fields, -, -, same⟩ |
        ⟨fields, rfl, error⟩ | ⟨_, _, _, -, -, -, same⟩
      · cases same
      · cases same
      · have bad : BadFlag (place.map ([format.tag].length + ·)) ([format.tag] ++ fields) f :=
          badFlag_map_append.mpr (explains.flag.mp error)
        exact ⟨rfl, bad⟩
      · cases same
    · rintro ⟨first, bad⟩
      obtain ⟨fields, rfl⟩ := List.head?_eq_some_iff.mp first
      have bad : BadFlag (place.map ([format.tag].length + ·)) ([format.tag] ++ fields) f := bad
      exact decode_of_fields_error (explains.flag.mpr (badFlag_map_append.mp bad))
  trailingBytes bytes count := by
    constructor
    · intro failed
      rcases decode_eq_error_iff.mp failed with ⟨-, same⟩ | ⟨t', fields, -, -, same⟩ |
        ⟨fields, rfl, error⟩ | ⟨fields, message, behind, rfl, ok, more, same⟩
      · cases same
      · cases same
      · rcases explains.causes error with ⟨needed, same⟩ | ⟨f, same⟩ <;> cases same
      · obtain rfl := DecodeError.trailingBytes.inj same
        obtain ⟨writable, rfl⟩ := (reads _ _ _).mp ok
        exact ⟨_, behind, rfl, ⟨message, writable, rfl⟩, rfl, List.length_pos_iff.mpr more⟩
    · rintro ⟨front, behind, rfl, ⟨message, writable, rfl⟩, rfl, more⟩
      have ok : format.read.run (format.write message ++ behind) = .ok (message, behind) :=
        (reads _ _ _).mpr ⟨writable, rfl⟩
      exact decode_eq_error_iff.mpr (.inr (.inr (.inr ⟨_, message, behind, rfl, ok,
        List.length_pos_iff.mp more, rfl⟩)))
  truncated bytes := truncated_iff reads explains
  needed bytes needed failed := by
    obtain ⟨positive, fewer⟩ := truncated_append explains failed
    refine ⟨positive, fewer, fun behind ⟨message, writable, same⟩ => ?_⟩
    by_contra few
    have ok := (decode_eq_ok_iff reads).mpr ⟨writable, same⟩
    rw [fewer behind (Nat.not_le.mp few)] at ok
    cases ok

end Diagnoses

end Format

/-- The flag of a membership proof stands behind its tag and its version. -/
theorem diagnoses_membershipProof : membershipProof.Diagnoses MembershipProof.Writable (some 9) :=
  Format.diagnoses (some 8) reads_membershipProof explains_membershipProof

/-- **The causes of failure mean what they say**, in all three formats, for any bytes. An unexpected
tag is the first byte. An invalid flag stands behind tag and version of a membership proof, and
nowhere else. Trailing bytes follow a whole message. And truncated bytes are those that a message
starts with and goes on from: some more are needed, fewer than are asked for leave as many fewer to
ask for, and no message that starts with these bytes goes on for fewer. -/
theorem formats_diagnose :
    confirmation.Diagnoses Confirmation.Writable none ∧
      membershipProof.Diagnoses MembershipProof.Writable (some 9) ∧
      signedConfirmation.Diagnoses SignedConfirmation.Writable none :=
  ⟨Format.diagnoses none reads_confirmation explains_confirmation,
    diagnoses_membershipProof,
    Format.diagnoses none reads_signedConfirmation explains_signedConfirmation⟩

/-- The flag is looked at before the fields behind it, which these bytes do not have. -/
example : membershipProof.decode [0x11, 0, 0, 0, 0, 0, 0, 0, 0, 7] = .error (.invalidFlag 7) := by
  decide +kernel

end AuthenticatedSet.Codec
