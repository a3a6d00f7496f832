import AuthenticatedSet.Proofs.Codec.Causes
import AuthenticatedSet.Proofs.Completeness

/-!
# What a remote verifier gets

Who keeps a set sends two messages to somebody who has neither the set nor any reason to believe in
it: the root digest, signed, and the proof for one key. Both arrive as they were sent, as nothing in
them is too long to be written: there are no more digests on a path than slots in the list, and each
of them is a leaf, an end or a pair of such digests. So what holds of the messages here holds there.

Of the bytes of a proof one says which claim it makes. Changed, it is refused, or it makes the
opposite claim, which the path does not support.

* `SignatureScheme.Honours`      -- every signature made by the pair holds
* `Hasher.Writable`              -- the hasher gives no digest that is too long
* `Carries.length_path_le`       -- the places of a path, counted
* `Carries.writable_proof`       -- every proof can be written
* `modify_flag_encode`           -- the bytes of a proof with its flag changed
* `Reachable.published_accepted` -- both messages, sent and checked
-/

namespace AuthenticatedSet

/-- Every signature that the pair makes in the scheme holds under its public key. -/
def SignatureScheme.Honours (scheme : SignatureScheme) (pair : KeyPair) : Prop :=
  ∀ message, scheme.verify pair.publicKey message (scheme.sign pair.secretKey message) = true

/-- The digests that the hasher gives for keys, for ends and for pairs of digests that can be written
can be written. -/
structure Hasher.Writable (h : Hasher) : Prop where
  leaf : ∀ k, (h.leaf k).Writable
  endMark : h.endMark.Writable
  combine : ∀ {a b : Digest}, a.Writable → b.Writable → (h.combine a b).Writable

variable {h : Hasher} {l : SkipList} {y : Layout} {k : Key}

/-! ## 1. Nothing in a proof is too long -/

theorem Hasher.Writable.ofBound (writable : h.Writable) (b : Bound) : (h.ofBound b).Writable := by
  cases b with
  | lower => exact writable.endMark
  | key k => exact writable.leaf k
  | upper => exact writable.endMark

theorem HashTerm.writable_digest (writable : h.Writable) (term : HashTerm) :
    (term.digest h).Writable := by
  induction term with
  | bound b => exact writable.ofBound b
  | pair left right first second => exact writable.combine first second

namespace Layout

variable {p : Bound → Bool} {height level : Nat} {b : Bound} {site reader : Site}
  {sites : List Site}

/-- The path of a search has no more places than the store has slots. -/
theorem Carries.length_path_le (hl : y.Carries l) (hp : Downward p) :
    (y.path p l.height).length ≤ l.store.nodes.size := by
  have nodup : (y.path p l.height).Nodup := by
    refine (hl.shaped.path_ordered hp).imp ?_
    rintro site _ before rfl
    exact before.asymm before
  exact hl.describes.length_le nodup fun site hs => (path_mem hp hs).1

theorem length_siblings_le (reader site : Site) : (y.siblings h reader site).length ≤ 1 := by
  unfold siblings
  split
  · cases (y.node reader.1 (y.next reader.1 reader.2)).share <;> simp [Share.sibling?]
  · split <;> simp

theorem length_siblingsAlong_le (site : Site) (sites : List Site) :
    (y.siblingsAlong h site sites).length ≤ sites.length := by
  induction sites generalizing site with
  | nil => exact le_rfl
  | cons reader rest ih =>
    have here := length_siblings_le (y := y) (h := h) reader site
    have further := ih reader
    rw [siblingsAlong, List.length_append, List.length_cons]
    omega

section Writable

variable (hl : y.Carries l) (current : y.Current h) (writable : h.Writable)

include hl current writable

/-- The digests of all places can be written. -/
theorem Carries.writable_digest (hb : b ∈ y.row level) (ne : b ≠ .upper) :
    (y.digest level b).Writable := by
  obtain ⟨term, -, digest⟩ := hl.describes.exists_spans hl.shaped current hb ne
  exact digest ▸ term.writable_digest writable

/-- What a place contributes to a path can be written. -/
theorem Carries.writable_share (hb : b ∈ y.row level) :
    ((y.node level b).share.digest h).Writable := by
  unfold Node.share
  split
  · exact writable.ofBound b
  · rename_i exposed
    have ne : b ≠ .upper := fun same => exposed ((hl.shaped.isCovered_iff hb).mpr (.inr same))
    exact hl.writable_digest current writable hb ne

theorem Carries.writable_siblings (hb : reader.2 ∈ y.row reader.1) (ne : reader.2 ≠ .upper) :
    ∀ d ∈ y.siblings h reader site, d.Writable := by
  intro d hd
  unfold siblings at hd
  split at hd
  · have share := hl.writable_share current writable (hl.shaped.next_mem hb)
    cases same : (y.node reader.1 (y.next reader.1 reader.2)).share with
    | covered b => simp [same, Share.sibling?] at hd
    | exposed digest =>
      rw [same] at share hd
      obtain rfl : d = digest := by simpa [Share.sibling?] using hd
      exact share
  · obtain ⟨level, b⟩ := reader
    cases level with
    | zero =>
      obtain rfl := List.mem_singleton.mp hd
      exact writable.ofBound b
    | succ m =>
      obtain rfl := List.mem_singleton.mp hd
      exact hl.writable_digest current writable (hl.shaped.nested hb) ne

theorem Carries.writable_siblingsAlong (mem : ∀ i ∈ sites, i.2 ∈ y.row i.1 ∧ i.2 ≠ .upper) :
    ∀ d ∈ y.siblingsAlong h site sites, d.Writable := by
  induction sites generalizing site with
  | nil => exact fun d hd => absurd hd List.not_mem_nil
  | cons reader rest ih =>
    intro d hd
    obtain ⟨hb, ne⟩ := mem reader List.mem_cons_self
    rcases List.mem_append.mp hd with here | further
    · exact hl.writable_siblings current writable hb ne d here
    · exact ih (fun i hi => mem i (List.mem_cons_of_mem _ hi)) d further

/-- **Every proof can be written**: neither it nor any digest in it is too long. -/
theorem Carries.writable_proof (k : Key) : (y.proof h l.version l.height k).Writable := by
  have hp := Reach.upTo.passes_downward k
  have hb := hl.shaped.reached_mem (p := Reach.upTo.passes k) hl.shaped.positive
  constructor
  · have places := hl.length_path_le hp
    have along := length_siblingsAlong_le (y := y) (h := h) (0, y.reached (Reach.upTo.passes k) 0)
      (y.path (Reach.upTo.passes k) l.height).tail
    have fits : l.store.nodes.size < 4294967295 := hl.describes.sound.fits
    rw [List.length_tail] at along
    simp only [proof, List.length_cons]
    omega
  · intro d hd
    simp only [proof, List.mem_cons] at hd
    rcases hd with rfl | rfl | hd
    · exact writable.ofBound _
    · exact hl.writable_share current writable (hl.shaped.next_mem hb)
    · exact hl.writable_siblingsAlong current writable
        (fun i hi => path_mem hp (List.mem_of_mem_tail hi)) d hd

end Writable

end Layout

/-! ## 2. The byte that makes the claim -/

namespace Codec

variable {mask : UInt8}

/-- A change at the end of the front. -/
theorem modify_append_cons {α : Type} (front back : List α) (a : α) (f : α → α) :
    (front ++ a :: back).modify front.length f = front ++ f a :: back := by
  induction front with
  | nil => rfl
  | cons first front ih => exact congrArg (first :: ·) ih

/-- The bytes of a proof: nine, its flag, and what follows it, whatever the flag is changed to. -/
theorem encode_membershipProof (p : MembershipProof) :
    ∃ front back, front.length = 9 ∧ front.head? = some membershipProof.tag ∧
      (∀ present : Bool, membershipProof.encode { p with present } =
        front ++ (if present then 1 else 0) :: back) ∧
      ∀ f, (membershipProof.encode p).modify 9 f =
        front ++ f (if p.present then 1 else 0) :: back := by
  have length : (membershipProof.tag :: LittleEndian.encode 8 p.version.toNat).length = 9 := by simp
  refine ⟨_, LittleEndian.encode 8 p.key.toUInt64.toNat ++ LittleEndian.encode 4 p.digests.length ++
      p.digests.flatMap writeDigest, length, rfl, fun _ => rfl, fun f => ?_⟩
  rw [← length]
  exact modify_append_cons _ _ _ f

/-- With the last bit of its flag turned, a proof makes the opposite claim. -/
theorem encode_modify_one (p : MembershipProof) :
    (membershipProof.encode p).modify 9 (· ^^^ 1) =
      membershipProof.encode { p with present := !p.present } := by
  obtain ⟨front, back, -, -, bytes, modified⟩ := encode_membershipProof p
  rw [modified, bytes]
  cases p.present <;> rfl

/-- With any other bits turned, it is refused because of its flag. -/
theorem decode_modify_flag (p : MembershipProof) (zero : mask ≠ 0) (one : mask ≠ 1) :
    membershipProof.decode ((membershipProof.encode p).modify 9 (· ^^^ mask)) =
      .error (.invalidFlag ((if p.present then 1 else 0) ^^^ mask)) := by
  obtain ⟨front, back, length, first, -, modified⟩ := encode_membershipProof p
  rw [modified, diagnoses_membershipProof.invalidFlag]
  refine ⟨by rw [List.head?_append, first]; rfl, 9, rfl, ?_, ?_⟩
  · rw [List.getElem?_append_right length.le, length]
    rfl
  · cases p.present with
    | true =>
      refine ⟨fun same => one (UInt8.xor_eq_zero_iff.mp same).symm, fun same => zero ?_⟩
      exact (UInt8.xor_right_inj 1).mp (same.trans UInt8.xor_zero.symm)
    | false => simpa using ⟨zero, one⟩

end Codec

/-! ## 3. The statement -/

open Codec

/-- A claim on a path that leads to the root digest is correct if it is made just where the path
starts at its key. -/
theorem Confirmation.verdict_of_correct {c : Confirmation} {p : MembershipProof}
    (path : c.pathVerdict p h = .correct) :
    c.verdict p h = if p.present = p.startsAtKey h then .correct else .incorrect := by
  rw [verdict, path]

/-- The opposite of a claim that is correct is incorrect. -/
theorem Confirmation.verdict_turned {c : Confirmation} {p : MembershipProof}
    (path : c.pathVerdict p h = .correct) (same : p.present = p.startsAtKey h) :
    c.verdict { p with present := !p.present } h = .incorrect := by
  have path' : c.pathVerdict { p with present := !p.present } h = .correct := path
  refine (verdict_of_correct path').trans (if_neg fun opposite => ?_)
  have opposite : (!p.present) = p.startsAtKey h := opposite
  exact Bool.not_ne_self _ (opposite.trans same.symm)

open Layout in
/-- Where no key is taken for its predecessor, a proof says whether its path starts at its key. -/
theorem Layout.Shaped.present_proof {height : Nat} (hy : y.Shaped height) (version : UInt64)
    (apart : k ∉ y.keys → ∀ b, IsPredecessor y.keys k b → h.leaf k ≠ h.ofBound b) :
    (y.proof h version height k).present = (y.proof h version height k).startsAtKey h := by
  have starts : (y.proof h version height k).startsAtKey h =
      decide (h.ofBound (y.reached (Reach.upTo.passes k) 0) = h.leaf k) := by
    simp [MembershipProof.startsAtKey, Layout.proof]
  rw [starts]
  refine decide_eq_decide.mpr ⟨fun found => by rw [found]; rfl, fun same => ?_⟩
  by_contra other
  have absent : .key k ∉ y.row 0 := fun mem => other (hy.reached_upTo_eq_iff.mpr mem)
  exact apart (fun mem => absent (mem_keys.mp mem)) _ (hy.isPredecessor_reached absent) same.symm

/-- **Publishing to a remote verifier.** Let the hasher not mind the order of a pair and give no
digest that is too long, and let every signature of the pair hold. Then the signed confirmation of a
reachable list arrives as one whose signature holds, and the proof for any key as one that is correct
under it and says whether the key is there. If no key that is not there is taken for its predecessor,
the claim of the proof is correct too. Turning any bits of its tenth byte leaves a proof that is
refused because of its flag, unless it is the last bit alone: then it makes a claim that is
incorrect. -/
theorem Reachable.published_accepted (comm : h.Commutative) (writable : h.Writable)
    (reach : Reachable h l) {scheme : SignatureScheme} {pair : KeyPair}
    (honours : scheme.Honours pair) (k : Key) :
    ∃ c p keys s q, l.confirmation = .ok c ∧ l.prove h k = .ok p ∧ l.keys = .ok keys ∧
      signedConfirmation.decode (signedConfirmation.encode (c.signIn scheme pair)) = .ok s ∧
      s.isAuthenticIn scheme = true ∧
      membershipProof.decode (membershipProof.encode p) = .ok q ∧
      s.pathVerdictIn scheme q h = .correct ∧ l.contains k = .ok q.present ∧
      (∀ mask, mask ≠ 0 → mask ≠ 1 →
        membershipProof.decode ((membershipProof.encode p).modify 9 (· ^^^ mask)) =
          .error (.invalidFlag ((if p.present then 1 else 0) ^^^ mask))) ∧
      membershipProof.decode ((membershipProof.encode p).modify 9 (· ^^^ 1)) =
        .ok { q with present := !q.present } ∧
      ((k ∉ keys → ∀ b, IsPredecessor keys k b → h.leaf k ≠ h.ofBound b) →
        s.confirmation.verdict q h = .correct ∧
          s.confirmation.verdict { q with present := !q.present } h = .incorrect) := by
  obtain ⟨y, hl, current⟩ := reach.exists_layout
  have hy := hl.shaped
  have path : Confirmation.pathVerdict ⟨l.version, y.digest (l.height - 1) .lower⟩
      (y.proof h l.version l.height k) h = .correct := by
    rw [Confirmation.pathVerdict, if_pos (hy.impliedRoot_proof comm current l.version k)]
    exact if_neg (UInt64.lt_irrefl _)
  have authentic := honours (Confirmation.message ⟨l.version, y.digest (l.height - 1) .lower⟩)
  -- what is sent can be written, so it arrives as it is
  have root := hl.writable_digest current writable hl.top_lower_mem Bound.lower_lt_upper.ne
  have proof := hl.writable_proof current writable k
  have turned : MembershipProof.Writable { y.proof h l.version l.height k with
    present := !(y.proof h l.version l.height k).present } := proof
  refine ⟨_, _, _, _, _, hl.confirmation, hl.prove h k, hl.keys,
    (Format.decode_eq_ok_iff reads_signedConfirmation).mpr ⟨root, rfl⟩, authentic,
    (Format.decode_eq_ok_iff reads_membershipProof).mpr ⟨proof, rfl⟩, ?_, ?_,
    fun mask zero one => decode_modify_flag _ zero one,
    (Format.decode_eq_ok_iff reads_membershipProof).mpr ⟨turned, encode_modify_one _⟩, ?_⟩
  · exact (if_pos authentic).trans path
  · rw [hl.contains]
    exact congrArg Except.ok (decide_eq_decide.mpr hy.reached_upTo_eq_iff.symm)
  · intro apart
    have same := hy.present_proof l.version apart
    exact ⟨(Confirmation.verdict_of_correct path).trans (if_pos same),
      Confirmation.verdict_turned path same⟩

/-- Ed25519, in which the signatures of one pair hold because they are its own. -/
def SignatureScheme.trusting (pair : KeyPair) : SignatureScheme where
  sign := ed25519.sign
  verify key message signature := ed25519.verify key message signature ||
    decide (key = pair.publicKey ∧ signature = ed25519.sign pair.secretKey message)

theorem SignatureScheme.trusting_honours (pair : KeyPair) : (trusting pair).Honours pair := by
  intro message
  simp [trusting]

theorem Hasher.byteSum_writable : Hasher.byteSum.Writable where
  leaf _ := show 1 < 4294967296 by decide
  endMark := show 0 < 4294967296 by decide
  combine _ _ := show 1 < 4294967296 by decide

/-- The root digest and the proof of 3, signed by the pair of the number 1. -/
theorem published_accepted_sample :
    Hasher.byteSum.Commutative ∧ Hasher.byteSum.Writable ∧ Reachable .byteSum sample ∧
      (SignatureScheme.trusting (.ofSeed 1)).Honours (.ofSeed 1) ∧
      ∃ s q, signedConfirmation.decode (signedConfirmation.encode
          (Confirmation.signIn ⟨3, ⟨[5]⟩⟩ (.trusting (.ofSeed 1)) (.ofSeed 1))) = .ok s ∧
        s.isAuthenticIn (.trusting (.ofSeed 1)) = true ∧
        membershipProof.decode (membershipProof.encode ⟨3, true, 3, [⟨[3]⟩, ⟨[]⟩, ⟨[]⟩]⟩) = .ok q ∧
        s.confirmation.verdict q .byteSum = .correct ∧
        s.confirmation.verdict { q with present := !q.present } .byteSum = .incorrect := by
  have honours := SignatureScheme.trusting_honours (.ofSeed 1)
  obtain ⟨c, p, keys, s, q, confirmed, proved, all, signed, authentic, sent, -, -, -, -, verdicts⟩ :=
    Reachable.published_accepted Hasher.byteSum_commutative Hasher.byteSum_writable
      reachable_sample honours 3
  have root : sample.confirmation = .ok ⟨3, ⟨[5]⟩⟩ := by decide +kernel
  have path : sample.prove .byteSum 3 = .ok ⟨3, true, 3, [⟨[3]⟩, ⟨[]⟩, ⟨[]⟩]⟩ := by decide +kernel
  have members : sample.keys = .ok [3] := by decide +kernel
  obtain rfl := Except.ok.inj (root.symm.trans confirmed)
  obtain rfl := Except.ok.inj (path.symm.trans proved)
  obtain rfl := Except.ok.inj (members.symm.trans all)
  obtain ⟨correct, incorrect⟩ := verdicts fun absent => absurd (List.mem_singleton_self 3) absent
  exact ⟨Hasher.byteSum_commutative, Hasher.byteSum_writable, reachable_sample, honours, s, q, signed,
    authentic, sent, correct, incorrect⟩

end AuthenticatedSet
