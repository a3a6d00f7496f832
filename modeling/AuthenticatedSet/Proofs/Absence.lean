import AuthenticatedSet.Proofs.Binding

/-!
# Which claims of absence are accepted

A path does not say which gap between two keys it stands in, and it does not have to start at a
bound. So a claim of absence is accepted on any path that leads up from some part of the root term:
from a bound, from a pair deep inside, or from the whole term, whose path is the root digest alone.
What is refused is the path that starts at the leaf of the claimed key itself. As long as nothing
that was evaluated collides, these are all the paths that are accepted, whoever made them.

* `Opens.foldl_siblings`             -- the path of any part leads to the digest of the whole
* `CollisionFree.exists_opens`       -- a path that leads there is that of some part
* `Reachable.absence_accepted_iff`   -- the whole statement
-/

namespace AuthenticatedSet

variable {h : Hasher} {P : HashInput → Prop} {part whole : HashTerm} {siblings rest : List Digest}
  {first : Digest} {p : MembershipProof} {k : Key}

namespace HashTerm

/-- **The path of a part leads to the digest of the whole**, if the hasher does not mind the order
of a pair: a path does not say on which side its siblings stand. -/
theorem Opens.foldl_siblings (comm : h.Commutative) (opens : part.Opens h whole siblings) :
    siblings.foldl h.combine (part.digest h) = whole.digest h := by
  induction opens with
  | here => rfl
  | left _ ih =>
    rw [List.foldl_append, ih]
    rfl
  | right _ ih =>
    rw [List.foldl_append, ih]
    exact comm _ _

end HashTerm

/-- A path that leads to the digest of a term is that of one of its parts, if nothing collides. -/
theorem CollisionFree.exists_opens (free : CollisionFree h P)
    (path : ∀ x ∈ h.foldInputs first rest, P x) (term : ∀ x ∈ whole.inputs h, P x)
    (leads : rest.foldl h.combine first = whole.digest h) :
    ∃ part : HashTerm, part.Opens h whole rest ∧ first = part.digest h :=
  (whole.opens_or_collide h first rest leads).resolve_right (free.not_collide path term)

/-- The leaf of a key is the digest of no other term, if nothing collides. -/
theorem CollisionFree.leaf_eq_digest_iff (free : CollisionFree h P) (leaf : P (.leaf k))
    (term : ∀ x ∈ whole.inputs h, P x) :
    h.leaf k = whole.digest h ↔ whole = .bound (.key k) := by
  constructor
  · intro same
    refine (whole.eq_bound_or_collide k same).resolve_right (free.not_collide ?_ term)
    exact fun x hx => List.mem_singleton.mp hx ▸ leaf
  · intro same
    rw [same]
    rfl

theorem MembershipProof.inputs_of_digests (digests : p.digests = first :: rest) :
    p.inputs h = .leaf p.key :: h.foldInputs first rest := by
  rw [inputs, digests]

/-- **Exactly which claims of absence are accepted**, whoever made them: a claim that is not older
than the list, with the path of any part of the root term other than the leaf of the claimed key, if
no two different inputs that the check of the claim and the digest rule over the list have evaluated
have the same digest. The path of a part is its digest, followed by the siblings met on the way up
to the root. -/
theorem Reachable.absence_accepted_iff {l : SkipList} (comm : h.Commutative)
    (reach : Reachable h l) :
    ∃ c term, l.confirmation = .ok c ∧ l.store.Spans l.top.lower term ∧
      ∀ p : MembershipProof, p.present = false →
        CollisionFree h (fun x => x ∈ p.inputs h ∨ l.Evaluates h x) →
        (c.verdict p h = .correct ↔ l.version ≤ p.version ∧
          ∃ (part : HashTerm) (siblings : List Digest), part.Opens h term siblings ∧
            part ≠ .bound (.key p.key) ∧ p.digests = part.digest h :: siblings) := by
  obtain ⟨y, hl, current⟩ := reach.exists_layout
  obtain ⟨term, spans, digest⟩ := hl.exists_spans_top current
  refine ⟨_, term, hl.confirmation, spans, fun p absent free => ?_⟩
  have leaf : HashInput.leaf p.key ∈ p.inputs h := List.mem_cons_self
  have evaluated : ∀ x ∈ term.inputs h, x ∈ p.inputs h ∨ l.Evaluates h x :=
    fun x hx => .inr (hl.evaluates current .top spans x hx)
  rw [Confirmation.verdict_eq_correct_iff, absent, digest, UInt64.not_lt]
  refine and_congr_right fun _ => ⟨?_, ?_⟩
  · intro accepted
    obtain ⟨root, starts⟩ := accepted
    obtain ⟨first, rest, digests, leads⟩ := MembershipProof.leads_of_impliedRoot root
    have path : ∀ x ∈ h.foldInputs first rest, x ∈ p.inputs h ∨ l.Evaluates h x := fun x hx =>
      .inl (MembershipProof.inputs_of_digests digests ▸ List.mem_cons_of_mem _ hx)
    obtain ⟨part, opens, rfl⟩ := free.exists_opens path evaluated leads
    refine ⟨part, rest, opens, fun same => ?_, digests⟩
    subst same
    have := (MembershipProof.startsAtKey_iff (h := h) digests).mpr rfl
    rw [← starts] at this
    cases this
  · intro path
    obtain ⟨part, siblings, opens, other, digests⟩ := path
    constructor
    · rw [MembershipProof.impliedRoot, digests]
      exact congrArg some (opens.foldl_siblings comm)
    · refine (Bool.eq_false_iff.mpr fun starts => other ?_).symm
      have start := (MembershipProof.startsAtKey_iff digests).mp starts
      exact (free.leaf_eq_digest_iff (.inl leaf)
        fun x hx => evaluated x (opens.inputs_subset hx)).mp start.symm

/-- That 7 is not in the list of 3 alone is accepted on a path that starts at the pair of 3 and the
right end, and so names no bound at all; its version is that of a later list. -/
theorem absence_accepted_iff_sample :
    Hasher.byteSum.Commutative ∧ Reachable .byteSum sample ∧
      CollisionFree .byteSum (fun x =>
        x ∈ MembershipProof.inputs ⟨9, false, 7, [⟨[4]⟩, ⟨[]⟩]⟩ .byteSum ∨
          sample.Evaluates .byteSum x) ∧
      ∃ c term, sample.confirmation = .ok c ∧ sample.store.Spans sample.top.lower term ∧
        c.verdict ⟨9, false, 7, [⟨[4]⟩, ⟨[]⟩]⟩ .byteSum = .correct ∧
        ∃ (part : HashTerm) (siblings : List Digest), part.Opens .byteSum term siblings ∧
          part ≠ .bound (.key 7) ∧ [⟨[4]⟩, ⟨[]⟩] = part.digest .byteSum :: siblings := by
  have free : CollisionFree .byteSum (fun x =>
      x ∈ MembershipProof.inputs ⟨9, false, 7, [⟨[4]⟩, ⟨[]⟩]⟩ .byteSum ∨
        sample.Evaluates .byteSum x) :=
    .of_list (fun _ hx => List.mem_append.mpr (hx.imp_right (·.mem_inputs))) (by decide +kernel)
  obtain ⟨c, term, confirmed, spans, accepted⟩ :=
    Reachable.absence_accepted_iff Hasher.byteSum_commutative reachable_sample
  have root : sample.confirmation = .ok ⟨3, ⟨[5]⟩⟩ := by decide +kernel
  obtain rfl := Except.ok.inj (root.symm.trans confirmed)
  have correct : Confirmation.verdict ⟨3, ⟨[5]⟩⟩ ⟨9, false, 7, [⟨[4]⟩, ⟨[]⟩]⟩ .byteSum =
      .correct := by decide +kernel
  exact ⟨Hasher.byteSum_commutative, reachable_sample, free, _, term, confirmed, spans, correct,
    ((accepted _ rfl free).mp correct).2⟩

end AuthenticatedSet
