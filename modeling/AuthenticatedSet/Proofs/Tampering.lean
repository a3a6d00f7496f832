import AuthenticatedSet.Proofs.Absence

/-!
# A path with one edit is refused

Take the proof that a list gives for a key, and replace one digest of its path by another one, leave
one out, or put one in, at any place. What is left does not lead to the root digest, unless two
different inputs that were evaluated have one digest.

What stands behind the edit cancels, as each pair leaves open only its other half. A digest replaced
would then be equal to its replacement. A digest put in or left out would leave a pair with the same
digest as one of its own halves; this is the digest of some part of the root term, and no part of a
term has the digest of a smaller one.

* `SingleEdit`                        -- one entry of a list replaced, left out or put in
* `CollisionFree.foldl_cancel`        -- what stands behind an edit cancels
* `CollisionFree.ne_digest_of_pair`   -- no half of a pair has the digest of the pair
* `CollisionFree.eq_of_replaced`, `.not_leads_of_inserted` -- the two kinds of edits
* `Reachable.single_edit_refused`     -- the whole statement

Two edits can undo each other: the first two digests of a path can be exchanged, as a path does not
say which one is on the left.
-/

namespace AuthenticatedSet

/-- The lists differ by one edit: an entry replaced by another one, left out, or put in. -/
inductive SingleEdit {α : Type} : List α → List α → Prop
  | replace (front : List α) {a b : α} (back : List α) (differ : a ≠ b) :
      SingleEdit (front ++ a :: back) (front ++ b :: back)
  | remove (front : List α) (a : α) (back : List α) :
      SingleEdit (front ++ a :: back) (front ++ back)
  | insert (front : List α) (a : α) (back : List α) :
      SingleEdit (front ++ back) (front ++ a :: back)

namespace Hasher

/-- The pairs that folding a path evaluates. -/
def pathInputs (h : Hasher) : List Digest → List HashInput
  | [] => []
  | first :: rest => h.foldInputs first rest

variable {h : Hasher} {front back : List Digest} {first d root : Digest}

theorem leads_cons : h.Leads (first :: back) root ↔ back.foldl h.combine first = root := by
  constructor
  · intro h
    obtain ⟨_, _, same, leads⟩ := h
    cases same
    exact leads
  · exact fun leads => ⟨first, back, rfl, leads⟩

theorem leads_append : h.Leads (first :: (front ++ back)) root ↔
    back.foldl h.combine (front.foldl h.combine first) = root := by
  rw [leads_cons, List.foldl_append]

/-- Folding the back of a path evaluates no more than folding the whole path. -/
theorem back_subset_pathInputs (h : Hasher) (first : Digest) (front back : List Digest) :
    h.foldInputs (front.foldl h.combine first) back ⊆ h.pathInputs (first :: (front ++ back)) := by
  rw [pathInputs, foldInputs_append]
  exact List.subset_append_right _ _

end Hasher

variable {h : Hasher} {P : HashInput → Prop} {whole left right : HashTerm} {a b root : Digest}
  {front back : List Digest}

/-! ## 1. No part has the digest of the whole -/

namespace HashTerm

/-- How many pairs a term has. -/
def pairs : HashTerm → Nat
  | bound _ => 0
  | pair left right => left.pairs + right.pairs + 1

theorem Alike.pairs_eq {term term' : HashTerm} (alike : term.Alike term') :
    term.pairs = term'.pairs := by
  induction alike with
  | bound _ => rfl
  | pair _ _ first second => rw [pairs, pairs, first, second]
  | swapped _ _ first second => rw [pairs, pairs, first, second, Nat.add_comm (pairs _)]

end HashTerm

namespace CollisionFree

/-- Terms with the same digest have the same number of pairs. -/
theorem pairs_eq (free : CollisionFree h P) {term term' : HashTerm}
    (inputs : ∀ x ∈ term.inputs h, P x) (inputs' : ∀ x ∈ term'.inputs h, P x)
    (same : term.digest h = term'.digest h) : term.pairs = term'.pairs :=
  ((term.alike_or_collide h term' same).resolve_right (free.not_collide inputs inputs')).pairs_eq

/-- No half of a pair of terms has the digest of the pair. -/
theorem half_digest_ne (free : CollisionFree h P)
    (inputs : ∀ x ∈ (HashTerm.pair left right).inputs h, P x) :
    left.digest h ≠ (HashTerm.pair left right).digest h ∧
      right.digest h ≠ (HashTerm.pair left right).digest h := by
  constructor
  · intro same
    have half : ∀ x ∈ left.inputs h, P x := fun x hx =>
      inputs x (List.mem_cons_of_mem _ (List.mem_append_left _ hx))
    have := free.pairs_eq half inputs same
    simp only [HashTerm.pairs] at this
    omega
  · intro same
    have half : ∀ x ∈ right.inputs h, P x := fun x hx =>
      inputs x (List.mem_cons_of_mem _ (List.mem_append_right _ hx))
    have := free.pairs_eq half inputs same
    simp only [HashTerm.pairs] at this
    omega

/-- **A pair of digests that has the digest of a term has no half with that digest.** -/
theorem ne_digest_of_pair (free : CollisionFree h P) (inputs : ∀ x ∈ whole.inputs h, P x)
    (pair : P (.pair a b)) (same : h.combine a b = whole.digest h) :
    a ≠ whole.digest h ∧ b ≠ whole.digest h := by
  have input : (HashInput.pair a b).Same (whole.input h) :=
    free _ _ pair (inputs _ (whole.input_mem_inputs h)) (same.trans (whole.digest_input h).symm)
  cases whole with
  | bound c => cases c <;> exact input.elim
  | pair left right =>
    obtain ⟨first, second⟩ := free.half_digest_ne inputs
    rcases Sym2.eq_iff.mp input with ⟨rfl, rfl⟩ | ⟨rfl, rfl⟩
    · exact ⟨first, second⟩
    · exact ⟨second, first⟩

/-! ## 2. Two kinds of edits -/

/-- **What stands behind cancels**: two starts that go on with the same digests to the same end are
equal. -/
theorem foldl_cancel (free : CollisionFree h P) (path : ∀ x ∈ h.foldInputs a back, P x)
    (path' : ∀ x ∈ h.foldInputs b back, P x)
    (same : back.foldl h.combine a = back.foldl h.combine b) : a = b := by
  induction back generalizing a b with
  | nil => exact same
  | cons d back ih =>
    have next : h.combine a d = h.combine b d :=
      ih (fun x hx => path x (List.mem_cons_of_mem _ hx))
        (fun x hx => path' x (List.mem_cons_of_mem _ hx)) same
    have input : s(a, d) = s(b, d) :=
      free _ _ (path _ List.mem_cons_self) (path' _ List.mem_cons_self) next
    exact Sym2.congr_left.mp input

/-- **A digest replaced**: two paths that differ in one place at most and lead to the same end do
not differ. -/
theorem eq_of_replaced (free : CollisionFree h P)
    (path : ∀ x ∈ h.pathInputs (front ++ a :: back), P x)
    (path' : ∀ x ∈ h.pathInputs (front ++ b :: back), P x)
    (leads : h.Leads (front ++ a :: back) root) (leads' : h.Leads (front ++ b :: back) root) :
    a = b := by
  cases front with
  | nil =>
    exact free.foldl_cancel path path'
      ((Hasher.leads_cons.mp leads).trans (Hasher.leads_cons.mp leads').symm)
  | cons first front =>
    -- with the digest itself the pair that it stands in is part of what lies behind
    have behind := fun x hx => path x (h.back_subset_pathInputs first front (a :: back) hx)
    have behind' := fun x hx => path' x (h.back_subset_pathInputs first front (b :: back) hx)
    have next := free.foldl_cancel (fun x hx => behind x (List.mem_cons_of_mem _ hx))
      (fun x hx => behind' x (List.mem_cons_of_mem _ hx))
      ((Hasher.leads_append.mp leads).trans (Hasher.leads_append.mp leads').symm)
    have input : s(front.foldl h.combine first, a) = s(front.foldl h.combine first, b) :=
      free _ _ (behind _ List.mem_cons_self) (behind' _ List.mem_cons_self) next
    exact Sym2.congr_right.mp input

/-- **A digest put in**: of two paths, the one being the other with one more digest, at most one
leads to the digest of a term. -/
theorem not_leads_of_inserted (free : CollisionFree h P) (term : ∀ x ∈ whole.inputs h, P x)
    (path : ∀ x ∈ h.pathInputs (front ++ back), P x)
    (longer : ∀ x ∈ h.pathInputs (front ++ a :: back), P x)
    (leads : h.Leads (front ++ back) (whole.digest h)) :
    ¬ h.Leads (front ++ a :: back) (whole.digest h) := by
  intro leads'
  cases front with
  | nil =>
    -- the digest of a part, and in front of it one more
    obtain ⟨first, rest, rfl, start⟩ := leads
    have same := free.foldl_cancel (fun x hx => longer x (List.mem_cons_of_mem _ hx)) path
      ((Hasher.leads_cons.mp leads').trans start.symm)
    obtain ⟨part, opens, rfl⟩ := free.exists_opens path term start
    exact (free.ne_digest_of_pair (fun x hx => term x (opens.inputs_subset hx))
      (longer _ List.mem_cons_self) same).2 rfl
  | cons first front =>
    have behind := fun x hx => path x (h.back_subset_pathInputs first front back hx)
    have behind' := fun x hx => longer x (h.back_subset_pathInputs first front (a :: back) hx)
    have start := Hasher.leads_append.mp leads
    have same := free.foldl_cancel (fun x hx => behind' x (List.mem_cons_of_mem _ hx)) behind
      ((Hasher.leads_append.mp leads').trans start.symm)
    obtain ⟨part, opens, reached⟩ := free.exists_opens behind term start
    exact (free.ne_digest_of_pair (fun x hx => term x (opens.inputs_subset hx))
      (behind' _ List.mem_cons_self) (same.trans reached)).1 reached

/-- **A path with one edit** does not lead to the digest of the term that the path leads to. -/
theorem not_leads_of_singleEdit (free : CollisionFree h P) (term : ∀ x ∈ whole.inputs h, P x)
    {digests edited : List Digest} (edit : SingleEdit digests edited)
    (path : ∀ x ∈ h.pathInputs digests, P x) (path' : ∀ x ∈ h.pathInputs edited, P x)
    (leads : h.Leads digests (whole.digest h)) : ¬ h.Leads edited (whole.digest h) := by
  cases edit with
  | replace front back differ =>
    exact fun leads' => differ (free.eq_of_replaced path path' leads leads')
  | remove front d back =>
    exact fun leads' => free.not_leads_of_inserted term path' path leads' leads
  | insert front d back => exact free.not_leads_of_inserted term path path' leads

end CollisionFree

/-! ## 3. The statement -/

/-- A proof that is not older than a confirmation, and does not lead to its digest, is incorrect. -/
theorem Confirmation.pathVerdict_eq_incorrect {c : Confirmation} {p : MembershipProof}
    (fresh : ¬ p.version < c.version) (refused : ¬ h.Leads p.digests c.digest) :
    c.pathVerdict p h = .incorrect := by
  rw [pathVerdict, if_neg fresh,
    if_neg fun root => refused (MembershipProof.leads_of_impliedRoot root)]

/-- **A proof with a single edit in its path is incorrect**: one digest replaced by a different one,
left out or put in, anywhere in the path that a list gives for a key, as long as no two different
inputs that folding the two paths and the digest rule over the list have evaluated have the same
digest. -/
theorem Reachable.single_edit_refused {l : SkipList} (comm : h.Commutative)
    (reach : Reachable h l) (k : Key) :
    ∃ c p, l.confirmation = .ok c ∧ l.prove h k = .ok p ∧
      ∀ digests, SingleEdit p.digests digests →
        CollisionFree h (fun x =>
          x ∈ h.pathInputs digests ∨ x ∈ h.pathInputs p.digests ∨ l.Evaluates h x) →
        c.pathVerdict { p with digests } h = .incorrect := by
  obtain ⟨y, hl, current⟩ := reach.exists_layout
  obtain ⟨term, spans, digest⟩ := hl.exists_spans_top current
  refine ⟨_, _, hl.confirmation, hl.prove h k, fun digests edit free => ?_⟩
  have root := hl.shaped.impliedRoot_proof comm current l.version k
  rw [digest] at root ⊢
  have refused : ¬ h.Leads digests (term.digest h) :=
    free.not_leads_of_singleEdit (fun x hx => .inr (.inr (hl.evaluates current .top spans x hx)))
      edit (fun _ hx => .inr (.inl hx)) (fun _ hx => .inl hx)
      (MembershipProof.leads_of_impliedRoot root)
  exact Confirmation.pathVerdict_eq_incorrect (UInt64.lt_irrefl _) refused

/-- The last digest of the path of 3 replaced by another one. -/
theorem single_edit_refused_sample :
    Hasher.byteSum.Commutative ∧ Reachable .byteSum sample ∧
      ∃ c p, sample.confirmation = .ok c ∧ sample.prove .byteSum 3 = .ok p ∧
        SingleEdit p.digests [⟨[3]⟩, ⟨[]⟩, ⟨[9]⟩] ∧
        CollisionFree .byteSum (fun x => x ∈ Hasher.byteSum.pathInputs [⟨[3]⟩, ⟨[]⟩, ⟨[9]⟩] ∨
          x ∈ Hasher.byteSum.pathInputs p.digests ∨ sample.Evaluates .byteSum x) ∧
        c.pathVerdict { p with digests := [⟨[3]⟩, ⟨[]⟩, ⟨[9]⟩] } .byteSum = .incorrect := by
  obtain ⟨c, p, confirmed, proved, refused⟩ :=
    Reachable.single_edit_refused Hasher.byteSum_commutative reachable_sample 3
  have path : sample.prove .byteSum 3 = .ok ⟨3, true, 3, [⟨[3]⟩, ⟨[]⟩, ⟨[]⟩]⟩ := by decide +kernel
  obtain rfl := Except.ok.inj (path.symm.trans proved)
  have edit : SingleEdit ([⟨[3]⟩, ⟨[]⟩] ++ (⟨[]⟩ : Digest) :: []) ([⟨[3]⟩, ⟨[]⟩] ++ ⟨[9]⟩ :: []) :=
    .replace _ _ (by decide)
  have free : CollisionFree .byteSum fun x => x ∈ Hasher.byteSum.pathInputs [⟨[3]⟩, ⟨[]⟩, ⟨[9]⟩] ∨
      x ∈ Hasher.byteSum.pathInputs [⟨[3]⟩, ⟨[]⟩, ⟨[]⟩] ∨ sample.Evaluates .byteSum x :=
    .of_list (fun _ hx => List.mem_append.mpr (hx.imp_right fun hx =>
      List.mem_append.mpr (hx.imp_right (·.mem_inputs)))) (by decide +kernel)
  exact ⟨Hasher.byteSum_commutative, reachable_sample, c, _, confirmed, proved, edit, free,
    refused _ edit free⟩

end AuthenticatedSet
