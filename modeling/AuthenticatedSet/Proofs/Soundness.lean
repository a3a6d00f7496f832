import AuthenticatedSet.Commitment.Basic
import AuthenticatedSet.Proofs.Term
import Mathlib.Data.Sym.Sym2

/-!
# No proof of a key that is not there

Whoever makes a membership proof may choose its version, its key and any digests. If it is accepted
for a key that is not in the list, then two different inputs of the hasher have one digest, and both
were evaluated: by the check of the proof, or by the digest rule over the nodes of the list.

The path of the proof is peeled off from its end. Its last pair meets the root term of the list, and
either is no pair of that term, which is a collision, or leaves a shorter path to one of its parts.

* `HashInput`                 -- what the hasher is applied to, and `HashInput.Same` up to the order
  of a pair
* `MembershipProof.inputs`    -- the inputs that checking a proof evaluates
* `SkipList.Evaluates`        -- the inputs that the digest rule evaluates at the nodes of a list
* `HashTerm.Opens`            -- the siblings met on the way from a part of a term up to the whole
* `HashTerm.opens_or_collide` -- a path peeled off against a term
* `HashTerm.bound_or_collision` -- the same for a path that starts at the leaf of a key
* `Reachable.member_or_collision` -- the whole statement
-/

namespace AuthenticatedSet

/-! ## 1. Inputs of the hasher -/

/-- What the hasher is applied to. -/
inductive HashInput where
  | leaf (key : Key)
  | pair (a b : Digest)
  | endMark
deriving DecidableEq, Repr

namespace HashInput

/-- The input for the digest of a bound by itself. -/
def ofBound : Bound → HashInput
  | .key k => leaf k
  | .lower | .upper => endMark

/-- What the hasher gives. -/
def digest (h : Hasher) : HashInput → Digest
  | leaf k => h.leaf k
  | pair a b => h.combine a b
  | endMark => h.endMark

/-- The two inputs are the same, pairs being taken without order. -/
def Same : HashInput → HashInput → Prop
  | leaf k, leaf k' => k = k'
  | pair a b, pair a' b' => s(a, b) = s(a', b')
  | endMark, endMark => True
  | _, _ => False

@[simp] theorem digest_ofBound (h : Hasher) (b : Bound) : (ofBound b).digest h = h.ofBound b := by
  cases b <;> rfl

end HashInput

/-- The pairs met when digests are combined from left to right. -/
def Hasher.foldInputs (h : Hasher) : Digest → List Digest → List HashInput
  | _, [] => []
  | first, d :: rest => .pair first d :: h.foldInputs (h.combine first d) rest

/-- The path, folded, gives this digest. -/
def Hasher.Leads (h : Hasher) (digests : List Digest) (root : Digest) : Prop :=
  ∃ first rest, digests = first :: rest ∧ rest.foldl h.combine first = root

/-- The inputs that checking a proof evaluates: the leaf of its key, and the pairs of its path. -/
def MembershipProof.inputs (p : MembershipProof) (h : Hasher) : List HashInput :=
  .leaf p.key :: match p.digests with
    | [] => []
    | first :: rest => h.foldInputs first rest

/-- The inputs that the digest rule evaluates at a node. -/
def Hasher.commitInputs (h : Hasher) (bound : Bound) : Option Digest → Share → List HashInput
  | none, .covered next => [.ofBound bound, .ofBound next, .pair (h.ofBound bound) (h.ofBound next)]
  | none, .exposed digest => [.ofBound bound, .pair (h.ofBound bound) digest]
  | some _, .covered _ => []
  | some below, .exposed digest => [.pair below digest]

/-- The digest rule evaluates the input at some node of the list. -/
def SkipList.Evaluates (l : SkipList) (h : Hasher) (x : HashInput) : Prop :=
  ∃ i node right below, l.Linked i ∧ l.store.get i = .ok node ∧ node.bound ≠ .upper ∧
    l.store.get node.right = .ok right ∧ l.store.digestBelow node = .ok below ∧
    x ∈ h.commitInputs node.bound below right.share

namespace HashTerm

/-- The inputs that computing the digest of a term evaluates. -/
def inputs (h : Hasher) : HashTerm → List HashInput
  | bound b => [.ofBound b]
  | pair left right =>
    .pair (left.digest h) (right.digest h) :: (left.inputs h ++ right.inputs h)

/-- The bounds in a term. -/
def bounds : HashTerm → List Bound
  | bound b => [b]
  | pair left right => left.bounds ++ right.bounds

end HashTerm

/-! ## 2. A path against a term -/

theorem Hasher.foldInputs_append (h : Hasher) (first : Digest) (digests more : List Digest) :
    h.foldInputs first (digests ++ more) =
      h.foldInputs first digests ++ h.foldInputs (digests.foldl h.combine first) more := by
  induction digests generalizing first with
  | nil => rfl
  | cons second digests ih => exact congrArg (_ :: ·) (ih _)

/-- Two different inputs, one from each list, have one digest. -/
def Collide (h : Hasher) (xs ys : List HashInput) : Prop :=
  ∃ x ∈ xs, ∃ y ∈ ys, ¬ x.Same y ∧ x.digest h = y.digest h

theorem Collide.mono {h : Hasher} {xs xs' ys ys' : List HashInput} (collide : Collide h xs ys)
    (left : xs ⊆ xs') (right : ys ⊆ ys') : Collide h xs' ys' := by
  obtain ⟨x, hx, y, hy, rest⟩ := collide
  exact ⟨x, left hx, y, right hy, rest⟩

namespace HashTerm

/-- The input whose digest is that of the term. -/
def input (h : Hasher) : HashTerm → HashInput
  | bound b => .ofBound b
  | pair left right => .pair (left.digest h) (right.digest h)

theorem digest_input (h : Hasher) (term : HashTerm) : (term.input h).digest h = term.digest h := by
  cases term with
  | bound b => exact HashInput.digest_ofBound h b
  | pair left right => rfl

theorem input_mem_inputs (h : Hasher) (term : HashTerm) : term.input h ∈ term.inputs h := by
  cases term with
  | bound b => exact List.mem_singleton_self _
  | pair left right => exact List.mem_cons_self

/-- The siblings met on the way from a part of a term up to the whole: at each pair the digest of
its other half, the pair of the part itself first. -/
inductive Opens (h : Hasher) (part : HashTerm) : HashTerm → List Digest → Prop
  | here : Opens h part part []
  | left {left right : HashTerm} {siblings : List Digest} (inner : Opens h part left siblings) :
      Opens h part (.pair left right) (siblings ++ [right.digest h])
  | right {left right : HashTerm} {siblings : List Digest} (inner : Opens h part right siblings) :
      Opens h part (.pair left right) (siblings ++ [left.digest h])

variable {h : Hasher} {part whole : HashTerm} {siblings : List Digest}

/-- What computing the digest of a part evaluates, computing that of the whole evaluates too. -/
theorem Opens.inputs_subset (opens : part.Opens h whole siblings) :
    part.inputs h ⊆ whole.inputs h := by
  induction opens with
  | here => exact List.Subset.refl _
  | left _ ih => exact List.Subset.trans ih (List.subset_cons_of_subset _ (List.subset_append_left _ _))
  | right _ ih => exact List.Subset.trans ih (List.subset_cons_of_subset _ (List.subset_append_right _ _))

/-- The bounds of a part are bounds of the whole. -/
theorem Opens.bounds_subset (opens : part.Opens h whole siblings) :
    part.bounds ⊆ whole.bounds := by
  induction opens with
  | here => exact List.Subset.refl _
  | left _ ih => exact List.Subset.trans ih (List.subset_append_left _ _)
  | right _ ih => exact List.Subset.trans ih (List.subset_append_right _ _)

/-- **A path peeled off**: one that leads to the digest of a term consists of the digest of a part
and of the siblings from there on, or meets a collision. -/
theorem opens_or_collide (h : Hasher) (term : HashTerm) (first : Digest) (rest : List Digest)
    (same : rest.foldl h.combine first = term.digest h) :
    (∃ part : HashTerm, part.Opens h term rest ∧ first = part.digest h) ∨
      Collide h (h.foldInputs first rest) (term.inputs h) := by
  induction rest using List.reverseRecOn generalizing term with
  | nil => exact .inl ⟨term, .here, same⟩
  | append_singleton rest d ih =>
    rw [List.foldl_append] at same
    have last : HashInput.pair (rest.foldl h.combine first) d ∈ h.foldInputs first (rest ++ [d]) :=
      h.foldInputs_append first rest [d] ▸ List.mem_append_right _ List.mem_cons_self
    have sub : h.foldInputs first rest ⊆ h.foldInputs first (rest ++ [d]) :=
      h.foldInputs_append first rest [d] ▸ List.subset_append_left _ _
    cases term with
    | bound b =>
      refine .inr ⟨_, last, .ofBound b, List.mem_singleton_self _, ?_, ?_⟩
      · cases b <;> exact id
      · rw [HashInput.digest_ofBound]
        exact same
    | pair left right =>
      by_cases pair : s(rest.foldl h.combine first, d) = s(left.digest h, right.digest h)
      · -- the path goes on into the half that its last pair agrees with
        rcases Sym2.eq_iff.mp pair with ⟨into, rfl⟩ | ⟨into, rfl⟩
        · rcases ih left into with ⟨part, opens, start⟩ | collide
          · exact .inl ⟨part, .left opens, start⟩
          · exact .inr (collide.mono sub
              (List.subset_cons_of_subset _ (List.subset_append_left _ _)))
        · rcases ih right into with ⟨part, opens, start⟩ | collide
          · exact .inl ⟨part, .right opens, start⟩
          · exact .inr (collide.mono sub
              (List.subset_cons_of_subset _ (List.subset_append_right _ _)))
      · exact .inr ⟨_, last, _, List.mem_cons_self, pair, same⟩

/-- A term with the digest of a leaf is that leaf, or its input collides with it. -/
theorem eq_bound_or_collide (term : HashTerm) (k : Key) (same : h.leaf k = term.digest h) :
    term = .bound (.key k) ∨ Collide h [.leaf k] (term.inputs h) := by
  by_cases input : (HashInput.leaf k).Same (term.input h)
  · left
    cases term with
    | bound b =>
      cases b with
      | key k' => exact congrArg (fun k => bound (.key k)) (Eq.symm input)
      | lower | upper => exact input.elim
    | pair left right => exact input.elim
  · exact .inr ⟨_, List.mem_singleton_self _, _, term.input_mem_inputs h, input,
      same.trans (term.digest_input h).symm⟩

/-- A path that starts at the leaf of a key and leads to the digest of a term starts at a leaf of
that term, or meets a collision. -/
theorem bound_or_collision (h : Hasher) (term : HashTerm) (k : Key) (rest : List Digest)
    (same : rest.foldl h.combine (h.leaf k) = term.digest h) :
    .key k ∈ term.bounds ∨
      Collide h (.leaf k :: h.foldInputs (h.leaf k) rest) (term.inputs h) := by
  rcases term.opens_or_collide h _ rest same with ⟨part, opens, start⟩ | collide
  · rcases part.eq_bound_or_collide k start with rfl | collide
    · exact .inl (opens.bounds_subset (List.mem_singleton_self _))
    · exact .inr (collide.mono (List.cons_subset_cons _ (List.nil_subset _)) opens.inputs_subset)
  · exact .inr (collide.mono (List.subset_cons_self _ _) (List.Subset.refl _))

end HashTerm

/-- **What is accepted**: a proof that is not older than the confirmation, with a path that leads to
its digest, and that starts at the leaf of its key exactly if the claim is presence. -/
theorem Confirmation.verdict_eq_correct_iff {c : Confirmation} {p : MembershipProof} {h : Hasher} :
    c.verdict p h = .correct ↔ ¬ p.version < c.version ∧ p.impliedRoot h = some c.digest ∧
      p.present = p.startsAtKey h := by
  unfold verdict pathVerdict
  by_cases old : p.version < c.version
  · simp [old]
  · by_cases root : p.impliedRoot h = some c.digest
    · simp [old, root]
    · simp [old, root]

/-- A path from which a root digest follows leads to it. -/
theorem MembershipProof.leads_of_impliedRoot {p : MembershipProof} {h : Hasher} {d : Digest}
    (root : p.impliedRoot h = some d) : h.Leads p.digests d := by
  unfold impliedRoot at root
  cases digests : p.digests with
  | nil => simp [digests] at root
  | cons first rest =>
    rw [digests, Option.some.injEq] at root
    exact ⟨first, rest, rfl, root⟩

theorem MembershipProof.startsAtKey_iff {p : MembershipProof} {h : Hasher} {first : Digest}
    {rest : List Digest} (digests : p.digests = first :: rest) :
    p.startsAtKey h = true ↔ first = h.leaf p.key := by
  simp [startsAtKey, digests]

/-- An accepted claim of presence has a path that starts at the leaf of its key and leads to the
root digest. -/
theorem Confirmation.of_correct {c : Confirmation} {p : MembershipProof} {h : Hasher}
    (correct : c.verdict p h = .correct) (present : p.present = true) :
    ∃ first rest, p.digests = first :: rest ∧ first = h.leaf p.key ∧
      rest.foldl h.combine first = c.digest := by
  obtain ⟨-, root, starts⟩ := verdict_eq_correct_iff.mp correct
  obtain ⟨first, rest, digests, leads⟩ := MembershipProof.leads_of_impliedRoot root
  exact ⟨first, rest, digests, (MembershipProof.startsAtKey_iff digests).mp
    (starts.symm.trans present), leads⟩

/-! ## 3. The terms of a list -/

namespace Layout

variable {y : Layout} {l : SkipList} {h : Hasher} {i : Slot} {node : Node} {term : HashTerm}

/-- A linked slot other than a right end keeps the digest of its term. -/
theorem Carries.digest_of_spans (hl : y.Carries l) (current : y.Current h) (linked : l.Linked i)
    (here : l.store.get i = .ok node) (ne : node.bound ≠ .upper) (spans : l.store.Spans i term) :
    node.digest = term.digest h := by
  obtain ⟨level, b, hb, rfl⟩ := hl.exists_of_linked linked
  rw [hl.describes.get hb] at here
  cases here
  obtain ⟨term', spans', digest⟩ := hl.describes.exists_spans hl.shaped current hb ne
  rw [spans.unique spans']
  exact digest

/-- A right end has no right link that leads anywhere. -/
theorem Carries.ne_upper_of_next (hl : y.Carries l) (linked : l.Linked i) {right : Node}
    (here : l.store.get i = .ok node) (next : l.store.get node.right = .ok right) :
    node.bound ≠ .upper ∧ node.right ≠ .nil := by
  refine ⟨fun same => ?_, hl.describes.sound.fits.ne_nil next⟩
  obtain ⟨level, b, hb, rfl⟩ := hl.exists_of_linked linked
  rw [hl.describes.get hb] at here
  cases here
  have nil : (y.node level b).right = .nil := if_pos same
  exact hl.describes.sound.fits.ne_nil next nil

/-- A slot with a term holds a node, which keeps the digest of the term. -/
theorem Carries.exists_node_of_spans (hl : y.Carries l) (current : y.Current h)
    (linked : l.Linked i) (spans : l.store.Spans i term) :
    ∃ node, l.store.get i = .ok node ∧ node.digest = term.digest h := by
  have shown : ∃ node right, l.store.get i = .ok node ∧ l.store.get node.right = .ok right := by
    cases spans <;> exact ⟨_, _, ‹_›, ‹_›⟩
  obtain ⟨node, right, here, next⟩ := shown
  have ne := (hl.ne_upper_of_next linked here next).1
  exact ⟨node, here, hl.digest_of_spans current linked here ne spans⟩

/-- **The inputs of a term are evaluated by the digest rule** over the nodes of the list. -/
theorem Carries.evaluates (hl : y.Carries l) (current : y.Current h) (linked : l.Linked i)
    (spans : l.store.Spans i term) : ∀ x ∈ term.inputs h, l.Evaluates h x := by
  induction spans with
  | bottomCovered here next bottom covered =>
    intro x hx
    refine ⟨_, _, _, none, linked, here, (hl.ne_upper_of_next linked here next).1, next,
      if_pos bottom, ?_⟩
    rw [Node.share, if_pos covered]
    simp only [HashTerm.inputs, HashTerm.digest, List.mem_cons, List.mem_append] at hx
    simp only [Hasher.commitInputs, List.mem_cons]
    tauto
  | bottomExposed here next bottom exposed beside ih =>
    obtain ⟨ne, leads⟩ := hl.ne_upper_of_next linked here next
    have linked' := SkipList.Linked.right linked here leads
    obtain ⟨right', next', digest⟩ := hl.exists_node_of_spans current linked' beside
    cases Except.ok.inj (next.symm.trans next')
    intro x hx
    simp only [HashTerm.inputs, HashTerm.digest, List.mem_cons, List.mem_append,
      List.not_mem_nil, or_false] at hx
    rcases hx with rfl | rfl | hx
    · refine ⟨_, _, _, none, linked, here, ne, next, if_pos bottom, ?_⟩
      rw [Node.share, if_neg (by simp [exposed]), digest]
      simp [Hasher.commitInputs]
    · refine ⟨_, _, _, none, linked, here, ne, next, if_pos bottom, ?_⟩
      rw [Node.share, if_neg (by simp [exposed])]
      simp [Hasher.commitInputs]
    · exact ih linked' x hx
  | aboveCovered here next above covered below ih =>
    exact ih (.down linked here above)
  | aboveExposed here next above exposed below beside ih ih' =>
    obtain ⟨ne, leads⟩ := hl.ne_upper_of_next linked here next
    have linked' := SkipList.Linked.right linked here leads
    have under := SkipList.Linked.down linked here above
    obtain ⟨right', next', digest⟩ := hl.exists_node_of_spans current linked' beside
    cases Except.ok.inj (next.symm.trans next')
    obtain ⟨node', down, digest'⟩ := hl.exists_node_of_spans current under below
    intro x hx
    simp only [HashTerm.inputs, List.mem_cons, List.mem_append] at hx
    rcases hx with rfl | hx | hx
    · refine ⟨_, _, _, some node'.digest, linked, here, ne, next, ?_, ?_⟩
      · rw [Store.digestBelow, if_neg above, down]
        rfl
      · rw [Node.share, if_neg (by simp [exposed]), digest, digest']
        simp [Hasher.commitInputs]
    · exact ih under x hx
    · exact ih' linked' x hx

/-- The bound of a linked node is on the bottom level. -/
theorem Carries.mem_of_get (hl : y.Carries l) (linked : l.Linked i)
    (here : l.store.get i = .ok node) : node.bound ∈ y.row 0 := by
  obtain ⟨level, b, hb, rfl⟩ := hl.exists_of_linked linked
  rw [hl.describes.get hb] at here
  cases here
  exact hl.shaped.nested_le hb (Nat.zero_le level)

/-- The bounds of a term are on the bottom level. -/
theorem Carries.mem_of_spans (hl : y.Carries l) (linked : l.Linked i)
    (spans : l.store.Spans i term) : ∀ b ∈ term.bounds, b ∈ y.row 0 := by
  induction spans with
  | bottomCovered here next bottom covered =>
    have linked' := SkipList.Linked.right linked here (hl.ne_upper_of_next linked here next).2
    intro b hb
    simp only [HashTerm.bounds, List.mem_append, List.mem_singleton] at hb
    rcases hb with rfl | rfl
    · exact hl.mem_of_get linked here
    · exact hl.mem_of_get linked' next
  | bottomExposed here next bottom exposed beside ih =>
    have linked' := SkipList.Linked.right linked here (hl.ne_upper_of_next linked here next).2
    intro b hb
    simp only [HashTerm.bounds, List.mem_append, List.mem_singleton] at hb
    rcases hb with rfl | hb
    · exact hl.mem_of_get linked here
    · exact ih linked' b hb
  | aboveCovered here next above covered below ih =>
    exact ih (.down linked here above)
  | aboveExposed here next above exposed below beside ih ih' =>
    have linked' := SkipList.Linked.right linked here (hl.ne_upper_of_next linked here next).2
    intro b hb
    rcases List.mem_append.mp hb with hb | hb
    · exact ih (.down linked here above) b hb
    · exact ih' linked' b hb

end Layout

/-! ## 4. The statement -/

/-- **Membership soundness**, against any prover: a proof that a key is in a reachable list, if its
confirmation accepts it, is about a key of the list, or two different inputs that the check of the
proof and the digest rule over the list have evaluated have the same digest. -/
theorem Reachable.member_or_collision {h : Hasher} {l : SkipList} (reach : Reachable h l) :
    ∃ c keys, l.confirmation = .ok c ∧ l.keys = .ok keys ∧
      ∀ p : MembershipProof, p.present = true → c.verdict p h = .correct →
        p.key ∈ keys ∨ ∃ x y, (x ∈ p.inputs h ∨ l.Evaluates h x) ∧
          (y ∈ p.inputs h ∨ l.Evaluates h y) ∧ ¬ x.Same y ∧ x.digest h = y.digest h := by
  obtain ⟨y, hl, current⟩ := reach.exists_layout
  refine ⟨_, _, hl.confirmation, hl.keys, fun p present correct => ?_⟩
  obtain ⟨first, rest, digests, start, root⟩ := Confirmation.of_correct correct present
  obtain ⟨term, spans, digest⟩ := hl.describes.exists_spans hl.shaped current hl.top_lower_mem
    (by decide)
  rw [← hl.lower] at spans
  rw [start] at root
  have inputs : p.inputs h = .leaf p.key :: h.foldInputs (h.leaf p.key) rest := by
    rw [MembershipProof.inputs, digests, start]
  rcases term.bound_or_collision h p.key rest (root.trans digest) with mem | collide
  · exact .inl (Layout.mem_keys.mpr (hl.mem_of_spans .top spans _ mem))
  · obtain ⟨x, hx, x', hx', rest⟩ := collide
    exact .inr ⟨x, x', .inl (inputs ▸ hx), .inr (hl.evaluates current .top spans x' hx'), rest⟩

/-- The low byte of 259 is 3, so its leaf collides with that of a key of the list, and a proof of it
is accepted. -/
theorem member_or_collision_sample :
    sample.confirmation = .ok ⟨3, ⟨[5]⟩⟩ ∧ sample.keys = .ok [3] ∧
      Confirmation.verdict ⟨3, ⟨[5]⟩⟩ ⟨3, true, 259, [⟨[3]⟩, ⟨[]⟩, ⟨[]⟩]⟩ .byteSum = .correct ∧
      ∃ x y, (x ∈ MembershipProof.inputs ⟨3, true, 259, [⟨[3]⟩, ⟨[]⟩, ⟨[]⟩]⟩ .byteSum ∨
          sample.Evaluates .byteSum x) ∧
        (y ∈ MembershipProof.inputs ⟨3, true, 259, [⟨[3]⟩, ⟨[]⟩, ⟨[]⟩]⟩ .byteSum ∨
          sample.Evaluates .byteSum y) ∧
        ¬ x.Same y ∧ x.digest .byteSum = y.digest .byteSum := by
  obtain ⟨c, keys, root, all, sound⟩ := Reachable.member_or_collision reachable_sample
  have root' : sample.confirmation = .ok ⟨3, ⟨[5]⟩⟩ := by decide +kernel
  have all' : sample.keys = .ok [3] := by decide +kernel
  have accepted : Confirmation.verdict ⟨3, ⟨[5]⟩⟩ ⟨3, true, 259, [⟨[3]⟩, ⟨[]⟩, ⟨[]⟩]⟩ .byteSum =
      .correct := by decide +kernel
  rw [root'] at root
  rw [all'] at all
  cases root
  cases all
  exact ⟨root', all', accepted, (sound _ rfl accepted).resolve_left (by decide)⟩

end AuthenticatedSet
