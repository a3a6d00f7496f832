import AuthenticatedSet.Proofs.Audit
import AuthenticatedSet.Proofs.Reachable

/-!
# What a digest is computed from

The digest rule can be evaluated from scratch, along the links of a store and without a look at the
digests kept there. What comes out is a *term*: a tree of bounds that are paired. Terms do not depend
on the hasher. The digests kept in a reachable list are those of its terms, although no operation
computes more than a few of them anew.

* `HashTerm`               -- bounds, and pairs of terms
* `Store.Spans`            -- the term of a slot: the digest rule evaluated from scratch
* `SkipList.Linked`        -- the slots that links lead to from the top left end
* `SkipList.HasNode`       -- the nodes that stand there, which are those of a layout
* `Spans.unique`           -- no slot has two terms
* `Describes.exists_spans` -- every place but the right ends has a term, and its digest is current
-/

namespace AuthenticatedSet

/-! ## 1. Terms -/

/-- What a digest is computed from. -/
inductive HashTerm where
  | bound (bound : Bound)
  | pair (left right : HashTerm)
deriving DecidableEq, Repr

namespace HashTerm

/-- The digest of a term. -/
def digest (h : Hasher) : HashTerm → Digest
  | bound b => h.ofBound b
  | pair left right => h.combine (left.digest h) (right.digest h)

end HashTerm

/-- The digest rule evaluated from scratch: the term of a slot follows from the bounds, the links and
the marks. The four cases are those of the rule. -/
inductive Store.Spans (s : Store) : Slot → HashTerm → Prop
  | bottomCovered {i : Slot} {node right : Node} (here : s.get i = .ok node)
      (next : s.get node.right = .ok right) (bottom : node.down = .nil)
      (covered : right.isCovered = true) :
      s.Spans i (.pair (.bound node.bound) (.bound right.bound))
  | bottomExposed {i : Slot} {node right : Node} {term : HashTerm} (here : s.get i = .ok node)
      (next : s.get node.right = .ok right) (bottom : node.down = .nil)
      (exposed : right.isCovered = false) (beside : s.Spans node.right term) :
      s.Spans i (.pair (.bound node.bound) term)
  | aboveCovered {i : Slot} {node right : Node} {term : HashTerm} (here : s.get i = .ok node)
      (next : s.get node.right = .ok right) (above : node.down ≠ .nil)
      (covered : right.isCovered = true) (below : s.Spans node.down term) :
      s.Spans i term
  | aboveExposed {i : Slot} {node right : Node} {term term' : HashTerm}
      (here : s.get i = .ok node) (next : s.get node.right = .ok right) (above : node.down ≠ .nil)
      (exposed : right.isCovered = false) (below : s.Spans node.down term)
      (beside : s.Spans node.right term') :
      s.Spans i (.pair term term')

/-- The slots of all levels: what links lead to, right and down from the top left end. -/
inductive SkipList.Linked (l : SkipList) : Slot → Prop
  | top : l.Linked l.top.lower
  | right {i : Slot} {node : Node} (linked : l.Linked i) (here : l.store.get i = .ok node)
      (leads : node.right ≠ .nil) : l.Linked node.right
  | down {i : Slot} {node : Node} (linked : l.Linked i) (here : l.store.get i = .ok node)
      (leads : node.down ≠ .nil) : l.Linked node.down

/-- Links lead to the slot, and this node stands there. -/
structure SkipList.HasNode (l : SkipList) (i : Slot) (node : Node) : Prop where
  linked : l.Linked i
  get : l.store.get i = .ok node

/-- **No slot has two terms.** -/
theorem Store.Spans.unique {s : Store} {i : Slot} {term term' : HashTerm} (spans : s.Spans i term)
    (spans' : s.Spans i term') : term = term' := by
  induction spans generalizing term' with
  | bottomCovered here next bottom covered => cases spans' <;> grind
  | bottomExposed here next bottom exposed beside ih => cases spans' <;> grind
  | aboveCovered here next above covered below ih => cases spans' <;> grind
  | aboveExposed here next above exposed below beside ih ih' => cases spans' <;> grind

/-! ## 2. The terms of a layout -/

namespace Layout

variable {y : Layout} {s : Store} {l : SkipList} {h : Hasher} {height level : Nat} {b : Bound}
  {i : Slot} {node : Node}

/-- What holds of the right end, and of a bound when it holds of the next one, holds of a level. -/
theorem Shaped.right_to_left (hy : y.Shaped height) {P : Bound → Prop} (last : P .upper)
    (step : ∀ b ∈ y.row level, b ≠ .upper → P (y.next level b) → P b) :
    ∀ b ∈ y.row level, P b := by
  intro b hb
  generalize size : ((y.row level).filter (b ≤ ·)).length = n
  induction n generalizing b with
  | zero =>
    have := List.length_eq_zero_iff.mp size ▸ List.mem_filter.mpr ⟨hb, decide_eq_true le_rfl⟩
    cases this
  | succ n ih =>
    by_cases ne : b = .upper
    · exact ne ▸ last
    · rw [hy.filter_le hb ne] at size
      exact step b hb ne (ih _ (hy.next_mem hb) (Nat.succ.inj size))

/-- What holds of the left end, and with a bound of the next one, holds of a level. -/
theorem Shaped.left_to_right (hy : y.Shaped height) {P : Bound → Prop} (first : P .lower)
    (step : ∀ b ∈ y.row level, b ≠ .upper → P b → P (y.next level b)) :
    ∀ b ∈ y.row level, P b := by
  intro c hc
  have onward : ∀ b ∈ y.row level, P b → ∀ c ∈ y.row level, b ≤ c → P c :=
    hy.right_to_left (P := fun b => P b → ∀ c ∈ y.row level, b ≤ c → P c)
      (fun last c _ le => le_antisymm (Bound.le_upper c) le ▸ last)
      fun b hb ne rest here c hc le => by
        rcases le.eq_or_lt with rfl | lt
        · exact here
        · exact rest (step b hb ne here) c hc (hy.next_le hc lt)
  exact onward .lower (hy.lower_mem hc) first c hc (Bound.lower_le c)

/-- The digest of a term is what the rule gives for the digests of its parts. -/
theorem Describes.exists_spans_of_next (hs : y.Describes s) (hy : y.Shaped height)
    (current : y.Current h) (hb : b ∈ y.row level) (ne : b ≠ .upper)
    (below : ∀ {m}, level = m + 1 →
      ∃ term, s.Spans (y.slot m b) term ∧ y.digest m b = term.digest h)
    (beside : y.next level b ≠ .upper → ∃ term, s.Spans (y.slot level (y.next level b)) term ∧
      y.digest level (y.next level b) = term.digest h) :
    ∃ term, s.Spans (y.slot level b) term ∧ y.digest level b = term.digest h := by
  have hn := hy.next_mem hb
  have here := hs.get hb
  have next := hs.get_right ne hn
  have right : (y.node level b).right = y.slot level (y.next level b) := right_of_ne ne
  have rule := current level b hb ne
  cases covered : (y.node level (y.next level b)).isCovered with
  | true =>
    have share : (y.node level (y.next level b)).share = .covered (y.next level b) :=
      if_pos covered
    rw [commit, share] at rule
    cases level with
    | zero => exact ⟨_, .bottomCovered here next rfl covered, rule⟩
    | succ m =>
      obtain ⟨term, spans, digest⟩ := below rfl
      exact ⟨term, .aboveCovered here next (hs.slot_ne_nil (hy.nested hb)) covered spans,
        rule.trans digest⟩
  | false =>
    have share : (y.node level (y.next level b)).share = .exposed (y.digest level (y.next level b)) :=
      if_neg (by simp [covered])
    have inner : y.next level b ≠ .upper := fun same => by
      have := (hy.isCovered_iff hn).mpr (.inr same)
      rw [covered] at this
      cases this
    obtain ⟨term', spans', digest'⟩ := beside inner
    rw [← right] at spans'
    rw [commit, share, digest'] at rule
    cases level with
    | zero => exact ⟨_, .bottomExposed here next rfl covered spans', rule⟩
    | succ m =>
      obtain ⟨term, spans, digest⟩ := below rfl
      refine ⟨_, .aboveExposed here next (hs.slot_ne_nil (hy.nested hb)) covered spans spans', ?_⟩
      rw [rule, HashTerm.digest, ← digest]
      rfl

/-- **Every place but the right ends has a term**, and where all digests are current its digest is
that of its term. -/
theorem Describes.exists_spans (hs : y.Describes s) (hy : y.Shaped height) (current : y.Current h)
    (hb : b ∈ y.row level) (ne : b ≠ .upper) :
    ∃ term, s.Spans (y.slot level b) term ∧ y.digest level b = term.digest h := by
  induction level generalizing b with
  | zero =>
    refine hy.right_to_left (P := fun b => b ≠ .upper → ∃ term, s.Spans (y.slot 0 b) term ∧
      y.digest 0 b = term.digest h) (absurd rfl)
      (fun b hb ne rest _ => ?_) b hb ne
    exact hs.exists_spans_of_next hy current hb ne (fun same => absurd same.symm (Nat.succ_ne_zero _))
      rest
  | succ m ih =>
    refine hy.right_to_left (P := fun b => b ≠ .upper → ∃ term, s.Spans (y.slot (m + 1) b) term ∧
      y.digest (m + 1) b = term.digest h) (absurd rfl)
      (fun b hb ne rest _ => ?_) b hb ne
    refine hs.exists_spans_of_next hy current hb ne (fun same => ?_) rest
    cases same
    exact ih (hy.nested hb) ne

/-- The root digest is that of the term of the whole list. -/
theorem Carries.exists_spans_top (hl : y.Carries l) (current : y.Current h) :
    ∃ term, l.store.Spans l.top.lower term ∧ y.digest (l.height - 1) .lower = term.digest h := by
  rw [hl.lower]
  exact hl.describes.exists_spans hl.shaped current hl.top_lower_mem Bound.lower_lt_upper.ne

/-- Links lead to places of the layout. -/
theorem Carries.exists_of_linked (hl : y.Carries l) (linked : l.Linked i) :
    ∃ level b, b ∈ y.row level ∧ i = y.slot level b := by
  induction linked with
  | top => exact ⟨_, _, hl.top_lower_mem, hl.lower⟩
  | right _ here leads ih =>
    obtain ⟨level, b, hb, rfl⟩ := ih
    rw [hl.describes.get hb] at here
    cases here
    have ne : b ≠ .upper := fun same => leads (if_pos same)
    exact ⟨level, _, hl.shaped.next_mem hb, right_of_ne ne⟩
  | down _ here leads ih =>
    obtain ⟨level, b, hb, rfl⟩ := ih
    rw [hl.describes.get hb] at here
    cases here
    cases level with
    | zero => exact absurd rfl leads
    | succ m => exact ⟨m, b, hl.shaped.nested hb, rfl⟩

/-- The left ends of all levels are led to. -/
theorem Carries.linked_lower (hl : y.Carries l) (below : level < l.height) :
    l.Linked (y.slot level .lower) := by
  refine Nat.decreasingInduction' (P := fun m => l.Linked (y.slot m .lower))
    (fun m lt _ above => ?_) (Nat.le_sub_one_of_lt below) (hl.lower ▸ .top)
  have mem : .lower ∈ y.row m := hl.shaped.lower (by omega)
  exact .down above (hl.describes.get (hl.shaped.lower (by omega))) (hl.describes.slot_ne_nil mem)

/-- All places of the layout are led to. -/
theorem Carries.linked (hl : y.Carries l) (hb : b ∈ y.row level) : l.Linked (y.slot level b) := by
  have hy := hl.shaped
  refine hy.left_to_right (P := fun b => l.Linked (y.slot level b))
    (hl.linked_lower (hy.lt_height hb)) (fun b hb ne linked => ?_) b hb
  have right : (y.node level b).right = y.slot level (y.next level b) := right_of_ne ne
  rw [← right]
  exact .right linked (hl.describes.get hb)
    (right ▸ hl.describes.slot_ne_nil (hy.next_mem hb))

/-- The nodes that links lead to are those of the layout. -/
theorem Carries.hasNode_iff (hl : y.Carries l) : l.HasNode i node ↔
    ∃ m c, c ∈ y.row m ∧ i = y.slot m c ∧ node = y.node m c := by
  constructor
  · rintro ⟨linked, get⟩
    obtain ⟨m, c, hc, rfl⟩ := hl.exists_of_linked linked
    rw [hl.describes.get hc] at get
    exact ⟨m, c, hc, rfl, (Except.ok.inj get).symm⟩
  · rintro ⟨m, c, hc, rfl, rfl⟩
    exact ⟨hl.linked hc, hl.describes.get hc⟩

end Layout

/-! ## 3. The digests of reachable lists -/

/-- **The digests of a reachable list are those computed from scratch**: each slot that links lead to
has one term, and keeps its digest, unless it is a right end; so the root digest is that of the term
of the whole list. -/
theorem Reachable.digests_from_scratch {h : Hasher} {l : SkipList} (reach : Reachable h l) :
    (∀ i, l.Linked i → ∃ node, l.store.get i = .ok node ∧ (node.bound ≠ .upper →
      ∃ term, l.store.Spans i term ∧ (∀ term', l.store.Spans i term' → term' = term) ∧
        node.digest = term.digest h)) ∧
    ∃ c term, l.confirmation = .ok c ∧ l.store.Spans l.top.lower term ∧
      c.digest = term.digest h := by
  obtain ⟨y, hl, current⟩ := reach.exists_layout
  constructor
  · intro i linked
    obtain ⟨level, b, hb, rfl⟩ := hl.exists_of_linked linked
    refine ⟨_, hl.describes.get hb, fun ne => ?_⟩
    obtain ⟨term, spans, digest⟩ := hl.describes.exists_spans hl.shaped current hb ne
    exact ⟨term, spans, fun term' spans' => spans'.unique spans, digest⟩
  · obtain ⟨term, spans, digest⟩ := hl.describes.exists_spans hl.shaped current hl.top_lower_mem
      (by decide)
    exact ⟨_, term, hl.confirmation, hl.lower ▸ spans, digest⟩

theorem digests_from_scratch_sample :
    Reachable .byteSum sample ∧ sample.confirmation = .ok ⟨3, ⟨[5]⟩⟩ ∧
      ∃ term, sample.store.Spans sample.top.lower term ∧ term.digest .byteSum = ⟨[5]⟩ := by
  obtain ⟨-, c, term, ok, spans, digest⟩ := Reachable.digests_from_scratch reachable_sample
  have root : sample.confirmation = .ok ⟨3, ⟨[5]⟩⟩ := by decide +kernel
  rw [root] at ok
  cases ok
  exact ⟨reachable_sample, root, term, spans, digest.symm⟩

end AuthenticatedSet
