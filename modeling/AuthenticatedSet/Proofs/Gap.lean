import AuthenticatedSet.Proofs.Completeness

/-!
# What a path says about its key

A search compares its key with bounds of the list and with nothing else. So it takes the same route
for all keys that lie between the same two bounds: for a key that is there, and for all that are not
there up to the next one. The path for such a key starts with what these two bounds contribute; if
the leaves of the keys can be told apart, paths of different gaps differ in their first digest.

* `IsCeiling`             -- the least bound above a key, as `IsFloor` is the greatest up to it
* `SkipList.Stacked`      -- a node has one above it
* `SkipList.Gap`          -- two nodes of the bottom level that a key lies between
* `Shaped.path_congr`     -- searches that pass the same bounds of the bottom level take one path
* `Reachable.path_brackets` -- where a path starts, and when two paths are the same
-/

namespace AuthenticatedSet

/-! ## 1. The bounds that a key lies between -/

/-- The least bound above a key: the right end if there is none. -/
def IsCeiling (keys : List Key) (k : Key) : Bound → Prop
  | .lower => False
  | .key b => b ∈ keys ∧ k < b ∧ ∀ k' ∈ keys, k < k' → b ≤ k'
  | .upper => ∀ k' ∈ keys, ¬ k < k'

/-- No key up to this one is greater than its floor. -/
theorem IsFloor.key_le {keys : List Key} {k k' : Key} {b : Bound} (floor : IsFloor keys k b)
    (mem : k' ∈ keys) (le : k' ≤ k) : .key k' ≤ b := by
  cases b with
  | lower => exact absurd le (floor k' mem)
  | key b => exact Bound.key_le_key.mpr (floor.2.2 k' mem le)
  | upper => exact floor.elim

theorem IsFloor.le {keys : List Key} {k : Key} {b c : Bound} (hb : IsFloor keys k b)
    (hc : IsFloor keys k c) : b ≤ c := by
  cases b with
  | lower => exact Bound.lower_le c
  | key b => exact hc.key_le hb.1 hb.2.1
  | upper => exact hb.elim

theorem IsFloor.unique {keys : List Key} {k : Key} {b c : Bound} (hb : IsFloor keys k b)
    (hc : IsFloor keys k c) : b = c :=
  le_antisymm (hb.le hc) (hc.le hb)

/-- A node of some level stands on the slot. -/
def SkipList.Stacked (l : SkipList) (i : Slot) : Prop :=
  ∃ j node, l.HasNode j node ∧ node.down = i

/-- The two nodes are side by side on the bottom level, and the key lies between them: not left of
the one, and left of the other. -/
structure SkipList.Gap (l : SkipList) (keys : List Key) (k : Key) (left right : Node) : Prop where
  bottom : ∃ i, l.HasNode i left ∧ left.down = .nil
  next : l.store.get left.right = .ok right
  floor : IsFloor keys k left.bound
  ceiling : IsCeiling keys k right.bound

namespace Layout

variable {y : Layout} {l : SkipList} {h : Hasher} {p q : Bound → Bool} {height level : Nat}
  {b : Bound} {k k' : Key}

theorem Carries.stacked_iff (hl : y.Carries l) (hb : b ∈ y.row level) :
    l.Stacked (y.slot level b) ↔ b ∈ y.row (level + 1) := by
  constructor
  · intro h
    obtain ⟨j, node, here, down⟩ := h
    obtain ⟨m, c, hc, -, rfl⟩ := hl.hasNode_iff.mp here
    cases m with
    | zero => exact absurd down.symm (hl.describes.slot_ne_nil hb)
    | succ m =>
      obtain ⟨rfl, rfl⟩ := hl.describes.slot_inj (hl.shaped.nested hc) hb down
      exact hc
  · intro above
    exact ⟨_, _, hl.hasNode_iff.mpr ⟨_, _, above, rfl, rfl⟩, rfl⟩

/-- What comes next after it is the least bound above the key. -/
theorem Shaped.isCeiling_next_reached (hy : y.Shaped height) (k : Key) :
    IsCeiling y.keys k (y.next 0 (y.reached (Reach.upTo.passes k) 0)) := by
  have hp := Reach.upTo.passes_downward k
  have reached := hy.reached_mem (p := Reach.upTo.passes k) hy.positive
  have mem := hy.next_mem reached
  have lt : y.reached (Reach.upTo.passes k) 0 < y.next 0 (y.reached (Reach.upTo.passes k) 0) :=
    Shaped.lt_next (Shaped.reached_ne_upper hp 0)
  have stop : .key k < y.next 0 (y.reached (Reach.upTo.passes k) 0) := by
    by_contra le
    have pass := upTo_passes_iff.mpr (not_lt.mp le)
    rw [hy.next_reached_not_pass hp hy.positive] at pass
    cases pass
  have least : ∀ k' ∈ y.keys, k < k' →
      y.next 0 (y.reached (Reach.upTo.passes k) 0) ≤ .key k' := by
    intro k' hk' above
    refine hy.next_le (mem_keys.mp hk') (lt_of_le_of_lt ?_ (Bound.key_lt_key.mpr above))
    exact upTo_passes_iff.mp (Shaped.reached_pass (y := y) hp 0)
  cases found : y.next 0 (y.reached (Reach.upTo.passes k) 0) with
  | lower => exact (found ▸ lt).not_ge (Bound.lower_le _)
  | key b =>
    rw [found] at mem stop least
    exact ⟨mem_keys.mpr mem, Bound.key_lt_key.mp stop,
      fun k' hk' above => Bound.key_le_key.mp (least k' hk' above)⟩
  | upper =>
    intro k' hk' above
    exact (Bound.key_lt_upper k').not_ge (found ▸ least k' hk' above)

/-- The two nodes that the search up to a key stops between. -/
theorem Carries.gap (hl : y.Carries l) (k : Key) :
    l.Gap y.keys k (y.node 0 (y.reached (Reach.upTo.passes k) 0))
      (y.node 0 (y.next 0 (y.reached (Reach.upTo.passes k) 0))) where
  bottom := ⟨_, hl.hasNode_iff.mpr ⟨0, _, hl.shaped.reached_mem hl.shaped.positive, rfl, rfl⟩, rfl⟩
  next := hl.describes.get_right (Shaped.reached_ne_upper (Reach.upTo.passes_downward k) 0)
    (hl.shaped.next_mem (hl.shaped.reached_mem hl.shaped.positive))
  floor := hl.shaped.isFloor_reached k
  ceiling := hl.shaped.isCeiling_next_reached k

/-- Of the node on the right of a gap it is the bound that the path has, or all it commits to. -/
theorem Carries.isCovered_right_iff (hl : y.Carries l) (hb : b ∈ y.row level) (ne : b ≠ .upper) :
    (y.node level (y.next level b)).isCovered = true ↔
      y.next level b = .upper ∨ l.Stacked (y.node level b).right := by
  have hn := hl.shaped.next_mem hb
  have right : (y.node level b).right = y.slot level (y.next level b) := right_of_ne ne
  rw [hl.shaped.isCovered_iff hn, right, hl.stacked_iff hn, or_comm]

/-! ## 2. One path for a whole gap -/

/-- The bounds that pass are those up to the one reached on the bottom level. -/
theorem Shaped.pass_iff_le_reached (hy : y.Shaped height) (hp : Downward p)
    (hb : b ∈ y.row level) : p b = true ↔ b ≤ y.reached p 0 :=
  ⟨fun pass => hy.le_reached (hy.nested_le hb (Nat.zero_le level)) pass,
    fun le => hp.mono le (Shaped.reached_pass hp 0)⟩

/-- **What a search reaches on the bottom level determines its whole path.** -/
theorem Shaped.path_congr (hy : y.Shaped height) (hp : Downward p) (hq : Downward q)
    (same : y.reached p 0 = y.reached q 0) : y.path p height = y.path q height := by
  have passes : ∀ level, ∀ b ∈ y.row level, p b = q b := fun level b hb => by
    rw [Bool.eq_iff_iff, hy.pass_iff_le_reached hp hb, hy.pass_iff_le_reached hq hb, same]
  have reached : ∀ level, y.reached p level = y.reached q level := fun level => by
    unfold reached lastIn
    rw [List.filter_congr (passes level)]
  have stretch : y.stretch p = y.stretch q := funext fun level => by
    unfold stretch slice
    rw [reached]
    exact congrArg List.reverse
      (List.filter_congr fun b hb => passes level b (List.mem_of_mem_filter hb))
  unfold path
  rw [stretch]

/-- Keys of the same gap have the same path. -/
theorem Shaped.digests_proof_congr (hy : y.Shaped height) {floor : Bound}
    (here : IsFloor y.keys k floor) (here' : IsFloor y.keys k' floor) (version : UInt64) :
    (y.proof h version height k').digests = (y.proof h version height k).digests := by
  have same : y.reached (Reach.upTo.passes k') 0 = y.reached (Reach.upTo.passes k) 0 :=
    ((hy.isFloor_reached k').unique here').trans (here.unique (hy.isFloor_reached k))
  have path := hy.path_congr (Reach.upTo.passes_downward k') (Reach.upTo.passes_downward k) same
  simp only [proof, same, path]

end Layout

/-! ## 3. The statement -/

/-- The leaves of the keys can be told apart, from each other and from the ends. -/
structure Hasher.TellsApart (h : Hasher) (keys : List Key) : Prop where
  leaf : ∀ k ∈ keys, ∀ k' ∈ keys, h.leaf k = h.leaf k' → k = k'
  endMark : ∀ k ∈ keys, h.leaf k ≠ h.endMark

/-- Then their floors can be told apart too. -/
theorem Hasher.TellsApart.ofBound_inj {h : Hasher} {keys : List Key} {k k' : Key} {b c : Bound}
    (apart : h.TellsApart keys) (hb : IsFloor keys k b) (hc : IsFloor keys k' c)
    (same : h.ofBound b = h.ofBound c) : b = c := by
  cases b with
  | lower =>
    cases c with
    | lower => rfl
    | key c => exact absurd same.symm (apart.endMark c hc.1)
    | upper => exact hc.elim
  | key b =>
    cases c with
    | lower => exact absurd same (apart.endMark b hb.1)
    | key c => exact congrArg Bound.key (apart.leaf b hb.1 c hc.1 same)
    | upper => exact hc.elim
  | upper => exact hb.elim

open Layout in
/-- **A path brackets the gap that its key lies in, and depends on nothing else.** It starts with the
digest of the greatest bound up to the key, and with what the next bound contributes: its own digest
if it is the right end or goes on to the level above, otherwise what its node commits to. Keys with
the same bound up to them have the same path. If the leaves of the keys that are there can be told
apart, keys with different ones have different paths. -/
theorem Reachable.path_brackets {h : Hasher} {l : SkipList} (reach : Reachable h l) :
    ∃ keys, l.keys = .ok keys ∧
      (∀ k, ∃ p left right second rest, l.prove h k = .ok p ∧ l.Gap keys k left right ∧
        p.digests = h.ofBound left.bound :: second :: rest ∧
        (right.bound = .upper ∨ l.Stacked left.right → second = h.ofBound right.bound) ∧
        (¬ (right.bound = .upper ∨ l.Stacked left.right) → second = right.digest)) ∧
      (∀ k k' floor p p', IsFloor keys k floor → IsFloor keys k' floor →
        l.prove h k = .ok p → l.prove h k' = .ok p' → p'.digests = p.digests) ∧
      (h.TellsApart keys → ∀ k k' floor floor' p p', IsFloor keys k floor →
        IsFloor keys k' floor' → floor ≠ floor' → l.prove h k = .ok p → l.prove h k' = .ok p' →
          p'.digests ≠ p.digests) := by
  obtain ⟨y, hl, -⟩ := reach.exists_layout
  have hy := hl.shaped
  refine ⟨y.keys, hl.keys, fun k => ?_, ?_, ?_⟩
  · have covered := hl.isCovered_right_iff (hy.reached_mem (p := Reach.upTo.passes k) hy.positive)
      (Shaped.reached_ne_upper (Reach.upTo.passes_downward k) 0)
    refine ⟨_, _, _, _, _, hl.prove h k, hl.gap k, rfl, fun goesOn => ?_, fun ends => ?_⟩
    · exact congrArg (Share.digest _) (if_pos (covered.mpr goesOn))
    · exact congrArg (Share.digest _) (if_neg (mt covered.mp ends))
  · intro k k' floor p p' here here' ok ok'
    rw [hl.prove] at ok ok'
    cases ok
    cases ok'
    exact hy.digests_proof_congr here here' l.version
  · intro apart k k' floor floor' p p' here here' ne ok ok' same
    rw [hl.prove] at ok ok'
    cases ok
    cases ok'
    rw [← (hy.isFloor_reached k).unique here, ← (hy.isFloor_reached k').unique here'] at ne
    exact ne (apart.ofBound_inj (hy.isFloor_reached k) (hy.isFloor_reached k')
      (List.cons.inj same).1.symm)

/-- The keys 3 and 4 have one path, and 2, which comes before 3, has another. -/
theorem path_brackets_sample :
    Reachable .byteSum sample ∧ ∃ p p' q, sample.prove .byteSum 3 = .ok p ∧
      sample.prove .byteSum 4 = .ok p' ∧ sample.prove .byteSum 2 = .ok q ∧
      p'.digests = p.digests ∧ q.digests ≠ p.digests := by
  obtain ⟨keys, all, starts, same, differ⟩ := Reachable.path_brackets reachable_sample
  have members : sample.keys = .ok [3] := by decide +kernel
  obtain rfl := Except.ok.inj (members.symm.trans all)
  have three : IsFloor [3] 3 (.key 3) :=
    ⟨List.mem_singleton_self 3, Int64.le_refl 3, List.forall_mem_singleton.mpr id⟩
  have four : IsFloor [3] 4 (.key 3) :=
    ⟨List.mem_singleton_self 3, by decide, List.forall_mem_singleton.mpr fun _ => Int64.le_refl 3⟩
  have two : IsFloor [3] 2 .lower := List.forall_mem_singleton.mpr (by decide)
  have apart : Hasher.byteSum.TellsApart [3] :=
    ⟨by simp, List.forall_mem_singleton.mpr (by decide)⟩
  obtain ⟨p, -, -, -, -, proved, -⟩ := starts 3
  obtain ⟨p', -, -, -, -, proved', -⟩ := starts 4
  obtain ⟨q, -, -, -, -, other, -⟩ := starts 2
  exact ⟨reachable_sample, p, p', q, proved, proved', other, same 3 4 _ p p' three four proved proved',
    differ apart 3 2 _ _ p q three two (by decide) proved other⟩

end AuthenticatedSet
