import AuthenticatedSet.Proofs.Layout
import AuthenticatedSet.SkipList.Update

/-!
# Layouts: nodes linked in

The smallest changes of a layout, each with the change of the store that it describes.

* `Layout.link`    -- a bound put on a level, in a slot of its own
* `Layout.mark`    -- a bound marked as going on
* `Layout.setDigest` -- a digest changed
* `Describes.change`    -- a write to one node
* `Describes.linkRight` -- a key linked in behind its predecessor
* `Describes.addFirst`  -- a node put in front of its level
-/

namespace AuthenticatedSet.Layout

/-! ## 1. Changes of a layout -/

/-- The layout with one more bound on a level. -/
def link (y : Layout) (level : Nat) (b : Bound) (i : Slot) (raised : Bool) : Layout where
  row m := if m = level then (y.row m).orderedInsert (· ≤ ·) b else y.row m
  slot m c := if m = level ∧ c = b then i else y.slot m c
  raised m c := if m = level ∧ c = b then raised else y.raised m c
  digest m c := if m = level ∧ c = b then .empty else y.digest m c

/-- The layout with a bound of a level marked. -/
def mark (y : Layout) (level : Nat) (b : Bound) : Layout :=
  { y with raised := fun m c => if m = level ∧ c = b then true else y.raised m c }

/-- The layout with the digest of a bound of a level changed. -/
def setDigest (y : Layout) (level : Nat) (b : Bound) (digest : Digest) : Layout :=
  { y with digest := fun m c => if m = level ∧ c = b then digest else y.digest m c }

variable {y y' : Layout} {s s' : Store} {level m : Nat} {b c p : Bound} {i : Slot} {r : Bool}
  {d : Digest} {k : Key}

theorem mem_row_link :
    c ∈ (y.link level b i r).row m ↔ (m = level ∧ c = b) ∨ c ∈ y.row m := by
  unfold link
  by_cases same : m = level
  · simp [same, List.mem_orderedInsert]
  · simp [same]

theorem slot_link_of_mem (new : b ∉ y.row level) (hc : c ∈ y.row m) :
    (y.link level b i r).slot m c = y.slot m c := by
  refine if_neg fun h => new ?_
  rw [← h.1, ← h.2]
  exact hc

@[simp] theorem slot_link_self : (y.link level b i r).slot level b = i := if_pos ⟨rfl, rfl⟩

theorem sorted_link (sorted : ∀ m, (y.row m).Pairwise (· < ·)) (new : b ∉ y.row level) (m : Nat) :
    ((y.link level b i r).row m).Pairwise (· < ·) := by
  unfold link
  dsimp only
  split
  · rename_i same
    subst same
    exact sorted_orderedInsert (sorted m) new
  · exact sorted m

theorem next_link_of_ne (other : m ≠ level) : (y.link level b i r).next m c = y.next m c := by
  simp only [next, link, if_neg other]

theorem next_link_of_le (h : b ≤ c) : (y.link level b i r).next m c = y.next m c := by
  by_cases same : m = level
  · simp only [next, link, if_pos same]
    exact nextIn_orderedInsert_of_le h
  · exact next_link_of_ne same

/-- In front of a bound that is put in, what comes next is that bound or what came next before. -/
theorem next_link_of_lt (sorted : (y.row level).Pairwise (· < ·)) (upper : .upper ∈ y.row level)
    (new : b ∉ y.row level) (h : c < b) :
    (y.link level b i r).next level c = min (y.next level c) b := by
  simp only [next, link, if_pos]
  exact nextIn_orderedInsert_of_lt sorted upper new h

theorem down_link (h : ¬ (m = level + 1 ∧ c = b)) :
    (y.link level b i r).down m c = y.down m c := by
  cases m with
  | zero => rfl
  | succ n => exact if_neg fun h' => h ⟨congrArg (· + 1) h'.1, h'.2⟩

/-- The node of the new bound. -/
theorem node_link_self (new : b ∉ y.row level) (upper : b ≠ .upper → .upper ∈ y.row level) :
    (y.link level b i r).node level b =
      ⟨b, y.right level b, y.down level b, r, .empty⟩ := by
  have right : (y.link level b i r).right level b = y.right level b := by
    by_cases hb : b = .upper
    · rw [hb, right_upper, right_upper]
    · rw [right_of_ne hb, right_of_ne hb, next_link_of_le le_rfl]
      exact slot_link_of_mem new (nextIn_mem (upper hb) b)
  rw [node, right, down_link (by omega)]
  simp only [link, and_self, if_pos]

/-- The node of the predecessor, whose right link alone is another one. -/
theorem node_link_pred (sorted : (y.row level).Pairwise (· < ·)) (upper : .upper ∈ y.row level)
    (new : b ∉ y.row level) (lt : p < b) (gt : b < y.next level p) :
    (y.link level b i r).node level p = { y.node level p with right := i } := by
  have right : (y.link level b i r).right level p = i := by
    rw [right_of_ne (Bound.ne_upper_of_lt lt), next_link_of_lt sorted upper new lt,
      min_eq_right gt.le]
    exact slot_link_self
  rw [node, right, down_link (by omega)]
  simp only [node, link, lt.ne, and_false, if_false]

/-- The node of a bound that was there stays as it is unless the new bound comes next. -/
theorem node_link_of_mem (new : b ∉ y.row level) (top : b ∉ y.row (level + 1))
    (upper : .upper ∈ y.row m) (hc : c ∈ y.row m)
    (next : (y.link level b i r).next m c = y.next m c) :
    (y.link level b i r).node m c = y.node m c := by
  have other : ¬ (m = level ∧ c = b) := by
    intro h
    obtain ⟨rfl, rfl⟩ := h
    exact new hc
  have right : (y.link level b i r).right m c = y.right m c := by
    by_cases hu : c = .upper
    · rw [hu, right_upper, right_upper]
    · rw [right_of_ne hu, right_of_ne hu, next]
      exact slot_link_of_mem new (nextIn_mem upper c)
  have down : (y.link level b i r).down m c = y.down m c := by
    refine down_link fun h => top ?_
    rw [← h.1, ← h.2]
    exact hc
  rw [node, node, right, down]
  simp only [link, if_neg other]

/-- Away from the predecessor, what comes next stays. -/
theorem next_link_of_ne_pred (sorted : (y.row level).Pairwise (· < ·))
    (upper : .upper ∈ y.row level) (new : b ∉ y.row level) (hp : p ∈ y.row level) (lt : p < b)
    (gt : b < y.next level p) (hc : c ∈ y.row m) (ne : ¬ (m = level ∧ c = p)) :
    (y.link level b i r).next m c = y.next m c := by
  by_cases same : m = level
  · subst same
    rcases lt_or_ge c b with h | h
    · -- the predecessor itself lies between this bound and the new one
      have before : c < p := by
        rcases lt_trichotomy c p with h' | rfl | h'
        · exact h'
        · exact absurd ⟨rfl, rfl⟩ ne
        · exact absurd h (gt.trans_le (nextIn_le sorted hc h')).not_gt
      rw [next_link_of_lt sorted upper new h]
      exact min_eq_left ((nextIn_le sorted hp before).trans lt.le)
    · exact next_link_of_le h
  · exact next_link_of_ne same

/-! ## 2. Changes of a store -/

namespace Describes

/-- A write to one node describes the layout that differs in this node only. -/
theorem change (hs : y.Describes s) (hb : b ∈ y.row level) {f : Node → Node}
    (row : y'.row = y.row) (slot : y'.slot = y.slot) (here : f (y.node level b) = y'.node level b)
    (others : ∀ m c, c ∈ y.row m → ¬ (m = level ∧ c = b) → y'.node m c = y.node m c) :
    ∃ s', s.update (y.slot level b) f = .ok s' ∧ y'.Describes s' := by
  obtain ⟨s', ok, changed, kept, size, free⟩ := Store.update_spec f (hs.get hb)
  refine ⟨s', ok, hs.sound.of_sizes size free, fun i => ?_, fun {m c} hc => ?_, ?_⟩
  · rw [Store.inUse_of_sizes size free, row, slot]
    exact hs.inUse i
  · rw [row] at hc
    rw [slot]
    by_cases same : m = level ∧ c = b
    · obtain ⟨rfl, rfl⟩ := same
      rw [changed, here]
    · rw [kept _ fun h => same (hs.slot_inj hc hb h), hs.get hc, others m c hc same]
  · rw [row, slot]
    exact hs.apart

theorem mark (hs : y.Describes s) (hb : b ∈ y.row level) :
    ∃ s', s.markContinued (y.slot level b) = .ok s' ∧ (y.mark level b).Describes s' := by
  refine hs.change hb rfl rfl ?_ fun m c _ other => ?_
  · simp only [node, Layout.mark, and_self, if_pos]
    cases level <;> rfl
  · simp only [node, Layout.mark, if_neg other]
    cases m <;> rfl

theorem setDigest (hs : y.Describes s) (hb : b ∈ y.row level) (d : Digest) :
    ∃ s', s.update (y.slot level b) (fun node => { node with digest := d }) = .ok s' ∧
      (y.setDigest level b d).Describes s' := by
  refine hs.change hb rfl rfl ?_ fun m c _ other => ?_
  · simp only [node, Layout.setDigest, and_self, if_pos]
    cases level <;> rfl
  · simp only [node, Layout.setDigest, if_neg other]
    cases m <;> rfl

/-- A store with one more slot in use describes the layout with one more bound, if it holds the
right nodes. -/
theorem link (hs : y.Describes s) (sound : s'.Sound) (fresh : ¬ s.InUse i)
    (use : ∀ j, s'.InUse j ↔ s.InUse j ∨ j = i) (new : b ∉ y.row level)
    (here : s'.get i = .ok ((y.link level b i r).node level b))
    (others : ∀ m c, c ∈ y.row m → s'.get (y.slot m c) = .ok ((y.link level b i r).node m c)) :
    (y.link level b i r).Describes s' := by
  have apart : ∀ {m c}, c ∈ y.row m → y.slot m c ≠ i := fun hc same => by
    have := hs.slot_inUse hc
    rw [same] at this
    exact fresh this
  refine ⟨sound, fun j => ?_, fun {m c} hc => ?_, fun {m n c} hc hc' same => ?_⟩
  · rw [use, hs.inUse]
    constructor
    · intro h
      rcases h with ⟨m, c, hc, rfl⟩ | rfl
      · exact ⟨m, c, mem_row_link.mpr (.inr hc), slot_link_of_mem new hc⟩
      · exact ⟨level, b, mem_row_link.mpr (.inl ⟨rfl, rfl⟩), slot_link_self⟩
    · intro h
      obtain ⟨m, c, hc, rfl⟩ := h
      rcases mem_row_link.mp hc with ⟨rfl, rfl⟩ | hc
      · exact .inr slot_link_self
      · exact .inl ⟨m, c, hc, (slot_link_of_mem new hc).symm⟩
  · rcases mem_row_link.mp hc with ⟨rfl, rfl⟩ | hc
    · rw [slot_link_self]
      exact here
    · rw [slot_link_of_mem new hc]
      exact others m c hc
  · rcases mem_row_link.mp hc with ⟨rfl, rfl⟩ | old <;>
      rcases mem_row_link.mp hc' with ⟨hn, hb⟩ | old'
    · exact hn.symm
    · rw [slot_link_self, slot_link_of_mem new old'] at same
      exact absurd same.symm (apart old')
    · subst hn hb
      rw [slot_link_self, slot_link_of_mem new old] at same
      exact absurd same (apart old)
    · rw [slot_link_of_mem new old, slot_link_of_mem new old'] at same
      exact hs.apart old old' same

/-- **A key linked in behind its predecessor** describes the layout with the key on that level. -/
theorem linkRight (hs : y.Describes s) (sorted : (y.row level).Pairwise (· < ·))
    (upper : ∀ {m c}, c ∈ y.row m → .upper ∈ y.row m) (hp : p ∈ y.row level) (lt : p < .key k)
    (gt : .key k < y.next level p) (top : .key k ∉ y.row (level + 1)) (room : s.HasRoom 1) :
    ∃ i s', s.linkRight (y.slot level p) k (y.down level (.key k)) = .ok (i, s') ∧
      (y.link level (.key k) i false).Describes s' := by
  have new : Bound.key k ∉ y.row level := fun hk => (nextIn_le sorted hk lt).not_gt gt
  have next : y.next level (.key k) = y.next level p := by
    refine (nextIn_eq_iff sorted (upper hp) (Bound.key_lt_upper k).ne).mpr ⟨?_, gt, ?_⟩
    · exact nextIn_mem (upper hp) p
    · exact fun d hd h => nextIn_le sorted hd (lt.trans h)
  obtain ⟨i, s1, add, sound, fresh, use, here, kept⟩ := Store.add_spec hs.sound room
    (.fresh (.key k) (y.right level p) (y.down level (.key k)))
  have ne : y.slot level p ≠ i := fun same => fresh (same ▸ hs.slot_inUse hp)
  have old : s1.get (y.slot level p) = .ok (y.node level p) := by
    rw [kept _ ne (hs.slot_inUse hp), hs.get hp]
  obtain ⟨s', ok, changed, kept', size, free⟩ :=
    Store.update_spec (fun node => { node with right := i }) old
  refine ⟨i, s', ?_, hs.link (sound.of_sizes size free) fresh ?_ new ?_ ?_⟩
  · have right : (y.node level p).right = y.right level p := rfl
    rw [Store.linkRight, hs.get hp, ok_bind, right, add, ok_bind]
    show (s1.update (y.slot level p) _ >>= _) = _
    rw [ok]
    rfl
  · exact fun j => (Store.inUse_of_sizes size free j).trans (use j)
  · have right : y.right level (.key k) = y.right level p := by
      rw [right_of_ne (Bound.key_lt_upper k).ne, next, right_of_ne (Bound.ne_upper_of_lt lt)]
    rw [kept' i ne.symm, here, node_link_self new fun _ => upper hp, right]
    rfl
  · intro m c hc
    by_cases pred : m = level ∧ c = p
    · obtain ⟨rfl, rfl⟩ := pred
      rw [changed, node_link_pred sorted (upper hp) new lt gt]
    · rw [kept' _ fun h => pred (hs.slot_inj hc hp h),
        kept _ (fun same => fresh (same ▸ hs.slot_inUse hc)) (hs.slot_inUse hc), hs.get hc]
      exact congrArg _ (node_link_of_mem new top (upper hc) hc
        (next_link_of_ne_pred sorted (upper hp) new hp lt gt hc pred)).symm

/-- **A node put in front of its level** describes the layout with its bound on that level. -/
theorem addFirst (hs : y.Describes s) (sorted : (y.row level).Pairwise (· < ·))
    (upper : ∀ {m c}, c ∈ y.row m → .upper ∈ y.row m) (first : ∀ c ∈ y.row level, b < c)
    (end' : b ≠ .upper → .upper ∈ y.row level) (top : b ∉ y.row (level + 1)) (room : s.HasRoom 1)
    (r : Bool) :
    ∃ i s', s.add { Node.fresh b (y.right level b) (y.down level b) with continued := r } =
        .ok (i, s') ∧ (y.link level b i r).Describes s' := by
  have new : b ∉ y.row level := fun hb => (first b hb).false
  obtain ⟨i, s', add, sound, fresh, use, here, kept⟩ := Store.add_spec hs.sound room
    { Node.fresh b (y.right level b) (y.down level b) with continued := r }
  refine ⟨i, s', add, hs.link sound fresh use new ?_ fun m c hc => ?_⟩
  · rw [here, node_link_self new end']
    rfl
  · rw [kept _ (fun same => fresh (same ▸ hs.slot_inUse hc)) (hs.slot_inUse hc), hs.get hc]
    refine congrArg _ (node_link_of_mem new top (upper hc) hc ?_).symm
    by_cases same : m = level
    · subst same
      exact next_link_of_le (first c hc).le
    · exact next_link_of_ne same

end Describes

end AuthenticatedSet.Layout
