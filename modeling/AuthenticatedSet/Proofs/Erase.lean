import AuthenticatedSet.Proofs.Insert

/-!
# Erasing

A key that is in the list loses its tower, from the bottom up, and every digest is current again
afterwards. The levels stay, also where no key is left on them.

* `Layout.without`   -- the layout without a bound on so many levels
* `Describes.drop`   -- one node taken out of its level, and its slot set free
* `Layout.keySites`  -- the places of a key
* `Describes.unlink` -- a whole tower; it stops at the first level that lacks the key, and its slots
  are in front of the free ones then
* `Carries.unlink`   -- the tower with the digests that depended on it
* `Of.erase`         -- the whole operation, which always goes through
-/

namespace AuthenticatedSet.Layout

/-- The layout without a bound on so many levels from the bottom. -/
def without (y : Layout) (b : Bound) (levels : Nat) : Layout :=
  { y with row := fun m => if m < levels then (y.row m).filter (· ≠ b) else y.row m }

/-- The places of a key from this level up. -/
def keySites (y : Layout) (k : Key) (level height : Nat) : List Site :=
  (column (.key k) level (height - level)).filter fun site => site.2 ∈ y.row site.1

variable {y y' : Layout} {s : Store} {l : SkipList} {h : Hasher} {k : Key}
  {height level levels m : Nat} {b c p : Bound}

/-! ## 1. Layouts without a key -/

theorem mem_row_without :
    c ∈ (y.without b levels).row m ↔ c ∈ y.row m ∧ ¬ (m < levels ∧ c = b) := by
  unfold without
  dsimp only
  split
  · rename_i below
    simp [List.mem_filter, below]
  · rename_i above
    simp [above]

theorem mem_row_without_succ : c ∈ (y.without b (levels + 1)).row m ↔
    c ∈ (y.without b levels).row m ∧ ¬ (m = levels ∧ c = b) := by
  rw [mem_row_without, mem_row_without, and_assoc, ← not_or, ← or_and_right, Nat.lt_succ_iff_lt_or_eq]

theorem sorted_without (sorted : ∀ m, (y.row m).Pairwise (· < ·)) (m : Nat) :
    ((y.without b levels).row m).Pairwise (· < ·) := by
  unfold without
  dsimp only
  split
  · exact (sorted m).filter _
  · exact sorted m

theorem next_without_of_ge (h : levels ≤ m) : (y.without b levels).next m c = y.next m c := by
  simp only [next, without, if_neg (not_lt.mpr h)]

theorem next_without_of_lt (h : m < levels) (sorted : (y.row m).Pairwise (· < ·))
    (upper : .upper ∈ y.row m) (hb : b ≠ .upper) (hc : c ≠ .upper) :
    (y.without b levels).next m c = if y.next m c = b then y.next m b else y.next m c := by
  simp only [next, without, if_pos h]
  exact nextIn_filter_ne sorted upper hb hc

/-- A bound that is on no level from here on is off all levels when it is off those below. -/
theorem without_eq (le : level ≤ levels) (gone : ∀ m, level ≤ m → b ∉ y.row m) :
    y.without b levels = y.without b level := by
  unfold without
  congr 1
  funext m
  by_cases below : m < level
  · rw [if_pos below, if_pos (by omega)]
  · have all : (y.row m).filter (· ≠ b) = y.row m := by
      refine List.filter_eq_self.mpr fun c hc => decide_eq_true ?_
      intro same
      subst same
      exact gone m (not_lt.mp below) hc
    rw [if_neg below, all, ite_self]

/-- A key may be taken off all levels. -/
theorem Shaped.without (hy : y.Shaped height) (k : Key) :
    (y.without (.key k) height).Shaped height where
  positive := hy.positive
  sorted := sorted_without hy.sorted
  lower h := mem_row_without.mpr ⟨hy.lower h, by simp⟩
  upper h := mem_row_without.mpr ⟨hy.upper h, by simp⟩
  beyond {m} h := (if_neg (not_lt.mpr h)).trans (hy.beyond h)
  nested {m c} hc := by
    obtain ⟨mem, other⟩ := mem_row_without.mp hc
    exact mem_row_without.mpr ⟨hy.nested mem, fun same => other ⟨hy.lt_height mem, same.2⟩⟩
  marked {m c} hc := by
    obtain ⟨mem, other⟩ := mem_row_without.mp hc
    rw [mem_row_without]
    refine (hy.marked mem).trans (iff_self_and.mpr fun _ same => other ⟨?_, same.2⟩)
    exact hy.lt_height mem

theorem keySites_of_mem (hk : .key k ∈ y.row level) (below : level < height) :
    y.keySites k level height = (level, .key k) :: y.keySites k (level + 1) height := by
  rw [keySites, show height - level = height - (level + 1) + 1 by omega, column_succ]
  exact List.filter_cons_of_pos (decide_eq_true hk)

theorem keySites_eq_nil (gone : ∀ m, level ≤ m → .key k ∉ y.row m) :
    y.keySites k level height = [] := by
  refine List.filter_eq_nil_iff.mpr fun site hs => ?_
  obtain ⟨bound, le, -⟩ := mem_column.mp hs
  simpa [bound] using gone site.1 le

theorem mem_keySites {site : Site} (hy : y.Shaped height) :
    site ∈ y.keySites k 0 height ↔ site.2 = .key k ∧ site.2 ∈ y.row site.1 := by
  obtain ⟨m, c⟩ := site
  simp only [keySites, List.mem_filter, mem_column, decide_eq_true_eq]
  constructor
  · intro h
    exact ⟨h.1.1, h.2⟩
  · intro h
    have := hy.lt_height h.2
    exact ⟨⟨h.1, Nat.zero_le m, by omega⟩, h.2⟩

/-! ## 2. A tower taken out of a store -/

/-- Away from the predecessor, a node taken out of its level changes no other. -/
theorem node_without_of_ne (hy : y.Shaped height) (hb : b ≠ .upper)
    (hp : p ∈ y.row level) (ne : p ≠ .upper) (next : y.next level p = b) (hc : c ∈ y.row m)
    (other : ¬ (m = level ∧ c = p)) :
    (y.without b (level + 1)).node m c = (y.without b level).node m c := by
  have right : (y.without b (level + 1)).right m c = (y.without b level).right m c := by
    by_cases hu : c = .upper
    · rw [hu, right_upper, right_upper]
    rw [right_of_ne hu, right_of_ne hu]
    refine congrArg (y.slot m) ?_
    rcases lt_trichotomy m level with lt | rfl | gt
    · rw [next_without_of_lt (by omega) (hy.sorted m) (hy.upper_mem hc) hb hu,
        next_without_of_lt lt (hy.sorted m) (hy.upper_mem hc) hb hu]
    · rw [next_without_of_lt (by omega) (hy.sorted m) (hy.upper_mem hc) hb hu,
        next_without_of_ge le_rfl, if_neg]
      -- two bounds of a level do not have the same next one
      intro same
      have lt : c < b := same ▸ Shaped.lt_next hu
      have lt' : p < b := next ▸ Shaped.lt_next ne
      rcases lt_trichotomy c p with h | h | h
      · exact (same ▸ hy.next_le hp h : b ≤ p).not_gt lt'
      · exact other ⟨rfl, h⟩
      · exact (next ▸ hy.next_le hc h : b ≤ c).not_gt lt
    · rw [next_without_of_ge (by omega), next_without_of_ge gt.le]
  have down : (y.without b (level + 1)).down m c = (y.without b level).down m c := by
    cases m <;> rfl
  rw [node, right, down]
  rfl

/-- The predecessor is linked to what comes after the bound taken out. -/
theorem node_without_pred (hy : y.Shaped height) (hb : b ≠ .upper) (hp : p ∈ y.row level)
    (ne : p ≠ .upper) (next : y.next level p = b) :
    (y.without b (level + 1)).node level p =
      { (y.without b level).node level p with right := ((y.without b level).node level b).right } := by
  have right : (y.without b (level + 1)).right level p = (y.without b level).right level b := by
    rw [right_of_ne ne, right_of_ne hb, next_without_of_ge (y := y) (b := b) le_rfl,
      next_without_of_lt (Nat.lt_succ_self _) (hy.sorted level) (hy.upper_mem hp) hb ne, if_pos next]
    rfl
  have down : (y.without b (level + 1)).down level p = (y.without b level).down level p := by
    cases level <;> rfl
  rw [node, right, down]
  rfl

namespace Describes

/-- **A node taken out of its level**, being gone below already. -/
theorem drop (hs : (y.without b level).Describes s) (hy : y.Shaped height) (hb : b ≠ .upper)
    (hp : p ∈ y.row level) (ne : p ≠ .upper) (next : y.next level p = b) :
    ∃ s1 s2, s.update (y.slot level p) (fun node =>
          { node with right := ((y.without b level).node level b).right }) = .ok s1 ∧
      s1.discard (y.slot level b) = .ok s2 ∧ (y.without b (level + 1)).Describes s2 := by
  have here : b ∈ (y.without b level).row level :=
    mem_row_without.mpr ⟨next ▸ hy.next_mem hp, by omega⟩
  have pred : p ∈ (y.without b level).row level := mem_row_without.mpr ⟨hp, by omega⟩
  have apart : p ≠ b := (next ▸ Shaped.lt_next ne : p < b).ne
  obtain ⟨s1, ok1, changed, kept, size, free⟩ := Store.update_spec (fun node =>
    { node with right := ((y.without b level).node level b).right }) (hs.get pred)
  obtain ⟨s2, ok2, sound, use, kept2⟩ := Store.discard_spec (hs.sound.of_sizes size free)
    ((Store.inUse_of_sizes size free _).mpr (hs.slot_inUse here))
  have others : ∀ {m c}, c ∈ (y.without b (level + 1)).row m →
      c ∈ (y.without b level).row m ∧ (y.without b level).slot m c ≠ y.slot level b := fun hc => by
    obtain ⟨mem, out⟩ := mem_row_without_succ.mp hc
    exact ⟨mem, fun same => out (hs.slot_inj mem here same)⟩
  refine ⟨s1, s2, ok1, ok2, sound, fun i => ?_, fun {m c} hc => ?_, fun hc hc' same => ?_⟩
  · rw [use, Store.inUse_of_sizes size free, hs.inUse]
    constructor
    · intro h
      obtain ⟨⟨m, c, hc, rfl⟩, other⟩ := h
      refine ⟨m, c, mem_row_without_succ.mpr ⟨hc, ?_⟩, rfl⟩
      intro h
      obtain ⟨rfl, rfl⟩ := h
      exact other rfl
    · intro h
      obtain ⟨m, c, hc, rfl⟩ := h
      exact ⟨⟨m, c, (others hc).1, rfl⟩, (others hc).2⟩
  · obtain ⟨mem, ne'⟩ := others hc
    refine (kept2 _ ne').trans ?_
    by_cases first : m = level ∧ c = p
    · obtain ⟨rfl, rfl⟩ := first
      rw [node_without_pred hy hb hp ne next]
      exact changed
    · rw [node_without_of_ne hy hb hp ne next (mem_row_without.mp mem).1 first, ← hs.get mem]
      exact kept _ fun same => first (hs.slot_inj mem pred same)
  · exact hs.apart (others hc).1 (others hc').1 same

/-- **A tower taken out**, from this level up: it ends where a level lacks the key. -/
theorem unlink {left : List Slot} (hs : (y.without (.key k) level).Describes s)
    (hy : y.Shaped height) (hleft : y.Preceded (.key k) height level left) :
    ∃ s', s.unlink k left = .ok s' ∧ (y.without (.key k) height).Describes s' ∧
      s'.nodes.size = s.nodes.size ∧
      s'.free = (y.slots (y.keySites k level height)).reverse ++ s.free := by
  induction left generalizing s level with
  | nil =>
    obtain rfl : level = height := hleft
    exact ⟨s, rfl, hs, rfl, by simp [keySites, column, slots]⟩
  | cons i left ih =>
    obtain ⟨⟨p, hp, lt, le, rfl⟩, hleft⟩ := hleft
    have ne := Bound.ne_upper_of_lt lt
    have pred : p ∈ (y.without (.key k) level).row level := mem_row_without.mpr ⟨hp, by omega⟩
    have next : (y.without (.key k) level).next level p = y.next level p :=
      next_without_of_ge le_rfl
    have mem : (y.without (.key k) level).next level p ∈ (y.without (.key k) level).row level :=
      next ▸ mem_row_without.mpr ⟨hy.next_mem hp, by omega⟩
    have first := hs.get pred
    have victim := hs.get_right ne mem
    have slot : (y.without (.key k) level).slot level p = y.slot level p := rfl
    rw [slot] at first
    rw [next] at victim
    rw [Store.unlink, first, ok_bind, victim, ok_bind]
    by_cases found : y.next level p = .key k
    · obtain ⟨s1, s2, ok1, ok2, h2⟩ := hs.drop hy (Bound.key_lt_upper k).ne hp ne found
      obtain ⟨s', ok', h', size', free'⟩ := ih h2 hleft
      obtain ⟨size1, free1⟩ := Store.update_sizes ok1
      obtain ⟨size2, free2⟩ := Store.discard_sizes ok2
      have here : Bound.key k ∈ y.row level := found ▸ hy.next_mem hp
      refine ⟨s', ?_, h', size'.trans (size2.trans size1), ?_⟩
      · have right : ((y.without (.key k) level).node level p).right = y.slot level (.key k) := by
          show (y.without (.key k) level).right level p = _
          rw [right_of_ne ne, next, found]
          rfl
        have bound : ((y.without (.key k) level).node level (y.next level p)).bound = .key k := found
        rw [if_pos bound, found, ok1, ok_bind, right, ok2, ok_bind]
        exact ok'
      · rw [free', free2, free1, keySites_of_mem here (hy.lt_height hp)]
        simp [slots]
    · -- the key is neither here nor above
      have gone : ∀ m, level ≤ m → Bound.key k ∉ y.row m := fun m hm hk =>
        found (le_antisymm (hy.next_le (hy.nested_le hk hm) lt) le)
      refine ⟨s, if_neg found, ?_, rfl, by rw [keySites_eq_nil gone]; rfl⟩
      rwa [without_eq (hy.lt_height hp).le gone]

end Describes

/-! ## 3. The operation -/

/-- `y'` is `y` without one key. -/
structure Erased (y y' : Layout) (k : Key) : Prop where
  mem : ∀ {m c}, c ∈ y'.row m ↔ c ∈ y.row m ∧ c ≠ .key k
  slot : y'.slot = y.slot

/-- What erasing a key leaves. -/
structure Erases (y y' : Layout) (h : Hasher) (l : SkipList) (k : Key) (change : Change) :
    Prop where
  list : y'.Of change.list
  current : y.Current h → y'.Current h
  erased : y.Erased y' k
  height : change.list.height = l.height
  present : .key k ∈ y.row 0 → change.changed = true ∧ change.list.version = l.version + 1
  absent : .key k ∉ y.row 0 → change = ⟨false, l, []⟩
  slots : change.list.store.nodes.size = l.store.nodes.size
  /-- The slots of the tower are free then, the topmost one in front. -/
  free : change.list.store.free = (y.slots (y.keySites k 0 l.height)).reverse ++ l.store.free
  /-- Off the path digests stay. -/
  kept : ∀ {m c}, (m, c) ∉ y.path (Reach.below.passes k) l.height →
    y'.digest m c = y.digest m c
  /-- Those of the path follow from what is there then. -/
  refreshed : .key k ∈ y.row 0 → ∀ {m c}, (m, c) ∈ y.path (Reach.below.passes k) l.height →
    y'.digest m c = y'.commit h m c

theorem Shaped.erased_without (hy : y.Shaped height) (k : Key) :
    y.Erased (y.without (.key k) height) k where
  slot := rfl
  mem {m c} := by
    rw [mem_row_without]
    refine and_congr_right fun mem => ?_
    simp [hy.lt_height mem]

/-- A layout without a key agrees with the whole one off that key. -/
theorem agreeOff_without : y.AgreeOff (y.without (.key k) height) k where
  mem key _ _ := by
    rw [mem_row_without]
    exact ⟨fun h => ⟨h, fun same => key same.2⟩, And.left⟩
  digest _ _ := rfl

/-- **After a key is taken out, refreshing the path brings all digests up to date.** -/
theorem Shaped.current_refresh_without (hy : y.Shaped height) (current : y.Current h) :
    ((y.without (.key k) height).refresh h (y.path (Reach.below.passes k) height)).Current h := by
  have hp := Reach.below.passes_downward k
  have hy' := hy.without k
  refine Layout.current_refresh (hy.path_ordered hp) ?_ ?_
  · intro site hs reader mem ne reads
    rcases agreeOff_without.path_closed_off hy hs mem ne reads hy' with path | ⟨-, ge, lt⟩
    · exact path
    · exact absurd lt ge.not_gt
  · intro m c hc ne out
    have old := (mem_row_without.mp hc).1
    rw [agreeOff_without.commit_off_path hy hy' old hc ne fun same => out ?_]
    · exact current m c old ne
    · exact same ▸ hy.reached_mem_path hp (hy.lt_height old)

/-- A level has at least its two ends. -/
theorem Shaped.two_le_length_row (hy : y.Shaped height) (h : m < height) :
    2 ≤ (y.row m).length := by
  have nodup : [Bound.lower, .upper].Nodup := by decide
  have subset : [Bound.lower, .upper] ⊆ y.row m := by simp [hy.lower h, hy.upper h]
  exact (List.Nodup.subperm nodup subset).length_le

/-- A key taken out makes the bottom row shorter by one. -/
theorem Shaped.length_row_without (hy : y.Shaped height) (hk : .key k ∈ y.row 0) :
    ((y.without (.key k) height).row 0).length + 1 = (y.row 0).length := by
  have nodup : (y.row 0).Nodup := (hy.sorted 0).imp ne_of_lt
  have row : (y.without (.key k) height).row 0 = (y.row 0).erase (.key k) := by
    rw [nodup.erase_eq_filter]
    refine (if_pos hy.positive).trans (List.filter_congr fun c _ => ?_)
    rw [Bool.eq_iff_iff]
    simp
  rw [row, List.length_erase_of_mem hk]
  have := hy.two_le_length_row hy.positive
  omega

/-- Each place of the path has what its digest comes from, also without the key. -/
theorem Shaped.path_supported_without (hy : y.Shaped height) :
    ∀ site ∈ y.path (Reach.below.passes k) height, (y.without (.key k) height).Supported site := by
  rintro ⟨m, c⟩ hs
  obtain ⟨-, mem, -, pass⟩ := mem_path.mp hs
  refine (hy.without k).supported (mem_row_without.mpr ⟨mem, fun same => ?_⟩)
    (ne_upper_of_pass (Reach.below.passes_downward k) pass)
  exact (below_passes_iff.mp pass).ne same.2

theorem Erased.refresh (erased : y.Erased y' k) (h : Hasher) (sites : List Site) :
    y.Erased (y'.refresh h sites) k where
  mem := by
    rw [row_refresh]
    exact erased.mem
  slot := by
    rw [slot_refresh]
    exact erased.slot

/-- A key that is in the list taken out of it, and all digests that depended on it computed anew. -/
theorem Carries.unlink (hl : y.Carries l) {trail : Trail}
    (ht : y.Trails (Reach.below.passes k) l.height trail) (h : Hasher) :
    ∃ s1 s', l.store.unlink k trail.predecessors = .ok s1 ∧
      s1.refresh h trail.backward = .ok s' ∧
      ((y.without (.key k) l.height).refresh h (y.path (Reach.below.passes k) l.height)).Carries
        { l with store := s' } ∧
      s'.nodes.size = l.store.nodes.size ∧
      s'.free = (y.slots (y.keySites k 0 l.height)).reverse ++ l.store.free := by
  have whole : (y.without (.key k) 0).Describes l.store := hl.describes
  obtain ⟨s1, unlinked, h1, size1, free1⟩ := whole.unlink hl.shaped (ht.preceded hl.shaped)
  have hl1 : (y.without (.key k) l.height).Carries { l with store := s1 } :=
    ⟨h1, hl.shaped.without k, hl.lower, hl.upper⟩
  obtain ⟨s', refreshed, h'⟩ := hl1.refresh h hl.shaped.path_supported_without
  obtain ⟨size', free'⟩ := refresh_sizes refreshed
  refine ⟨s1, s', unlinked, ?_, h', size'.trans size1, free'.trans free1⟩
  rw [ht.backward]
  exact refreshed

/-- **Erasing a key** always goes through. -/
theorem Of.erase (hl : y.Of l) (h : Hasher) (k : Key) :
    ∃ change y', l.erase h k = .ok change ∧ y.Erases y' h l k change := by
  have hp := Reach.below.passes_downward k
  obtain ⟨trail, found, ht⟩ := hl.search .below k
  by_cases hk : .key k ∈ y.row 0
  · obtain ⟨s1, s', unlinked, refreshed, h', size', free'⟩ := hl.unlink ht h
    have shorter := hl.shaped.length_row_without hk
    have ends := (hl.shaped.without k).two_le_length_row hl.shaped.positive
    have count := hl.size
    obtain ⟨size, hsize⟩ : ∃ size, l.size = size + 1 := Nat.exists_eq_add_one.mpr (by omega)
    refine ⟨⟨true, { l with store := s', size, version := l.version + 1 },
      [.erased k (l.version + 1)]⟩, _, ?_,
      ⟨⟨h'.describes, h'.shaped, h'.lower, h'.upper⟩, ?_⟩, hl.shaped.current_refresh_without,
      (hl.shaped.erased_without k).refresh h _, rfl, fun _ => ⟨rfl, rfl⟩,
      fun new => absurd hk new, size', free', digest_refresh_of_not_mem,
      fun _ {_ _} hs => digest_refresh_of_mem (hl.shaped.path_ordered hp) hs
        (ne_upper_of_pass hp (mem_path.mp hs).2.2.2)⟩
    · rw [SkipList.erase, found, ok_bind, hl.precedes ht, ok_bind, if_pos (decide_eq_true hk),
        unlinked, ok_bind, refreshed, ok_bind, hsize]
      rfl
    · rw [row_refresh]
      show _ = size + 2
      omega
  · have gone : ∀ m, Bound.key k ∉ y.row m := fun m mem =>
      hk (hl.shaped.nested_le mem (Nat.zero_le m))
    have absent : ∀ {m c}, c ∈ y.row m ↔ c ∈ y.row m ∧ c ≠ .key k := fun {m c} =>
      ⟨fun mem => ⟨mem, fun same => gone m (same ▸ mem)⟩, And.left⟩
    refine ⟨⟨false, l, []⟩, y, ?_, hl, id, ⟨absent, rfl⟩, rfl, fun old => absurd old hk,
      fun _ => rfl, rfl, by rw [keySites_eq_nil fun m _ => gone m]; rfl, fun _ => rfl,
      fun old => absurd old hk⟩
    rw [SkipList.erase, found, ok_bind, hl.precedes ht, ok_bind, if_neg (by simpa using hk)]
    rfl

end AuthenticatedSet.Layout
