import AuthenticatedSet.Proofs.Change

/-!
# Inserting

A key that is not in the list gets its tower, the list the levels that the tower needs, and every
digest is current again afterwards.

* `Layout.Inserted`  -- the layout with a tower of so many levels for one more key
* `Carries.contains` -- a search answers whether the key is on the bottom level
* `Carries.raiseTower` -- a tower put behind a trail, for any height of it
* `Of.insert`        -- the whole operation: it goes through if there is room for the tower
* `takes_place`, `takes_insert` -- what a tower takes, so that one put in had room
-/

namespace AuthenticatedSet

/-- How many slots a tower takes that goes so many levels above the bottom one: one for each of its
nodes, and two for each level that is new. -/
def SkipList.towerNodes (l : SkipList) (levels : Nat) : Nat :=
  levels + 1 + 2 * (levels + 1 - l.height)

namespace Layout

/-- `y'` is `y` with one more key on the levels up to this one, and with their ends. -/
structure Inserted (y y' : Layout) (k : Key) (levels : Nat) : Prop where
  mem : ∀ {m c}, c ∈ y'.row m ↔
    c ∈ y.row m ∨ (m ≤ levels ∧ (c = .key k ∨ c = .lower ∨ c = .upper))
  slot : ∀ {m c}, c ∈ y.row m → y'.slot m c = y.slot m c

variable {y y' y1 : Layout} {l : SkipList} {h : Hasher} {k : Key} {trail : Trail}
  {height height' level levels grown m : Nat} {b c : Bound} {coins : Coins}

/-! ## 1. Whether a key is there -/

theorem Shaped.next_reached_eq_iff (hy : y.Shaped height) :
    y.next 0 (y.reached (Reach.below.passes k) 0) = .key k ↔ .key k ∈ y.row 0 := by
  have mem := hy.reached_mem (p := Reach.below.passes k) hy.positive
  constructor
  · intro same
    exact same ▸ hy.next_mem mem
  · intro hk
    exact le_antisymm (hy.next_le hk (reached_lt_key y k 0)) (hy.key_le_next_reached hy.positive)

/-- Behind the trail of a search the key follows if it is there. -/
theorem Carries.precedes (hl : y.Carries l)
    (ht : y.Trails (Reach.below.passes k) l.height trail) :
    l.precedes trail.bottom.last k = .ok (decide (.key k ∈ y.row 0)) := by
  have hp := Reach.below.passes_downward k
  have mem := hl.shaped.reached_mem (p := Reach.below.passes k) hl.shaped.positive
  rw [ht.last hl.shaped hp, SkipList.precedes, hl.describes.get mem, ok_bind,
    hl.describes.get_right (Shaped.reached_ne_upper hp 0) (hl.shaped.next_mem mem), ok_bind]
  exact congrArg Except.ok (decide_eq_decide.mpr hl.shaped.next_reached_eq_iff)

theorem Carries.contains (hl : y.Carries l) (k : Key) :
    l.contains k = .ok (decide (.key k ∈ y.row 0)) := by
  obtain ⟨trail, ok, ht⟩ := hl.search .below k
  rw [SkipList.contains, ok, ok_bind]
  exact hl.precedes ht

/-! ## 2. The predecessors -/

theorem Shaped.preceded (hy : y.Shaped height) (levels : Nat) (h : level + levels = height) :
    y.Preceded (.key k) height level ((List.range' level levels).map fun m =>
      y.slot m (y.reached (Reach.below.passes k) m)) := by
  induction levels generalizing level with
  | zero => exact h
  | succ levels ih =>
    refine ⟨⟨_, hy.reached_mem (by omega), reached_lt_key y k level, ?_, rfl⟩, ih (by omega)⟩
    exact hy.key_le_next_reached (by omega)

theorem Trails.preceded (ht : y.Trails (Reach.below.passes k) height trail)
    (hy : y.Shaped height) : y.Preceded (.key k) height 0 trail.predecessors := by
  rw [ht.predecessors hy (Reach.below.passes_downward k), List.range_eq_range']
  exact hy.preceded height (Nat.zero_add height)

theorem Trails.length_above {p : Bound → Bool} (ht : y.Trails p height trail) :
    trail.above.length + 1 = height := by
  simpa [Trail.stretches] using congrArg List.length ht

/-! ## 3. What is refreshed -/

/-- The places refreshed after a key is put in: its tower, the path, the left ends of new levels. -/
def insertOrder (y : Layout) (k : Key) (height levels grown : Nat) : List Site :=
  column (.key k) 0 (levels + 1) ++ y.path (Reach.below.passes k) height ++
    column .lower height grown

theorem column_ordered (b : Bound) (level levels : Nat) :
    (column b level levels).Pairwise Site.Before := by
  have ascending : (List.range' level levels).Pairwise (· < ·) := List.pairwise_lt_range'
  exact List.pairwise_map.mpr (ascending.imp fun lt => .inr ⟨rfl, lt⟩)

theorem Shaped.insertOrder_ordered (hy : y.Shaped height) (k : Key) (levels grown : Nat) :
    (y.insertOrder k height levels grown).Pairwise Site.Before := by
  refine List.pairwise_append.mpr ⟨List.pairwise_append.mpr ⟨column_ordered _ _ _,
    hy.path_ordered (Reach.below.passes_downward k), ?_⟩, column_ordered _ _ _, ?_⟩
  · rintro ⟨m, b⟩ hb ⟨n, c⟩ hc
    obtain ⟨rfl, -⟩ := mem_column.mp hb
    exact .inl (below_passes_iff.mp (mem_path.mp hc).2.2.2)
  · rintro ⟨m, b⟩ hb ⟨n, c⟩ hc
    obtain ⟨rfl, ge, -⟩ := mem_column.mp hc
    rcases List.mem_append.mp hb with hb | hb
    · obtain ⟨rfl, -⟩ := mem_column.mp hb
      exact .inl (Bound.lower_lt_key k)
    · rcases (Bound.lower_le b).lt_or_eq with lt | same
      · exact .inl lt
      · have := (mem_path.mp hb).1
        exact .inr ⟨same, by show m < n; omega⟩

/-- Of the old places only those of the path are refreshed. -/
theorem Shaped.not_mem_insertOrder (hy : y.Shaped height) (new : .key k ∉ y.row 0)
    (hc : c ∈ y.row m) (off : (m, c) ∉ y.path (Reach.below.passes k) height) :
    (m, c) ∉ y.insertOrder k height levels grown := by
  simp only [insertOrder, List.mem_append, mem_column, not_or]
  refine ⟨⟨?_, off⟩, ?_⟩
  · rintro ⟨rfl, -⟩
    exact new (hy.nested_le hc (Nat.zero_le m))
  · rintro ⟨-, ge, -⟩
    exact (hy.lt_height hc).not_ge ge

/-- The new places of a tower: those of its key, and the ends of new levels. -/
def towerSites (k : Key) (height levels grown : Nat) : List Site :=
  column (.key k) 0 (levels + 1) ++ (column .upper height grown ++ column .lower height grown)

theorem mem_towerSites : (m, c) ∈ towerSites k height levels grown ↔
    (m, c) ∈ column (.key k) 0 (levels + 1) ∨ (m, c) ∈ column .upper height grown ∨
      (m, c) ∈ column .lower height grown := by
  rw [towerSites, List.mem_append, List.mem_append]

/-- A layout with a new tower agrees with the old one off its key. -/
theorem Extends.agreeOff (wider : y.Extends y1 (towerSites k height levels grown)) :
    y.AgreeOff y1 k where
  mem {m c} key lower upper := by
    rw [wider.mem]
    simp [mem_towerSites, mem_column, key, lower, upper]
  digest hc _ := wider.digest hc

/-- Who reads the digest of a place of the new tower is refreshed too. -/
theorem Extends.reader_of_tower (hy : y.Shaped height) (hy1 : y1.Shaped (height + grown))
    (new : .key k ∉ y.row 0) (wider : y.Extends y1 (towerSites k height levels grown))
    (hc : c ∈ y1.row m) (reads : y1.Reads (m, c) (level, .key k)) :
    (m, c) ∈ y.insertOrder k height levels grown := by
  have absent : ∀ m, .key k ∉ y.row m := fun m hk => new (hy.nested_le hk (Nat.zero_le m))
  simp only [insertOrder, List.mem_append]
  rcases reads with same | ⟨same, ne, next, -⟩
  · obtain ⟨rfl, rfl⟩ := Prod.mk.inj same
    have hk := (wider.mem.mp hc).resolve_left (absent _)
    simp only [mem_towerSites, mem_column, reduceCtorEq, false_and, or_false] at hk
    exact .inl (.inl (mem_column.mpr ⟨rfl, hk.2⟩))
  · obtain rfl : m = level := same
    have next : y1.next m c = .key k := next
    have lt : c < .key k := next ▸ Shaped.lt_next ne
    by_cases old : c ∈ y.row m
    · -- the predecessor of the key
      have h := hy.lt_height old
      have last : c = y.reached (Reach.below.passes k) m := by
        refine hy.eq_reached old lt (next ▸ hy1.next_le ?_ (Shaped.lt_next ne))
        exact wider.mem_of_mem (hy.next_mem old)
      refine .inl (.inr (last ▸ hy.reached_mem_path (Reach.below.passes_downward k) h))
    · have hc := (wider.mem.mp hc).resolve_left old
      rcases mem_towerSites.mp hc with hc | hc | hc
      · exact absurd (mem_column.mp hc).1 lt.ne
      · exact absurd (mem_column.mp hc).1 ne
      · exact .inr hc

/-- **With each place that is refreshed all that read its digest are.** -/
theorem Extends.insertOrder_closed (hy : y.Shaped height) (hy1 : y1.Shaped (height + grown))
    (new : .key k ∉ y.row 0) (wider : y.Extends y1 (towerSites k height levels grown))
    {site : Site} (hs : site ∈ y.insertOrder k height levels grown) (hc : c ∈ y1.row m)
    (ne : c ≠ .upper) (reads : y1.Reads (m, c) site) :
    (m, c) ∈ y.insertOrder k height levels grown := by
  obtain ⟨level, b⟩ := site
  have split := hs
  simp only [insertOrder, List.mem_append] at split ⊢
  rcases split with (hs | hs) | hs
  · obtain ⟨rfl, -⟩ := mem_column.mp hs
    simpa only [insertOrder, List.mem_append] using wider.reader_of_tower hy hy1 new hc reads
  · rcases wider.agreeOff.path_closed_off hy hs hc ne reads hy1 with path | ⟨low, ge, lt⟩
    · exact .inl (.inr path)
    · exact .inr (mem_column.mpr ⟨low, ge, lt⟩)
  · obtain ⟨rfl, ge, -⟩ := mem_column.mp hs
    rcases reads with same | ⟨-, -, next, -⟩
    · obtain ⟨rfl, rfl⟩ := Prod.mk.inj same
      have := hy1.lt_height hc
      exact .inr (mem_column.mpr ⟨rfl, by show height ≤ level + 1; omega, this⟩)
    · have next : y1.next m c = .lower := next
      exact absurd (next ▸ Shaped.lt_next ne : c < .lower) (Bound.lower_le c).not_gt

/-- Each place that is refreshed has what its digest comes from. -/
theorem Extends.insertOrder_supported (hy1 : y1.Shaped (height + grown))
    (wider : y.Extends y1 (towerSites k height levels grown)) :
    ∀ site ∈ y.insertOrder k height levels grown, y1.Supported site := by
  rintro ⟨m, c⟩ hs
  simp only [insertOrder, List.mem_append] at hs
  rcases hs with (hs | hs) | hs
  · have mem : c ∈ y1.row m := wider.mem.mpr (.inr (mem_towerSites.mpr (.inl hs)))
    exact hy1.supported mem ((mem_column.mp hs).1 ▸ (Bound.key_lt_upper k).ne)
  · obtain ⟨-, old, -, pass⟩ := mem_path.mp hs
    exact hy1.supported (wider.mem_of_mem old)
      (ne_upper_of_pass (Reach.below.passes_downward k) pass)
  · have mem : c ∈ y1.row m := wider.mem.mpr (.inr (mem_towerSites.mpr (.inr (.inr hs))))
    exact hy1.supported mem ((mem_column.mp hs).1 ▸ Bound.lower_lt_upper.ne)

/-- **After a tower is put in, refreshing its order brings all digests up to date.** -/
theorem Extends.current_refresh (hy : y.Shaped height) (hy1 : y1.Shaped (height + grown))
    (new : .key k ∉ y.row 0) (wider : y.Extends y1 (towerSites k height levels grown))
    (current : y.Current h) :
    (y1.refresh h (y.insertOrder k height levels grown)).Current h := by
  have agree := wider.agreeOff
  refine Layout.current_refresh (hy.insertOrder_ordered k levels grown) ?_ ?_
  · rintro ⟨level, b⟩ hs ⟨m, c⟩ mem ne reads
    exact wider.insertOrder_closed hy hy1 new hs mem ne reads
  · intro m c hc ne out
    simp only [insertOrder, List.mem_append, not_or] at out
    obtain ⟨⟨tower, path⟩, lefts⟩ := out
    have old : c ∈ y.row m := by
      rcases wider.mem.mp hc with old | hc
      · exact old
      · rcases mem_towerSites.mp hc with hc | hc | hc
        · exact absurd hc tower
        · exact absurd (mem_column.mp hc).1 ne
        · exact absurd hc lefts
    rw [wider.digest old, current m c old ne]
    refine (agree.commit_off_path hy hy1 old hc ne ?_).symm
    intro same
    subst same
    exact path (hy.reached_mem_path (Reach.below.passes_downward k) (hy.lt_height old))

/-! ## 4. The operation -/

/-- What putting in a key with a tower of so many levels above the bottom leaves. -/
structure Places (y y' : Layout) (h : Hasher) (l : SkipList) (k : Key) (levels : Nat)
    (change : Change) : Prop where
  changed : change.changed = true
  list : y'.Of change.list
  inserted : y.Inserted y' k levels
  current : y.Current h → y'.Current h
  height : change.list.height = max l.height (levels + 1)
  version : change.list.version = l.version + 1
  /-- Off the path the digests of old places stay. -/
  kept : ∀ {m c}, c ∈ y.row m → (m, c) ∉ y.path (Reach.below.passes k) l.height →
    y'.digest m c = y.digest m c
  /-- Those of the path, of the tower and of the new left ends follow from what is there then. -/
  refreshed : ∀ {m c}, (m, c) ∈ y.insertOrder k l.height levels (levels + 1 - l.height) →
    y'.digest m c = y'.commit h m c
  /-- A new right end has none. -/
  upper : ∀ {m}, l.height ≤ m → .upper ∈ y'.row m → y'.digest m .upper = .empty

/-- One more place on the bottom level makes its row longer by one. -/
theorem Inserted.length_row (ins : y.Inserted y' k levels) (hy : y.Shaped height)
    (hy' : y'.Shaped height') (new : .key k ∉ y.row 0) :
    (y'.row 0).length = (y.row 0).length + 1 := by
  have nodup : (.key k :: y.row 0).Nodup :=
    List.nodup_cons.mpr ⟨new, (hy.sorted 0).imp ne_of_lt⟩
  have nodup' : (y'.row 0).Nodup := (hy'.sorted 0).imp ne_of_lt
  refine ((List.perm_ext_iff_of_nodup nodup' nodup).mpr fun c => ?_).length_eq
  rw [ins.mem, List.mem_cons]
  constructor
  · intro h
    rcases h with old | ⟨-, rfl | rfl | rfl⟩
    · exact .inr old
    · exact .inl rfl
    · exact .inr (hy.lower hy.positive)
    · exact .inr (hy.upper hy.positive)
  · intro h
    rcases h with rfl | old
    · exact .inr ⟨Nat.zero_le _, .inl rfl⟩
    · exact .inl old

theorem Extends.inserted (hy : y.Shaped height)
    (wider : y.Extends y1 (towerSites k height levels (levels + 1 - height))) :
    y.Inserted y1 k levels where
  slot := wider.slot
  mem {m c} := by
    rw [wider.mem, mem_towerSites]
    simp only [mem_column]
    constructor
    · intro h
      rcases h with old | ⟨rfl, -, h⟩ | ⟨rfl, ge, h⟩ | ⟨rfl, ge, h⟩
      · exact .inl old
      · exact .inr ⟨by omega, .inl rfl⟩
      · exact .inr ⟨by omega, .inr (.inr rfl)⟩
      · exact .inr ⟨by omega, .inr (.inl rfl)⟩
    · intro h
      rcases h with old | ⟨h, rfl | rfl | rfl⟩
      · exact .inl old
      · exact .inr (.inl ⟨rfl, by omega, by omega⟩)
      · by_cases top : m < height
        · exact .inl (hy.lower top)
        · exact .inr (.inr (.inr ⟨rfl, by omega, by omega⟩))
      · by_cases top : m < height
        · exact .inl (hy.upper top)
        · exact .inr (.inr (.inl ⟨rfl, by omega, by omega⟩))

theorem Inserted.refresh (ins : y.Inserted y1 k levels) (h : Hasher) (sites : List Site) :
    y.Inserted (y1.refresh h sites) k levels where
  mem := by
    rw [row_refresh]
    exact ins.mem
  slot := by
    rw [slot_refresh]
    exact ins.slot

/-- A key that is not there put on the bottom level. -/
theorem Carries.linkBottom (hl : y.Carries l) (new : .key k ∉ y.row 0)
    (room : l.store.HasRoom 1) :
    ∃ bottom s', l.store.linkRight (y.slot 0 (y.reached (Reach.below.passes k) 0)) k .nil =
        .ok (bottom, s') ∧
      (y.link 0 (.key k) bottom false).Carries { l with store := s' } := by
  have positive := hl.shaped.positive
  have absent : Bound.key k ∉ y.row 1 := fun hk => new (hl.shaped.nested hk)
  have gt : Bound.key k < y.next 0 (y.reached (Reach.below.passes k) 0) :=
    lt_of_le_of_ne (hl.shaped.key_le_next_reached positive)
      fun same => new (hl.shaped.next_reached_eq_iff.mp same.symm)
  obtain ⟨bottom, s', linked, h'⟩ := hl.describes.linkRight (hl.shaped.sorted 0) hl.upper_mem
    (hl.shaped.reached_mem positive) (reached_lt_key y k 0) gt absent room
  have wider := extends_link (i := bottom) new false
  refine ⟨bottom, s', linked, h', hl.shaped.link_bottom new bottom, ?_, ?_⟩
  · exact hl.lower.trans (wider.slot hl.top_lower_mem).symm
  · exact hl.upper.trans (wider.slot hl.top_upper_mem).symm

/-- **A tower put behind the trail of its key**, of any height for which there is room. Its nodes,
those of the trail and the new left ends are what is refreshed next. -/
theorem Carries.raiseTower (hl : y.Carries l)
    (ht : y.Trails (Reach.below.passes k) l.height trail) (new : .key k ∉ y.row 0)
    (room : l.store.HasRoom (l.towerNodes levels)) :
    ∃ bottom s1 raised y1, l.store.linkRight trail.bottom.last k .nil = .ok (bottom, s1) ∧
      ({ l with store := s1 } : SkipList).raise k levels (trail.above.map Stretch.last) bottom =
        .ok raised ∧
      y1.Carries raised.list ∧
      y.Extends y1 (towerSites k l.height levels (levels + 1 - l.height)) ∧
      bottom :: raised.tower ++ trail.backward ++ raised.lefts =
        y1.slots (y.insertOrder k l.height levels (levels + 1 - l.height)) ∧
      raised.list.height = l.height + (levels + 1 - l.height) := by
  have hp := Reach.below.passes_downward k
  unfold SkipList.towerNodes at room
  obtain ⟨bottom, s1, linked, hl1⟩ := hl.linkBottom new (room.mono (by omega))
  have wider1 := extends_link (i := bottom) new false
  have left : (y.link 0 (.key k) bottom false).Preceded (.key k) l.height 1
      (trail.above.map Stretch.last) :=
    (ht.preceded hl.shaped).2.extends wider1 hl.shaped.sorted hl1.shaped.sorted (by simp)
  have grown : levels - (trail.above.map Stretch.last).length = levels + 1 - l.height := by
    have := ht.length_above
    rw [List.length_map]
    omega
  have room1 : s1.HasRoom (levels + 2 * (levels - (trail.above.map Stretch.last).length)) := by
    rw [grown]
    exact (takes_linkRight linked).hasRoom (room.mono (by omega))
  have bottom_mem : Bound.key k ∈ (y.link 0 (.key k) bottom false).row 0 :=
    mem_row_link.mpr (.inl ⟨rfl, rfl⟩)
  have absent : Bound.key k ∉ (y.link 0 (.key k) bottom false).row 1 := by
    intro hk
    exact new (hl.shaped.nested ((mem_row_link.mp hk).resolve_left (by simp)))
  obtain ⟨raised, y1, ok, hr⟩ := hl1.raise bottom_mem absent left room1
  rw [grown] at hr
  rw [slot_link_self] at ok
  have wider := wider1.trans hr.wider
  refine ⟨bottom, s1, raised, y1, ?_, ok, hr.carries, wider, ?_, hr.height⟩
  · rw [ht.last hl.shaped hp]
    exact linked
  · have bottom' : y1.slot 0 (.key k) = bottom :=
      (hr.wider.slot bottom_mem).trans slot_link_self
    rw [hr.tower, hr.lefts, ht.backward,
      ← wider.slots_eq fun ⟨_, _⟩ hs => (mem_path.mp hs).2.1, ← bottom']
    simp [insertOrder, slots, column_succ]

/-- A tower put in, and all digests that depend on it computed anew. -/
theorem Of.place (hl : y.Of l) (ht : y.Trails (Reach.below.passes k) l.height trail)
    (new : .key k ∉ y.row 0)
    (room : l.store.HasRoom (l.towerNodes levels)) (h : Hasher) :
    ∃ change y', l.place h k trail levels = .ok change ∧ y.Places y' h l k levels change := by
  obtain ⟨bottom, s1, raised, y1, linked, ok, h1, wider, order, height⟩ :=
    hl.raiseTower ht new room
  have shaped1 : y1.Shaped (l.height + (levels + 1 - l.height)) := height ▸ h1.shaped
  obtain ⟨s', refreshed, h'⟩ := h1.refresh h (wider.insertOrder_supported shaped1)
  rw [← order] at refreshed
  have ins := (wider.inserted hl.shaped).refresh h
    (y.insertOrder k l.height levels (levels + 1 - l.height))
  have ordered := hl.shaped.insertOrder_ordered k levels (levels + 1 - l.height)
  have supported := wider.insertOrder_supported shaped1
  refine ⟨{
      changed := true
      list := { raised.list with store := s', size := l.size + 1, version := l.version + 1 }
      events := raised.events ++ [.inserted k (levels + 1) (l.version + 1)] },
    _, ?_, rfl, ⟨⟨h'.describes, h'.shaped, h'.lower, h'.upper⟩, ?_⟩, ins,
    fun current => wider.current_refresh hl.shaped shaped1 new current, ?_, rfl,
    fun hc off => ?_, fun hs => digest_refresh_of_mem ordered hs (supported _ hs).ne,
    fun {m} ge hm => ?_⟩
  · rw [SkipList.place, linked, ok_bind]
    show (({ l with store := s1 } : SkipList).raise k levels _ bottom >>= _) = _
    rw [ok, ok_bind]
    show (raised.list.store.refresh h (bottom :: raised.tower ++ _ ++ raised.lefts) >>= _) = _
    rw [refreshed]
    rfl
  · rw [ins.length_row hl.shaped h'.shaped new, hl.size]
  · show raised.list.height = max l.height (levels + 1)
    omega
  · rw [digest_refresh_of_not_mem (hl.shaped.not_mem_insertOrder new hc off), wider.digest hc]
  · rw [row_refresh] at hm
    have out : (m, Bound.upper) ∉ y.insertOrder k l.height levels (levels + 1 - l.height) :=
      fun hs => (supported _ hs).ne rfl
    have old : Bound.upper ∉ y.row m := by
      rw [hl.shaped.beyond ge]
      exact List.not_mem_nil
    rw [digest_refresh_of_not_mem out, wider.fresh ((wider.mem.mp hm).resolve_left old)]

/-- What inserting a key leaves, with the coins after it. -/
structure Inserts (y y' : Layout) (h : Hasher) (l : SkipList) (k : Key) (coins coins' : Coins)
    (change : Change) : Prop where
  list : y'.Of change.list
  current : y.Current h → y'.Current h
  present : .key k ∈ y.row 0 → change = ⟨false, l, []⟩ ∧ y' = y ∧ coins' = coins
  absent : .key k ∉ y.row 0 → y.Places y' h l k coins.draw.1 change ∧ coins' = coins.draw.2

/-- **Inserting a key** goes through if it is there already or there is room for its tower. -/
theorem Of.insert (hl : y.Of l) (k : Key) (coins : Coins)
    (room : .key k ∉ y.row 0 → l.store.HasRoom (l.towerNodes coins.draw.1)) (h : Hasher) :
    ∃ change coins' y', l.insert h k coins = .ok (change, coins') ∧
      y.Inserts y' h l k coins coins' change := by
  obtain ⟨trail, ok, ht⟩ := hl.search .below k
  by_cases hk : .key k ∈ y.row 0
  · refine ⟨⟨false, l, []⟩, coins, y, ?_, hl, id, fun _ => ⟨rfl, rfl, rfl⟩, fun new => absurd hk new⟩
    rw [SkipList.insert, ok, ok_bind, hl.precedes ht, ok_bind, if_pos (decide_eq_true hk)]
    rfl
  · obtain ⟨change, y', placed, hc⟩ := hl.place ht hk (room hk) h
    refine ⟨change, coins.draw.2, y', ?_, hc.list, hc.current, fun old => absurd old hk,
      fun _ => ⟨hc, rfl⟩⟩
    rw [SkipList.insert, ok, ok_bind, hl.precedes ht, ok_bind, if_neg (by simpa using hk)]
    show (l.place h k trail coins.draw.1 >>= _) = _
    rw [placed]
    rfl

/-! ## 5. The slots that it takes -/

theorem takes_raise {levels : Nat} {left : List Slot} {below : Slot} {raised : Raised}
    (h : l.raise k levels left below = .ok raised) :
    l.store.Takes raised.list.store (levels + 2 * (levels - left.length)) := by
  induction levels generalizing l left below raised with
  | zero =>
    cases h
    simpa using Store.Takes.refl l.store
  | succ levels ih =>
    cases left with
    | cons first left =>
      obtain ⟨⟨i, l1⟩, stacked, h⟩ := bind_eq_ok_iff.mp h
      obtain ⟨rest, ok, h⟩ := bind_eq_ok_iff.mp h
      cases h
      have := (takes_stack stacked).trans (ih ok)
      rwa [show 1 + (levels + 2 * (levels - left.length)) =
        levels + 1 + 2 * (levels + 1 - (first :: left).length) by
          simp only [List.length_cons]; omega] at this
    | nil =>
      obtain ⟨l1, added, h⟩ := bind_eq_ok_iff.mp h
      obtain ⟨⟨i, l2⟩, stacked, h⟩ := bind_eq_ok_iff.mp h
      obtain ⟨rest, ok, h⟩ := bind_eq_ok_iff.mp h
      cases h
      have := ((takes_addLevel added).trans (takes_stack stacked)).trans (ih ok)
      rwa [show 2 + 1 + (levels + 2 * (levels - ([] : List Slot).length)) =
        levels + 1 + 2 * (levels + 1 - ([] : List Slot).length) by
          simp only [List.length_nil]; omega] at this

/-- **What a tower takes**: a slot for each of its nodes, and two for each new level. -/
theorem takes_place {change : Change} (ok : l.place h k trail levels = .ok change) :
    l.store.Takes change.list.store (levels + 1 + 2 * (levels - trail.above.length)) := by
  obtain ⟨⟨bottom, s1⟩, linked, ok⟩ := bind_eq_ok_iff.mp ok
  obtain ⟨raised, raises, ok⟩ := bind_eq_ok_iff.mp ok
  obtain ⟨s', refreshed, ok⟩ := bind_eq_ok_iff.mp ok
  cases ok
  have := ((takes_linkRight linked).trans (takes_raise raises)).trans (takes_refresh refreshed)
  rw [List.length_map] at this
  rwa [show 1 + (levels + 2 * (levels - trail.above.length)) + 0 =
    levels + 1 + 2 * (levels - trail.above.length) by omega] at this

/-- Putting in a key sets no slot free, whether it finds something to do or not. -/
theorem takes_insert {change : Change} {coins' : Coins}
    (ok : l.insert h k coins = .ok (change, coins')) :
    ∃ n, l.store.Takes change.list.store n := by
  obtain ⟨trail, -, ok⟩ := bind_eq_ok_iff.mp ok
  obtain ⟨found, -, ok⟩ := bind_eq_ok_iff.mp ok
  cases found with
  | true =>
    cases ok
    exact ⟨0, .refl _⟩
  | false =>
    obtain ⟨change, placed, ok⟩ := bind_eq_ok_iff.mp ok
    cases ok
    exact ⟨_, takes_place placed⟩

/-- What a new key takes is its tower, of the height that the coins give. -/
theorem Of.takes_insert (hl : y.Of l) (new : .key k ∉ y.row 0) {change : Change}
    {coins' : Coins} (ok : l.insert h k coins = .ok (change, coins')) :
    l.store.Takes change.list.store (l.towerNodes coins.draw.1) := by
  obtain ⟨trail, found, ht⟩ := hl.search .below k
  rw [SkipList.insert, found, ok_bind, hl.precedes ht, ok_bind, if_neg (by simpa using new)] at ok
  obtain ⟨change1, placed, same⟩ := bind_eq_ok_iff.mp ok
  obtain ⟨rfl, rfl⟩ := Prod.mk.inj (Except.ok.inj same)
  have grown := takes_place placed
  have above := ht.length_above
  rw [SkipList.towerNodes, show coins.draw.1 + 1 - l.height = coins.draw.1 - trail.above.length by
    omega]
  exact grown

/-- A key that has been put in, leaving a store that fits, had room for its tower. -/
theorem Of.hasRoom_of_insert (hl : y.Of l) (new : .key k ∉ y.row 0) {change : Change}
    {coins' : Coins} (ok : l.insert h k coins = .ok (change, coins'))
    (fits : change.list.store.Fits) :
    l.store.HasRoom (l.towerNodes coins.draw.1) :=
  (hl.takes_insert new ok).hasRoom_of_fits fits

end Layout

end AuthenticatedSet
