import AuthenticatedSet.Proofs.Line
import AuthenticatedSet.Proofs.Run
import AuthenticatedSet.Proofs.Towers

/-!
# What an operation writes

Putting in a key and taking one out write to few nodes. Right links change only where the tower of
the key is put behind its predecessors or taken off them, marks only where new levels are put on the
old ends of the top level, digests only along the path of the search for the key. What is written
there is what the digest rule gives for the nodes as they are in the end. All other nodes stay as they
are, although slots that have been set free are used again.

This does not rest on digests that are current: it holds for lists whose digests have been made with
other hashers.

* `SkipList.Framed`    -- what may have changed of the nodes that stay
* `SkipList.FramedInsert`, `.FramedErase` -- and which nodes have come, or gone
* `Layout.Frames`      -- the same said of layouts
* `Frames.framed`      -- from layouts to lists
* `frame_of_runs`      -- the whole statement
-/

namespace AuthenticatedSet

namespace SkipList

/-- What a change of one key has done to nodes that links lead to. The trail is that of the search to
the last bounds below the key, whose tower is on so many levels. -/
structure Framed (l l' : SkipList) (h : Hasher) (trail : Trail) (levels : Nat) : Prop where
  bound : ∀ {i node node'}, l.HasNode i node → l'.HasNode i node' → node'.bound = node.bound
  down : ∀ {i node node'}, l.HasNode i node → l'.HasNode i node' → node'.down = node.down
  /-- Right links change only on the predecessors of the key on the levels of its tower. -/
  right : ∀ {i node node'}, l.HasNode i node → l'.HasNode i node' →
    i ∉ trail.predecessors.take levels → node'.right = node.right
  /-- Marks change only on the old ends of the top level, when a level is put on them. -/
  continued : ∀ {i node node'}, l.HasNode i node → l'.HasNode i node' →
    ¬ (l.height < l'.height ∧ (i = l.top.lower ∨ i = l.top.upper)) →
    node'.continued = node.continued
  /-- Digests change only along the path. -/
  digest : ∀ {i node node'}, l.HasNode i node → l'.HasNode i node' → i ∉ trail.backward →
    node'.digest = node.digest
  /-- Those of the path and of new nodes are what the rule gives for the nodes beside and below them,
  as these are in the end. -/
  rewritten : ∀ {i node'}, l'.HasNode i node' → node'.bound ≠ .upper →
    i ∈ trail.backward ∨ ¬ l.Linked i → l'.store.digestAt h i = .ok node'.digest

/-- What putting in a key has done besides: no node has gone, and those that have come are the tower
of the key, on so many levels, and the ends of new levels, which it has needed. The right ends among
them have no digest. -/
structure FramedInsert (l l' : SkipList) (h : Hasher) (k : Key) (trail : Trail) (levels : Nat) : Prop
    extends l.Framed l' h trail levels where
  stays : ∀ {i}, l.Linked i → l'.Linked i
  fresh : ∀ {i node'}, l'.HasNode i node' → ¬ l.Linked i → node'.bound = .key k ∨
    (l.height < l'.height ∧ (node'.bound = .lower ∨ node'.bound = .upper ∧ node'.digest = .empty))
  tower : ∀ {m}, l'.HasOn m k ↔ m < levels
  height : l'.height = max l.height levels
  /-- A new level has a node of the key between its ends, and all three have come. -/
  grown : ∀ {m}, l.height ≤ m → m < levels → ∃ line, l'.Line m line ∧
    line.map Seat.bound = [.lower, .key k, .upper] ∧ ∀ seat ∈ line, ¬ l.Linked seat.slot

/-- What taking out a key has done besides: no node has come, and those that have gone are the tower
of the key, which was on so many levels. -/
structure FramedErase (l l' : SkipList) (h : Hasher) (k : Key) (trail : Trail) (levels : Nat) : Prop
    extends l.Framed l' h trail levels where
  stays : ∀ {i}, l'.Linked i ↔ ∃ node, l.HasNode i node ∧ node.bound ≠ .key k
  tower : ∀ {m}, l.HasOn m k ↔ m < levels
  height : l'.height = l.height

end SkipList

namespace Layout

/-- What a change of the key on so many levels does to a list of this height, said of its layouts. -/
structure Frames (y y' : Layout) (h : Hasher) (k : Key) (height levels : Nat) : Prop
    extends y.SameOff y' k where
  /-- The key is put in or taken out. -/
  apart : ∀ {m}, .key k ∈ y.row m → .key k ∉ y'.row m
  above : ∀ {m c}, levels ≤ m → (c ∈ y'.row m ↔ c ∈ y.row m)
  slot : ∀ {m c}, c ∈ y.row m → c ∈ y'.row m → y'.slot m c = y.slot m c
  place : ∀ {m n c d}, c ∈ y.row m → d ∈ y'.row n → y'.slot n d = y.slot m c → n = m ∧ d = c
  kept : ∀ {m c}, c ∈ y.row m → (m, c) ∉ y.path (Reach.below.passes k) height →
    y'.digest m c = y.digest m c
  refreshed : ∀ {m c}, c ∈ y'.row m → c ≠ .upper →
    (m, c) ∈ y.path (Reach.below.passes k) height ∨ c ∉ y.row m → y'.digest m c = y'.commit h m c

variable {y y' : Layout} {l l' : SkipList} {h : Hasher} {k : Key} {trail : Trail} {i : Slot}
  {node node' : Node} {height height' levels m t : Nat} {c : Bound} {change : Change}

namespace Frames

/-! ## 1. What stays of a node -/

/-- What comes next changes only behind the predecessors on the levels of the tower. -/
theorem next_eq (frames : y.Frames y' h k height levels) (hy : y.Shaped height)
    (hy' : y'.Shaped height') (hc : c ∈ y.row m) (hc' : c ∈ y'.row m) (ne : c ≠ .upper)
    (off : ¬ (m < levels ∧ c = y.reached (Reach.below.passes k) m)) :
    y'.next m c = y.next m c := by
  by_cases tower : m < levels
  · exact (frames.toSameOff.next_eq hy hy' hc hc' ne fun last => off ⟨tower, last⟩).1
  · have row : y'.row m = y.row m :=
      (hy'.sorted m).eq_of_mem_iff (hy.sorted m) fun {c} => frames.above (not_lt.mp tower)
    rw [next, row, next]

theorem right_eq (frames : y.Frames y' h k height levels) (hy : y.Shaped height)
    (hy' : y'.Shaped height') (hc : c ∈ y.row m) (hc' : c ∈ y'.row m)
    (off : ¬ (m < levels ∧ c = y.reached (Reach.below.passes k) m)) :
    y'.right m c = y.right m c := by
  by_cases ne : c = .upper
  · rw [ne, right_upper, right_upper]
  · have next := frames.next_eq hy hy' hc hc' ne off
    rw [right_of_ne ne, right_of_ne ne, next]
    exact frames.slot (hy.next_mem hc) (next ▸ hy'.next_mem hc')

theorem down_eq (frames : y.Frames y' h k height levels) (hy : y.Shaped height)
    (hy' : y'.Shaped height') (hc : c ∈ y.row m) (hc' : c ∈ y'.row m) :
    y'.down m c = y.down m c := by
  cases m with
  | zero => rfl
  | succ n => exact frames.slot (hy.nested hc) (hy'.nested hc')

/-- A bound goes on to the next level in both layouts or in neither, except for the ends of a top
level that is no longer the top. -/
theorem raised_eq (frames : y.Frames y' h k height levels) (hy : y.Shaped height)
    (hy' : y'.Shaped height') (le : height ≤ height') (hc : c ∈ y.row m) (hc' : c ∈ y'.row m)
    (off : ¬ (height < height' ∧ m + 1 = height ∧ (c = .lower ∨ c = .upper))) :
    y'.raised m c = y.raised m c := by
  rw [Bool.eq_iff_iff, hy.marked hc, hy'.marked hc']
  have below := hy.lt_height hc
  have ended : c = .lower ∨ c = .upper → (m + 1 < height' ↔ m + 1 < height) := by
    intro sentinel
    have : ¬ (height < height' ∧ m + 1 = height) := fun grown => off ⟨grown.1, grown.2, sentinel⟩
    omega
  cases c with
  | lower => rw [hy.lower_mem_iff, hy'.lower_mem_iff, ended (.inl rfl)]
  | upper => rw [hy.upper_mem_iff, hy'.upper_mem_iff, ended (.inr rfl)]
  | key k' =>
    have other : Bound.key k' ≠ .key k := fun same => frames.apart (same ▸ hc) (same ▸ hc')
    exact (frames.mem other (by simp) (by simp)).symm

/-! ## 2. From layouts to lists -/

/-- A node that is there before and after has one place. -/
theorem exists_place (frames : y.Frames y' h k height levels) (hl : y.Carries l)
    (hl' : y'.Carries l') (before : l.HasNode i node) (after : l'.HasNode i node') :
    ∃ m c, c ∈ y.row m ∧ c ∈ y'.row m ∧ i = y.slot m c ∧ node = y.node m c ∧
      node' = y'.node m c := by
  obtain ⟨m, c, hc, rfl, rfl⟩ := hl.hasNode_iff.mp before
  obtain ⟨n, d, hd, same, rfl⟩ := hl'.hasNode_iff.mp after
  obtain ⟨rfl, rfl⟩ := frames.place hc hd same.symm
  exact ⟨n, d, hc, hd, rfl, rfl, rfl⟩

/-- The digest of a place on the path, or of one that is new, is what follows for it in the end. -/
theorem digest_of_written (frames : y.Frames y' h k l.height levels) (hl : y.Carries l)
    (ht : y.Trails (Reach.below.passes k) l.height trail) (hc : c ∈ y'.row m) (ne : c ≠ .upper)
    (written : y'.slot m c ∈ trail.backward ∨ ¬ l.Linked (y'.slot m c)) :
    y'.digest m c = y'.commit h m c := by
  refine frames.refreshed hc ne (written.imp (fun path => ?_) fun new old => ?_)
  · obtain ⟨⟨n, d⟩, path, same⟩ := ht.mem_backward.mp path
    obtain ⟨rfl, rfl⟩ := frames.place (mem_path.mp path).2.1 hc same.symm
    exact path
  · exact new (frames.slot old hc ▸ hl.linked old)

/-- **What layouts say about a change, lists do.** -/
theorem framed (frames : y.Frames y' h k l.height levels) (hl : y.Carries l) (hl' : y'.Carries l')
    (le : l.height ≤ l'.height) (ht : y.Trails (Reach.below.passes k) l.height trail) :
    l.Framed l' h trail levels where
  bound before after := by
    obtain ⟨m, c, -, -, -, rfl, rfl⟩ := frames.exists_place hl hl' before after
    rfl
  down before after := by
    obtain ⟨m, c, hc, hc', -, rfl, rfl⟩ := frames.exists_place hl hl' before after
    exact frames.down_eq hl.shaped hl'.shaped hc hc'
  right before after off := by
    obtain ⟨m, c, hc, hc', rfl, rfl, rfl⟩ := frames.exists_place hl hl' before after
    refine frames.right_eq hl.shaped hl'.shaped hc hc' ?_
    rintro ⟨tower, rfl⟩
    exact off (ht.mem_take_predecessors hl.shaped (Reach.below.passes_downward k)
      (hl.shaped.lt_height hc) tower)
  continued before after off := by
    obtain ⟨m, c, hc, hc', rfl, rfl, rfl⟩ := frames.exists_place hl hl' before after
    refine frames.raised_eq hl.shaped hl'.shaped le hc hc' ?_
    rintro ⟨grown, top, sentinel⟩
    obtain rfl : m = l.height - 1 := by omega
    refine off ⟨grown, ?_⟩
    rcases sentinel with rfl | rfl
    · exact .inl hl.lower.symm
    · exact .inr hl.upper.symm
  digest before after off := by
    obtain ⟨m, c, hc, hc', rfl, rfl, rfl⟩ := frames.exists_place hl hl' before after
    exact frames.kept hc fun path => off (ht.mem_backward.mpr ⟨_, path, rfl⟩)
  rewritten after ne written := by
    obtain ⟨m, c, hc, rfl, rfl⟩ := hl'.hasNode_iff.mp after
    have supported := hl'.shaped.supported hc ne
    rw [hl'.describes.digestAt hc ne supported.next supported.under]
    exact congrArg Except.ok (frames.digest_of_written hl ht hc ne written).symm

end Frames

/-! ## 3. The two operations -/

/-- A key put in. -/
theorem Places.frames (places : y.Places y' h l k levels change) (hl : y.Of l)
    (new : .key k ∉ y.row 0) : y.Frames y' h k l.height (levels + 1) where
  mem key lower upper := by simp [places.inserted.mem, key, lower, upper]
  apart hk := absurd (hl.shaped.nested_le hk (Nat.zero_le _)) new
  above {m c} ge := by
    rw [places.inserted.mem]
    exact or_iff_left fun tower => absurd tower.1 (by omega)
  slot hc _ := places.inserted.slot hc
  place {m n c d} hc hd same := by
    rw [← places.inserted.slot hc] at same
    exact places.list.describes.slot_inj hd (places.inserted.mem.mpr (.inl hc)) same
  kept := places.kept
  refreshed {m c} hc ne written := by
    refine places.refreshed ?_
    simp only [insertOrder, List.mem_append, mem_column]
    rcases written with path | old
    · exact .inl (.inr path)
    · obtain ⟨le, rfl | rfl | rfl⟩ := (places.inserted.mem.mp hc).resolve_left old
      · exact .inl (.inl ⟨rfl, Nat.zero_le m, by omega⟩)
      · have top : l.height ≤ m := not_lt.mp fun below => old (hl.shaped.lower below)
        exact .inr ⟨rfl, top, by omega⟩
      · exact absurd rfl ne

/-- A level that is new has the key alone between its ends. -/
theorem Inserted.row_eq (ins : y.Inserted y' k levels) (hy : y.Shaped height)
    (hy' : y'.Shaped height') (top : height ≤ m) (le : m ≤ levels) :
    y'.row m = [.lower, .key k, .upper] := by
  have ascending : [Bound.lower, .key k, .upper].Pairwise (· < ·) := by
    simp [Bound.lower_lt_key, Bound.key_lt_upper, Bound.lower_lt_upper]
  refine (hy'.sorted m).eq_of_mem_iff ascending fun {c} => ?_
  rw [ins.mem, hy.beyond top]
  simp [le, or_left_comm]

theorem Places.framedInsert (places : y.Places y' h l k levels change) (hl : y.Of l)
    (ht : y.Trails (Reach.below.passes k) l.height trail) (new : .key k ∉ y.row 0) :
    l.FramedInsert change.list h k trail (levels + 1) where
  toFramed := (places.frames hl new).framed hl.toCarries places.list.toCarries
    (places.height ▸ le_max_left _ _) ht
  stays {i} linked := by
    obtain ⟨m, c, hc, rfl⟩ := hl.exists_of_linked linked
    rw [← places.inserted.slot hc]
    exact places.list.linked (places.inserted.mem.mpr (.inl hc))
  fresh {i node'} after gone := by
    obtain ⟨m, c, hc, rfl, rfl⟩ := places.list.hasNode_iff.mp after
    have old : c ∉ y.row m := fun old => gone (places.inserted.slot old ▸ hl.linked old)
    have below := places.list.shaped.lt_height hc
    obtain ⟨-, rfl | rfl | rfl⟩ := (places.inserted.mem.mp hc).resolve_left old
    · exact .inl rfl
    · have top : l.height ≤ m := not_lt.mp fun below => old (hl.shaped.lower below)
      exact .inr ⟨top.trans_lt below, .inl rfl⟩
    · have top : l.height ≤ m := not_lt.mp fun below => old (hl.shaped.upper below)
      exact .inr ⟨top.trans_lt below, .inr ⟨rfl, places.upper top hc⟩⟩
  tower {m} := by
    have absent : .key k ∉ y.row m := fun hk => new (hl.shaped.nested_le hk (Nat.zero_le m))
    rw [places.list.hasOn_iff, places.inserted.mem, or_iff_right absent, Nat.lt_succ_iff]
    simp
  height := places.height
  grown {m} top below := by
    have row := places.inserted.row_eq hl.shaped places.list.shaped top (Nat.le_of_lt_succ below)
    have lt : m < change.list.height := places.height ▸ lt_max_of_lt_right below
    refine ⟨_, places.list.line_iff.mpr ⟨lt, rfl⟩, ?_, fun seat mem linked => ?_⟩
    · rw [row]
      rfl
    · obtain ⟨c, hc, rfl⟩ := List.mem_map.mp mem
      obtain ⟨n, d, hd, same⟩ := hl.exists_of_linked linked
      have old := places.inserted.mem.mpr (.inl hd)
      rw [← places.inserted.slot hd] at same
      obtain ⟨rfl, -⟩ := places.list.describes.slot_inj hc old same
      exact (hl.shaped.lt_height hd).not_ge top

/-- A key taken out. -/
theorem Erases.frames (erases : y.Erases y' h l k change) (hl : y.Of l)
    (tower : ∀ m, .key k ∈ y.row m ↔ m ≤ t) : y.Frames y' h k l.height (t + 1) where
  mem key _ _ := by simp [erases.erased.mem, key]
  apart _ hk := (erases.erased.mem.mp hk).2 rfl
  above {m c} ge := by
    rw [erases.erased.mem]
    refine and_iff_left_of_imp fun hc same => ?_
    have := (tower m).mp (same ▸ hc)
    omega
  slot _ _ := by rw [erases.erased.slot]
  place {m n c d} hc hd same := by
    rw [erases.erased.slot] at same
    exact hl.describes.slot_inj (erases.erased.mem.mp hd).1 hc same
  kept _ off := erases.kept off
  refreshed {m c} hc ne written := by
    refine erases.refreshed ((tower 0).mpr (Nat.zero_le t)) (written.resolve_right ?_)
    exact not_not.mpr (erases.erased.mem.mp hc).1

theorem Erases.framedErase (erases : y.Erases y' h l k change) (hl : y.Of l)
    (ht : y.Trails (Reach.below.passes k) l.height trail)
    (tower : ∀ m, .key k ∈ y.row m ↔ m ≤ t) :
    l.FramedErase change.list h k trail (t + 1) where
  toFramed := (erases.frames hl tower).framed hl.toCarries erases.list.toCarries
    erases.height.ge ht
  tower {m} := by rw [hl.hasOn_iff, tower, Nat.lt_succ_iff]
  height := erases.height
  stays {i} := by
    constructor
    · intro linked
      obtain ⟨m, c, hc, rfl⟩ := erases.list.exists_of_linked linked
      obtain ⟨old, other⟩ := erases.erased.mem.mp hc
      rw [erases.erased.slot]
      exact ⟨_, ⟨hl.linked old, hl.describes.get old⟩, other⟩
    · rintro ⟨node, before, other⟩
      obtain ⟨m, c, hc, rfl, rfl⟩ := hl.hasNode_iff.mp before
      rw [← erases.erased.slot]
      exact erases.list.linked (erases.erased.mem.mpr ⟨hc, other⟩)

end Layout

/-! ## 4. The statement -/

open Layout in
/-- **The frame of an operation**, after any run, whatever hashers its operations had, and with any
hasher, key and coins. A key that is not there is put in if there is room for its tower; a key that is
there is taken out. Either changes right links only on the predecessors of the key on the levels of
its tower, marks only on the old ends of the top level when the list grows, and digests only along the
path of the search for the key; these digests, and those of new nodes, are what the rule gives for
the nodes as they are in the end. No other node that stays has changed, no node has gone but those of
a tower taken out, and none has come but those of a tower put in and the ends of new levels. The
tower put in stands on just the levels that were drawn for it, alone between the ends of those that
are new. -/
theorem frame_of_runs {hashers : Nat → Hasher} {start : Start} {ops : List Operation}
    {answers : List Bool} {l : SkipList} (run : Run hashers start ops answers l) (h : Hasher)
    (k : Key) :
    ∃ trail, l.search .below k = .ok trail ∧
      (∀ coins, l.contains k = .ok false → l.store.HasRoom (l.towerNodes coins.draw.1) →
        ∃ change coins', l.insert h k coins = .ok (change, coins') ∧ change.changed = true ∧
          change.list.store.Fits ∧
          l.FramedInsert change.list h k trail (coins.draw.1 + 1)) ∧
      (l.contains k = .ok true →
        ∃ towers t change, l.towers = .ok towers ∧ (k, t) ∈ towers ∧ l.erase h k = .ok change ∧
          change.changed = true ∧ l.FramedErase change.list h k trail (t + 1)) := by
  obtain ⟨y, hl, -⟩ := run.exists_layout
  obtain ⟨trail, found, ht⟩ := hl.search .below k
  have there : ∀ {answer}, l.contains k = .ok answer → (.key k ∈ y.row 0 ↔ answer = true) := by
    intro answer ok
    rw [hl.contains] at ok
    rw [← Except.ok.inj ok, decide_eq_true_iff]
  refine ⟨trail, found, fun coins absent room => ?_, fun present => ?_⟩
  · have new : .key k ∉ y.row 0 := by simp [there absent]
    obtain ⟨change, coins', y', ok, ins⟩ := hl.insert k coins (fun _ => room) h
    obtain ⟨places, -⟩ := ins.absent new
    exact ⟨change, coins', ok, places.changed, places.list.describes.sound.fits,
      places.framedInsert hl ht new⟩
  · have hk : .key k ∈ y.row 0 := (there present).mpr rfl
    obtain ⟨change, y', ok, erases⟩ := hl.erase h k
    have tower := List.mem_map_of_mem (f := fun k =>
      (k, ((List.range l.height).map y.keysOn).countP (k ∈ ·) - 1)) (mem_keys.mpr hk)
    exact ⟨_, _, change, hl.towers, tower, ok, (erases.present hk).1,
      erases.framedErase hl ht (hl.shaped.mem_towers.mp tower)⟩

/-- With another hasher than the one of the run, the key 4 is put on three levels, one more than the
list has, and the key 3 is taken off. -/
theorem frame_of_runs_sample :
    Run (fun _ => .byteSum) .empty sampleOps [true, true, true, false] sample ∧
      (∃ trail change coins', sample.search .below 4 = .ok trail ∧
        sample.insert (.text 7) 4 (.ofWords [1, 1]) = .ok (change, coins') ∧
        sample.FramedInsert change.list (.text 7) 4 trail 3) ∧
      ∃ trail change, sample.search .below 3 = .ok trail ∧
        sample.erase (.text 7) 3 = .ok change ∧
        sample.FramedErase change.list (.text 7) 3 trail 1 := by
  obtain ⟨trail, found, put, -⟩ := frame_of_runs run_sample (.text 7) 4
  obtain ⟨trail', found', -, taken⟩ := frame_of_runs run_sample (.text 7) 3
  have room : sample.store.HasRoom (sample.towerNodes (Coins.ofWords [1, 1]).draw.1) := by
    unfold Store.HasRoom
    decide
  obtain ⟨change, coins', inserted, -, -, framed⟩ := put _ (by decide +kernel) room
  have levels : (Coins.ofWords [1, 1]).draw.1 + 1 = 3 := by decide
  rw [levels] at framed
  obtain ⟨towers, t, change', all, tower, erased, -, framed'⟩ := taken (by decide +kernel)
  have single : sample.towers = .ok [(3, 0)] := by decide +kernel
  obtain rfl := Except.ok.inj (single.symm.trans all)
  obtain rfl : t = 0 := (Prod.mk.inj (List.mem_singleton.mp tower)).2
  exact ⟨run_sample, ⟨trail, change, coins', found, inserted, framed⟩, trail', change', found',
    erased, framed'⟩

end AuthenticatedSet
