import AuthenticatedSet.Proofs.History

/-!
# Keys put in one by one, and keys built at once

Keys that are put in one after the other take their coins from one stream, as they do when a list is
built from them at once. In the same order the same keys get towers of the same heights, and towers
decide the commitment: so the two lists differ in nothing that can be asked about them but the
version, although one of them was laid level by level and the other one grew tower by tower.

* `SkipList.insertAll` -- keys put in one after the other
* `drawnColumns`       -- the columns of keys that draw their levels in this order
* `Of.insertAll`       -- new keys all go in if there is room for their towers, in any order
* `build_agrees_with_insertion` -- the whole statement

The slots are not compared: they tell in which order nodes were made.
-/

namespace AuthenticatedSet

namespace SkipList

/-- Keys put in one after the other, each with the coins that the one before it has left. -/
def insertAll (l : SkipList) (h : Hasher) : List Key → Coins → Except Fault (SkipList × Coins)
  | [], coins => return (l, coins)
  | k :: keys, coins => do
    let (change, coins) ← l.insert h k coins
    change.list.insertAll h keys coins

end SkipList

/-- How many slots towers of these heights take, one after the other, in a list with so many levels:
one for each of their nodes, and two for each level that is new. -/
def towersNodes : (height : Nat) → List Nat → Nat
  | _, [] => 0
  | height, levels :: rest =>
    levels + 1 + 2 * (levels + 1 - height) + towersNodes (max height (levels + 1)) rest

/-- What is built depends on which keys there are, not on their order or on how often they come. -/
theorem ofKeys_congr {keys keys' : List Key} (same : ∀ k, k ∈ keys' ↔ k ∈ keys) (h : Hasher)
    (coins : Coins) : SkipList.ofKeys h keys' coins = SkipList.ofKeys h keys coins := by
  have ascend : ascending keys' = ascending keys :=
    ascending_eq (ascending_sorted keys) fun k => mem_ascending.trans (same k).symm
  rw [SkipList.ofKeys, SkipList.ofKeys, ascend]

namespace Layout

variable {y y' : Layout} {l l' : SkipList} {h : Hasher} {k : Key} {keys : List Key} {coins : Coins}

/-! ## 1. The slots that several towers take -/

theorem start_le_foldl_max (heights : List Nat) (start : Nat) :
    start ≤ heights.foldl max start := by
  rw [List.foldl_max]
  exact le_max_left _ _

/-- In all they are the nodes of the towers and the ends of the levels that are new, whatever the
order of the towers. -/
theorem towersNodes_eq {height : Nat} (positive : 0 < height) (heights : List Nat) :
    towersNodes height heights =
      Column.towerNodes heights + 2 * (heights.foldl max (height - 1) + 1 - height) := by
  induction heights generalizing height with
  | nil =>
    simp only [towersNodes, Column.towerNodes, List.foldl_nil]
    omega
  | cons levels rest ih =>
    have top : max height (levels + 1) - 1 = max (height - 1) levels := by omega
    have above := start_le_foldl_max rest (max (height - 1) levels)
    rw [towersNodes, ih (by omega), top, Column.towerNodes, List.foldl_cons]
    omega

/-! ## 2. Keys put in -/

/-- The columns of these keys, which draw their levels in this order. -/
def drawnColumns (keys : List Key) (coins : Coins) : List Column :=
  List.zipWith (fun key levels => ⟨key, levels, .nil⟩) keys (coins.draws keys.length).1

/-- What putting in new keys, one after the other, leaves. -/
structure InsertsAll (y y' : Layout) (h : Hasher) (l l' : SkipList) (keys : List Key)
    (coins : Coins) : Prop where
  list : y'.Of l'
  current : y.Current h → y'.Current h
  towers : ∀ m k, .key k ∈ y'.row m ↔
    .key k ∈ y.row m ∨ Column.Reaches (drawnColumns keys coins) k m
  height : l'.height = (coins.draws keys.length).1.foldl max (l.height - 1) + 1
  version : l'.version = l.version + .ofNat keys.length

/-- Putting in no key leaves everything as it was. -/
theorem Of.insertsAll_nil (hl : y.Of l) (h : Hasher) (coins : Coins) :
    y.InsertsAll y h l l [] coins where
  list := hl
  current := id
  towers m k := by simp [drawnColumns, Column.Reaches]
  height := (Nat.sub_add_cancel hl.shaped.positive).symm
  version := by simp

/-- **One key more**: after the first tower, the others. -/
theorem InsertsAll.cons {y1 : Layout} {change : Change} (positive : 0 < l.height)
    (places : y.Places y1 h l k coins.draw.1 change)
    (rest : y1.InsertsAll y' h change.list l' keys coins.draw.2) :
    y.InsertsAll y' h l l' (k :: keys) coins where
  list := rest.list
  current current := rest.current (places.current current)
  towers m k' := by
    have first : .key k' ∈ y1.row m ↔ .key k' ∈ y.row m ∨ (k = k' ∧ m ≤ coins.draw.1) := by
      rw [places.inserted.mem]
      simp [and_comm, eq_comm]
    have columns : drawnColumns (k :: keys) coins =
      ⟨k, coins.draw.1, .nil⟩ :: drawnColumns keys coins.draw.2 := rfl
    rw [rest.towers, first, columns, Column.reaches_cons, or_assoc]
  height := by
    have top : change.list.height - 1 = max (l.height - 1) coins.draw.1 := by
      rw [places.height]
      omega
    rw [rest.height, top]
    rfl
  version := by
    have one : UInt64.ofNat 1 = 1 := rfl
    rw [rest.version, places.version, List.length_cons, Nat.add_comm, UInt64.ofNat_add, one,
      UInt64.add_assoc]

/-- **New keys put in one after the other**, in any order, all go in if there is room for the towers
that the coins give them. -/
theorem Of.insertAll (hl : y.Of l) (h : Hasher) (distinct : keys.Nodup)
    (new : ∀ k ∈ keys, .key k ∉ y.row 0)
    (room : l.store.HasRoom (towersNodes l.height (coins.draws keys.length).1)) :
    ∃ l' y', l.insertAll h keys coins = .ok (l', (coins.draws keys.length).2) ∧
      y.InsertsAll y' h l l' keys coins := by
  induction keys generalizing y l coins with
  | nil => exact ⟨l, y, rfl, hl.insertsAll_nil h coins⟩
  | cons k keys ih =>
    obtain ⟨fresh, distinct⟩ := List.nodup_cons.mp distinct
    have absent : .key k ∉ y.row 0 := new k List.mem_cons_self
    have both : l.store.HasRoom (l.towerNodes coins.draw.1 +
      towersNodes (max l.height (coins.draw.1 + 1)) (coins.draw.2.draws keys.length).1) := room
    obtain ⟨change, coins', y1, ok, ins⟩ := hl.insert k coins
      (fun _ => both.mono (Nat.le_add_right _ _)) h
    obtain ⟨places, rfl⟩ := ins.absent absent
    have others : ∀ k' ∈ keys, .key k' ∉ y1.row 0 := by
      intro k' hk' old
      rw [places.inserted.mem] at old
      rcases old with old | ⟨-, first | first | first⟩
      · exact new k' (List.mem_cons_of_mem k hk') old
      · exact fresh (Bound.key.inj first ▸ hk')
      · cases first
      · cases first
    have rest := (hl.takes_insert absent ok).hasRoom both
    rw [← places.height] at rest
    obtain ⟨l', y', ok', inserts⟩ := ih ins.list distinct others rest
    refine ⟨l', y', ?_, inserts.cons hl.shaped.positive places⟩
    rw [SkipList.insertAll, ok]
    exact ok'

/-! ## 3. The statement -/

/-- Keys in ascending order are the keys of a list if they are those of its bottom level. -/
theorem Of.keys_eq {distinct : List Key} (hl : y.Of l) (sorted : distinct.Pairwise (· < ·))
    (mem : ∀ k, .key k ∈ y.row 0 ↔ k ∈ distinct) : l.keys = .ok distinct := by
  have keys : y.keys = distinct :=
    hl.shaped.keys_sorted.eq_of_mem_iff sorted fun {k} => mem_keys.trans (mem k)
  rw [hl.keys, keys]

/-- Keys built at once and keys put in one by one, in ascending order, are on the same towers. -/
theorem Builds.sameTowers {y0 : Layout} (builds : y.Builds h l keys coins)
    (empty : y0.Builds h (.empty h) [] coins)
    (inserts : y0.InsertsAll y' h (.empty h) l' (ascending keys) coins) : y.SameTowers y' := by
  intro m k
  have none : .key k ∉ y0.row m := fun hk =>
    List.not_mem_nil ((empty.mem k).mp (empty.list.shaped.nested_le hk (Nat.zero_le m)))
  rw [builds.towers, inserts.towers, or_iff_right none]
  rfl

end Layout

open Layout in
/-- **Building at once agrees with insertion.** Let a list be built from keys in any order and with
any repetitions, and let the empty list take each of them once, in ascending order, from the same
coins. If there is room for the towers, both go through and leave the coins at the same position.
The two lists have the same keys, the same count and height, the same root digest and the same paths
for every key; the version of the one is 0, and that of the other the number of keys. Any other
sequence of the same keys builds the same list. -/
theorem build_agrees_with_insertion (h : Hasher) (keys distinct : List Key) (coins : Coins)
    (sorted : distinct.Pairwise (· < ·)) (same : ∀ k, k ∈ distinct ↔ k ∈ keys)
    (room : Layout.builtNodes keys coins < 4294967295) :
    ∃ built inserted coins' events,
      SkipList.ofKeys h keys coins = .ok (built, coins', events) ∧
      (SkipList.empty h).insertAll h distinct coins = .ok (inserted, coins') ∧
      built.keys = .ok distinct ∧ inserted.keys = .ok distinct ∧
      built.size = inserted.size ∧ built.height = inserted.height ∧
      built.CommitsAs inserted h ∧
      built.version = 0 ∧ inserted.version.toNat = distinct.length ∧
      ∀ keys', (∀ k, k ∈ keys' ↔ k ∈ keys) →
        SkipList.ofKeys h keys' coins = .ok (built, coins', events) := by
  obtain rfl : ascending keys = distinct := ascending_eq sorted same
  obtain ⟨built, y, ok, builds⟩ := exists_ofKeys h keys coins room
  obtain ⟨y0, empty⟩ := exists_empty h coins
  have nodup : (ascending keys).Nodup := sorted.imp Int64.ne_of_lt
  have new : ∀ k ∈ ascending keys, .key k ∉ y0.row 0 := fun k _ hk =>
    List.not_mem_nil ((empty.mem k).mp hk)
  have room' : (SkipList.empty h).store.HasRoom (towersNodes 1 (heights keys coins)) := by
    rw [towersNodes_eq Nat.one_pos]
    show 2 + (_ + 2 * ((heights keys coins).foldl max 0 + 1 - 1)) < 4294967295
    unfold builtNodes at room
    omega
  obtain ⟨inserted, y', ok', inserts⟩ := empty.list.insertAll h nodup new room'
  have towers := builds.sameTowers empty inserts
  have current := inserts.current empty.current
  have mem : ∀ k, .key k ∈ y.row 0 ↔ k ∈ ascending keys := fun k =>
    (builds.mem k).trans (same k).symm
  refine ⟨built, inserted, _, _, ok, ok', builds.list.keys_eq sorted mem,
    inserts.list.keys_eq sorted fun k => (towers 0 k).symm.trans (mem k), ?_, ?_,
    towers.commitsAs builds.list inserts.list builds.current current, builds.version, ?_,
    fun keys' same' => (ofKeys_congr same' h coins).trans ok⟩
  · have row := towers.row_eq builds.list.shaped inserts.list.shaped
      builds.list.shaped.positive inserts.list.shaped.positive
    have size := builds.list.size
    rw [← row, inserts.list.size] at size
    omega
  · rw [builds.height, inserts.height]
    rfl
  · have few := (length_le_builtNodes keys coins).trans_lt room
    rw [inserts.version, empty.version, UInt64.zero_add]
    exact UInt64.toNat_ofNat_of_lt' (few.trans (by decide))

/-- From 3, 1 and 3 again, on coins that lift the first key by a level, and from 1 and then 3. -/
theorem build_agrees_with_insertion_sample :
    [1, 3].Pairwise (fun k k' : Key => k < k') ∧
      (∀ k : Key, k ∈ [1, 3] ↔ k ∈ [3, 1, 3]) ∧
      Layout.builtNodes [3, 1, 3] (.ofWords [1]) < 4294967295 ∧
      ∃ built inserted coins' events,
        SkipList.ofKeys .byteSum [3, 1, 3] (.ofWords [1]) = .ok (built, coins', events) ∧
        (SkipList.empty .byteSum).insertAll .byteSum [1, 3] (.ofWords [1]) =
          .ok (inserted, coins') ∧
        built.height = 2 ∧ inserted.height = 2 ∧ built.keys = .ok [1, 3] ∧
        built.CommitsAs inserted .byteSum ∧ built.store ≠ inserted.store ∧
        inserted.version.toNat = 2 := by
  have sorted : [1, 3].Pairwise (fun k k' : Key => k < k') := by decide
  have same : ∀ k : Key, k ∈ [1, 3] ↔ k ∈ [3, 1, 3] := by
    intro k
    simp only [List.mem_cons, List.not_mem_nil, or_false]
    tauto
  have room : Layout.builtNodes [3, 1, 3] (.ofWords [1]) < 4294967295 := by decide
  obtain ⟨built, inserted, coins', events, ok, ok', keys, -, -, height, commits, -, version, -⟩ :=
    build_agrees_with_insertion .byteSum [3, 1, 3] [1, 3] (.ofWords [1]) sorted same room
  have shapes : (do
      let built ← SkipList.ofKeys .byteSum [3, 1, 3] (.ofWords [1])
      let inserted ← (SkipList.empty .byteSum).insertAll .byteSum [1, 3] (.ofWords [1])
      return (built.1.height, decide (built.1.store ≠ inserted.1.store))) = .ok (2, true) := by
    decide +kernel
  rw [ok, ok_bind, ok', ok_bind] at shapes
  obtain ⟨two, differ⟩ := Prod.mk.inj (Except.ok.inj shapes)
  exact ⟨sorted, same, room, built, inserted, coins', events, ok, ok', two, height.symm.trans two,
    keys, commits, of_decide_eq_true differ, version⟩

end AuthenticatedSet
