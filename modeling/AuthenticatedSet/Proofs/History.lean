import AuthenticatedSet.Proofs.Completeness
import AuthenticatedSet.Proofs.Towers

/-!
# Towers decide the commitment

Two lists whose keys have towers of the same heights commit to them in the same way, whatever has
happened to the one and to the other before: their root digests are equal, and so are their paths
for every key. What else may differ, the slots, the version and the number of empty levels on top,
does not enter a digest.

* `SkipList.CommitsAs`        -- the same root digest and the same paths
* `SameTowers.digest_eq`      -- the same digests on the levels that both have
* `Shaped.digest_empty_level` -- an empty level hands on the digest of the one below
* `SameTowers.path_eq`        -- the same path, but for the left ends of empty levels
* `history_independent`       -- the whole statement
-/

namespace AuthenticatedSet

/-! ## 1. Lists that commit in the same way -/

/-- The two lists commit to the same keys in the same way. -/
structure SkipList.CommitsAs (l l' : SkipList) (h : Hasher) : Prop where
  root : ∃ c c', l.confirmation = .ok c ∧ l'.confirmation = .ok c' ∧ c.digest = c'.digest
  proofs : ∀ k, ∃ p p', l.prove h k = .ok p ∧ l'.prove h k = .ok p' ∧
    p.present = p'.present ∧ p.digests = p'.digests

theorem SkipList.CommitsAs.symm {l l' : SkipList} {h : Hasher} (same : l.CommitsAs l' h) :
    l'.CommitsAs l h where
  root := by
    obtain ⟨c, c', confirmed, confirmed', root⟩ := same.root
    exact ⟨c', c, confirmed', confirmed, root.symm⟩
  proofs k := by
    obtain ⟨p, p', proved, proved', present, digests⟩ := same.proofs k
    exact ⟨p', p, proved', proved, present.symm, digests.symm⟩

namespace Layout

variable {y y' : Layout} {l l' : SkipList} {h : Hasher} {p : Bound → Bool}
  {height height' levels m : Nat} {b : Bound} {k : Key}

/-! ## 2. Levels that both layouts have -/

namespace SameTowers

theorem symm (same : y.SameTowers y') : y'.SameTowers y := fun m k => (same m k).symm

theorem row_eq (same : y.SameTowers y') (hy : y.Shaped height) (hy' : y'.Shaped height')
    (lt : m < height) (lt' : m < height') : y'.row m = y.row m := by
  refine (hy'.sorted m).eq_of_mem_iff (hy.sorted m) fun {c} => ?_
  cases c with
  | lower => exact iff_of_true (hy'.lower lt') (hy.lower lt)
  | key k => exact (same m k).symm
  | upper => exact iff_of_true (hy'.upper lt') (hy.upper lt)

theorem covered_eq (same : y.SameTowers y') (hy : y.Shaped height) (hy' : y'.Shaped height')
    (hb : b ∈ y.row m) (hb' : b ∈ y'.row m) (ne : b ≠ .lower) :
    (y'.node m b).isCovered = (y.node m b).isCovered := by
  rw [Bool.eq_iff_iff, hy'.isCovered_iff hb', hy.isCovered_iff hb]
  cases b with
  | lower => exact absurd rfl ne
  | key k => exact or_congr_left (same (m + 1) k).symm
  | upper => simp

section Digest

variable (same : y.SameTowers y') (hy : y.Shaped height) (hy' : y'.Shaped height')
  (current : y.Current h) (current' : y'.Current h)

include same hy hy'

/-- The right neighbours contribute the same if their digests are the same. -/
theorem share_next_eq (hb : b ∈ y.row m) (lt' : m < height') (ne : b ≠ .upper)
    (beside : y.next m b ≠ .upper → y'.digest m (y.next m b) = y.digest m (y.next m b)) :
    (y'.node m (y'.next m b)).share = (y.node m (y.next m b)).share := by
  have row := same.row_eq hy hy' (hy.lt_height hb) lt'
  have next : y'.next m b = y.next m b := congrArg (nextIn · b) row
  have hn := hy.next_mem hb
  have low : y.next m b ≠ .lower := ((Bound.lower_le b).trans_lt (Shaped.lt_next ne)).ne'
  rw [next]
  refine share_congr (same.covered_eq hy hy' hn (row ▸ hn) low) fun exposed => beside fun last => ?_
  rw [← Bool.not_eq_true, hy.isCovered_iff hn] at exposed
  exact exposed (.inr last)

include current current'

/-- Along a level the digests are the same if those below are. -/
theorem digest_eq_of_below (lt' : m < height')
    (below : ∀ b ∈ y.row m, b ≠ .upper → y'.below m b = y.below m b) :
    ∀ b ∈ y.row m, b ≠ .upper → y'.digest m b = y.digest m b := by
  refine hy.right_to_left (P := fun b => b ≠ .upper → y'.digest m b = y.digest m b) (absurd rfl)
    fun b hb ne beside _ => ?_
  have hb' : b ∈ y'.row m := same.row_eq hy hy' (hy.lt_height hb) lt' ▸ hb
  have share := same.share_next_eq hy hy' hb lt' ne beside
  rw [current m b hb ne, current' m b hb' ne, commit, commit, below b hb ne, share]

/-- **The same towers have the same digests**, on the levels that both layouts have. -/
theorem digest_eq (hb : b ∈ y.row m) (lt' : m < height') (ne : b ≠ .upper) :
    y'.digest m b = y.digest m b := by
  induction m generalizing b with
  | zero =>
    exact same.digest_eq_of_below hy hy' current current' lt' (fun _ _ _ => rfl) b hb ne
  | succ m ih =>
    refine same.digest_eq_of_below hy hy' current current' lt' (fun b hb ne => ?_) b hb ne
    exact congrArg some (ih (hy.nested hb) (by omega) ne)

/-- What a place reads besides the digest that a path comes from is the same. -/
theorem siblings_eq {reader : Site} (site : Site) (hr : reader.2 ∈ y.row reader.1)
    (lt' : reader.1 < height') (ne : reader.2 ≠ .upper) :
    y'.siblings h reader site = y.siblings h reader site := by
  obtain ⟨m, b⟩ := reader
  have share := same.share_next_eq hy hy' hr lt' ne
    (same.digest_eq hy hy' current current' (hy.next_mem hr) lt')
  have below : y'.below m b = y.below m b := by
    cases m with
    | zero => rfl
    | succ m =>
      exact congrArg some (same.digest_eq hy hy' current current' (hy.nested hr)
        (Nat.lt_of_succ_lt lt') ne)
  simp only [siblings, share, below]

end Digest

end SameTowers

/-! ## 3. Empty levels -/

theorem Shaped.next_empty_level (hy : y.Shaped height) (lt : m < height)
    (empty : ∀ k, .key k ∉ y.row m) : y.next m .lower = .upper := by
  have mem := hy.next_mem (hy.lower lt)
  have gt : Bound.lower < y.next m .lower := Shaped.lt_next Bound.lower_lt_upper.ne
  cases found : y.next m .lower with
  | lower => exact absurd (found ▸ gt) (lt_irrefl _)
  | key k => exact absurd (found ▸ mem) (empty k)
  | upper => rfl

/-- A right end contributes no more than itself. -/
theorem share_upper : (y.node m .upper).share = .covered .upper :=
  if_pos (by simp [Node.isCovered, node])

/-- **An empty level hands on the digest of the one below.** -/
theorem Shaped.digest_empty_level (hy : y.Shaped height) (current : y.Current h)
    (lt : m + 1 < height) (empty : ∀ k, .key k ∉ y.row (m + 1)) :
    y.digest (m + 1) .lower = y.digest m .lower := by
  rw [current (m + 1) .lower (hy.lower lt) Bound.lower_lt_upper.ne, commit,
    hy.next_empty_level lt empty, share_upper]
  rfl

/-- Of its bounds only the left end passes. -/
theorem eq_lower_of_pass (hp : Downward p) (empty : ∀ k, .key k ∉ y.row m) (hb : b ∈ y.row m)
    (pass : p b = true) : b = .lower := by
  cases b with
  | lower => rfl
  | key k => exact absurd hb (empty k)
  | upper => exact absurd rfl (ne_upper_of_pass hp pass)

/-- A search rests on the left end alone. -/
theorem Shaped.stretch_empty_level (hy : y.Shaped height) (hp : Downward p) (lt : m < height)
    (empty : ∀ k, .key k ∉ y.row m) : y.stretch p m = [.lower] := by
  have start : y.reached p (m + 1) = .lower :=
    eq_lower_of_pass hp empty (hy.reached_succ_mem lt) (Shaped.reached_pass hp (m + 1))
  have next : nextIn (y.row m) .lower = .upper := hy.next_empty_level lt empty
  rw [stretch, start, slice_eq_cons (hy.sorted m) (hy.lower lt) Bound.lower_lt_upper.ne hp.lower,
    next, slice_eq_nil hp hp.upper]
  rfl

/-- A path on its way back adds nothing there. -/
theorem Shaped.siblings_empty_level (hy : y.Shaped height) (h : Hasher) (lt : m + 1 < height)
    (empty : ∀ k, .key k ∉ y.row (m + 1)) :
    y.siblings h (m + 1, .lower) (m, .lower) = [] := by
  rw [siblings, if_pos rfl, hy.next_empty_level lt empty, share_upper]
  rfl

section EmptyLevels

variable (hy : y.Shaped height') (empty : ∀ m, height ≤ m → ∀ k, .key k ∉ y.row m)

include hy empty

theorem Shaped.digest_empty_levels (current : y.Current h) (positive : 0 < height)
    (fits : height + levels ≤ height') :
    y.digest (height + levels - 1) .lower = y.digest (height - 1) .lower := by
  induction levels with
  | zero => rfl
  | succ n ih =>
    have := hy.digest_empty_level current (m := height + n - 1) (by omega) (empty _ (by omega))
    rw [show height + n - 1 + 1 = height + (n + 1) - 1 by omega] at this
    exact this.trans (ih (by omega))

/-- A path goes through empty levels along their left ends. -/
theorem Shaped.path_empty_levels (hp : Downward p) (fits : height + levels ≤ height') :
    y.path p (height + levels) = y.path p height ++ column .lower height levels := by
  induction levels with
  | zero => simp [column]
  | succ n ih =>
    have last : y.stretch p (height + n) = [.lower] :=
      hy.stretch_empty_level hp (by omega) (empty _ (by omega))
    have more : y.path p (height + (n + 1)) = y.path p (height + n) ++ [(height + n, .lower)] := by
      rw [path, ← Nat.add_assoc, List.range_succ, List.flatMap_append, List.flatMap_singleton, last]
      rfl
    rw [more, ih (by omega), column, column, List.range'_1_concat, List.map_append,
      ← List.append_assoc]
    rfl

theorem Shaped.siblingsAlong_empty_levels (h : Hasher) (le : height ≤ m + 1)
    (fits : m + 1 + levels ≤ height') :
    y.siblingsAlong h (m, .lower) (column .lower (m + 1) levels) = [] := by
  induction levels generalizing m with
  | zero => rfl
  | succ n ih =>
    rw [column_succ, siblingsAlong, hy.siblings_empty_level h (by omega) (empty _ le),
      ih (by omega) (by omega)]
    rfl

end EmptyLevels

/-! ## 4. Paths -/

theorem siblingsAlong_append (y : Layout) (h : Hasher) (came : Site) (sites more : List Site) :
    y.siblingsAlong h came (sites ++ more) =
      y.siblingsAlong h came sites ++ y.siblingsAlong h (sites.getLastD came) more := by
  induction sites generalizing came with
  | nil => rfl
  | cons site rest ih =>
    rw [List.cons_append, siblingsAlong, siblingsAlong, ih, List.append_assoc, List.getLastD_cons]

namespace SameTowers

section Path

variable (same : y.SameTowers y') (hy : y.Shaped height) (hy' : y'.Shaped (height + levels))

include same hy

/-- Above the levels of the one layout the other one has no keys. -/
theorem empty_above (m : Nat) (ge : height ≤ m) (k : Key) : .key k ∉ y'.row m := by
  rw [← same m k, hy.beyond ge]
  exact List.not_mem_nil

include hy'

theorem reached_eq (hp : Downward p) (m : Nat) : y'.reached p m = y.reached p m := by
  by_cases lt : m < height
  · exact congrArg (lastIn · p) (same.row_eq hy hy' lt (by omega))
  · rw [hy.reached_beyond (not_lt.mp lt)]
    by_cases lt' : m < height + levels
    · exact eq_lower_of_pass hp (same.empty_above hy m (not_lt.mp lt)) (hy'.reached_mem lt')
        (Shaped.reached_pass hp m)
    · exact hy'.reached_beyond (not_lt.mp lt')

/-- **The same path**, but for the left ends of empty levels. -/
theorem path_eq (hp : Downward p) :
    y'.path p (height + levels) = y.path p height ++ column .lower height levels := by
  rw [hy'.path_empty_levels (same.empty_above hy) hp le_rfl]
  congr 1
  rw [path, path, List.flatMap_def, List.flatMap_def]
  refine congrArg List.flatten (List.map_congr_left fun m hm => ?_)
  have lt := List.mem_range.mp hm
  rw [stretch, stretch, same.row_eq hy hy' lt (by omega), same.reached_eq hy hy' hp]

variable (current : y.Current h) (current' : y'.Current h)

include current current'

theorem siblingsAlong_eq {came : Site} {sites : List Site}
    (mem : ∀ site ∈ sites, site.2 ∈ y.row site.1 ∧ site.2 ≠ .upper) :
    y'.siblingsAlong h came sites = y.siblingsAlong h came sites := by
  induction sites generalizing came with
  | nil => rfl
  | cons site rest ih =>
    obtain ⟨hs, ne⟩ := mem site List.mem_cons_self
    have lt := hy.lt_height hs
    rw [siblingsAlong, siblingsAlong, ih fun i hi => mem i (List.mem_cons_of_mem _ hi),
      same.siblings_eq hy hy' current current' came hs (by omega) ne]

/-- **The same towers have the same paths for every key.** -/
theorem digests_proof_eq (version version' : UInt64) (k : Key) :
    (y'.proof h version' (height + levels) k).digests =
      (y.proof h version height k).digests := by
  have hp := Reach.upTo.passes_downward k
  have start := same.reached_eq hy hy' hp 0
  obtain ⟨rest, path⟩ := hy.path_eq_cons hp
  have last : rest.getLastD (0, y.reached (Reach.upTo.passes k) 0) = (height - 1, .lower) := by
    have := path ▸ hy.getLast?_path hp
    rwa [List.getLast?_cons, Option.some.injEq, ← List.getLastD_eq_getLast?] at this
  have top : y'.siblingsAlong h (height - 1, .lower) (column .lower height levels) = [] := by
    have positive := hy.positive
    have within : height - 1 + 1 + levels ≤ height + levels := by omega
    have above := hy'.siblingsAlong_empty_levels (same.empty_above hy) h (by omega) within
    rwa [Nat.sub_add_cancel positive] at above
  have along : y'.siblingsAlong h (0, y.reached (Reach.upTo.passes k) 0) rest =
      y.siblingsAlong h (0, y.reached (Reach.upTo.passes k) 0) rest :=
    same.siblingsAlong_eq hy hy' current current'
      fun i hi => path_mem hp (path ▸ List.mem_cons_of_mem _ hi)
  have hb := hy.reached_mem (p := Reach.upTo.passes k) hy.positive
  have ne : y.reached (Reach.upTo.passes k) 0 ≠ .upper := Shaped.reached_ne_upper hp 0
  have share := same.share_next_eq hy hy' hb (by have := hy.positive; omega) ne
    (same.digest_eq hy hy' current current' (hy.next_mem hb) (by have := hy.positive; omega))
  rw [proof, proof]
  dsimp only
  rw [same.path_eq hy hy' hp, path, start, share, List.cons_append, List.tail_cons, List.tail_cons,
    siblingsAlong_append, last, top, along, List.append_nil]

/-- **The same towers have the same root digest.** -/
theorem rootDigest_eq :
    y'.digest (height + levels - 1) .lower = y.digest (height - 1) .lower := by
  have positive := hy.positive
  rw [hy'.digest_empty_levels (same.empty_above hy) current' positive le_rfl]
  exact same.digest_eq hy hy' current current' (hy.lower (by omega)) (by omega)
    Bound.lower_lt_upper.ne

end Path

end SameTowers

/-! ## 5. The statement -/

/-- Lists whose layouts have the same towers commit in the same way. -/
theorem SameTowers.commitsAs (same : y.SameTowers y') (hl : y.Of l) (hl' : y'.Of l')
    (current : y.Current h) (current' : y'.Current h) : l.CommitsAs l' h := by
  wlog le : l.height ≤ l'.height generalizing l l' y y'
  · exact (this same.symm hl' hl current' current (le_of_not_ge le)).symm
  obtain ⟨levels, hh⟩ := Nat.exists_eq_add_of_le le
  have hy := hl.shaped
  have hy' := hh ▸ hl'.shaped
  constructor
  · refine ⟨_, _, hl.confirmation, hl'.confirmation, ?_⟩
    dsimp only
    rw [hh, same.rootDigest_eq hy hy' current current']
  · intro k
    have start := same.reached_eq hy hy' (Reach.upTo.passes_downward k) 0
    refine ⟨_, _, hl.prove h k, hl'.prove h k, ?_, ?_⟩
    · simp only [proof, start]
    · rw [hh, same.digests_proof_eq hy hy' current current' l.version]

/-- A key put in and taken out again leaves the towers as they were. -/
theorem SameTowers.of_inserted_erased {y1 : Layout} (new : .key k ∉ y.row 0) (hy : y.Shaped height)
    (ins : y.Inserted y1 k levels) (erased : y1.Erased y' k) : y.SameTowers y' := by
  intro m k'
  rw [erased.mem, ins.mem]
  constructor
  · intro old
    refine ⟨.inl old, ?_⟩
    rintro ⟨⟩
    exact new (hy.nested_le old (Nat.zero_le m))
  · intro both
    obtain ⟨old | ⟨-, added⟩, other⟩ := both
    · exact old
    · simp [other] at added

end Layout

/-- **The commitment does not depend on the history.** Two reachable lists with the same keys on
towers of the same heights have the same root digest and the same paths for every key. So a key that
was not there, put in with any coins and taken out again, leaves root digest and paths as they
were. -/
theorem history_independent (h : Hasher) :
    (∀ l l', Reachable h l → Reachable h l' → ∃ towers towers', l.towers = .ok towers ∧
      l'.towers = .ok towers' ∧
      ((∀ tower, tower ∈ towers ↔ tower ∈ towers') → l.CommitsAs l' h)) ∧
    ∀ l k coins, Reachable h l → l.contains k = .ok false →
      l.store.HasRoom (l.towerNodes coins.draw.1) →
      ∃ change coins' change', l.insert h k coins = .ok (change, coins') ∧
        change.changed = true ∧ change.list.store.Fits ∧
        change.list.erase h k = .ok change' ∧ change'.changed = true ∧
        l.CommitsAs change'.list h := by
  constructor
  · intro l l' reach reach'
    obtain ⟨y, hl, current⟩ := reach.exists_layout
    obtain ⟨y', hl', current'⟩ := reach'.exists_layout
    refine ⟨_, _, hl.towers, hl'.towers, fun same => ?_⟩
    exact (hl.shaped.sameTowers hl'.shaped same).commitsAs hl hl' current current'
  · intro l k coins reach absent room
    obtain ⟨y, hl, current⟩ := reach.exists_layout
    have new : .key k ∉ y.row 0 := by
      rw [hl.contains] at absent
      simpa using absent
    obtain ⟨change, coins', y1, ok, ins⟩ := hl.insert k coins (fun _ => room) h
    obtain ⟨places, -⟩ := ins.absent new
    obtain ⟨change', y', ok', erases⟩ := ins.list.erase h k
    obtain ⟨changed, -⟩ := erases.present (places.inserted.mem.mpr (.inr ⟨Nat.zero_le _, .inl rfl⟩))
    refine ⟨change, coins', change', ok, places.changed, ins.list.describes.sound.fits, ok',
      changed, ?_⟩
    have same := Layout.SameTowers.of_inserted_erased new hl.shaped places.inserted erases.erased
    exact same.commitsAs hl erases.list current (erases.current (ins.current current))

/-- The key 3 alone, once after the key 5 has come and gone on two levels and once built at once. -/
theorem history_independent_sample :
    Reachable .byteSum sample ∧ sample.height = 2 ∧
      (∃ l, Reachable .byteSum l ∧ l.height = 1 ∧ sample.CommitsAs l .byteSum) ∧
      ∃ change coins' change', sample.insert .byteSum 4 (.ofWords [1, 1]) = .ok (change, coins') ∧
        change.list.erase .byteSum 4 = .ok change' ∧ change'.list.height = 3 ∧
        sample.CommitsAs change'.list .byteSum := by
  obtain ⟨independent, restored⟩ := history_independent .byteSum
  have built : (do
      let start ← SkipList.ofKeys .byteSum [3, 3] (.ofWords [])
      return (start.1.store.nodes.size, start.1.height, ← start.1.towers)) =
        .ok (3, 1, [(3, 0)]) := by
    decide +kernel
  obtain ⟨⟨l, coins, events⟩, ok, built⟩ := bind_eq_ok_iff.mp built
  obtain ⟨towers, read, built⟩ := bind_eq_ok_iff.mp built
  obtain ⟨size, height, rfl⟩ : l.store.nodes.size = 3 ∧ l.height = 1 ∧ towers = [(3, 0)] := by
    simpa using built
  have reach : Reachable .byteSum l := .ofKeys ok (by unfold Store.Fits; omega)
  obtain ⟨first, second, read1, read2, commits⟩ := independent _ _ reachable_sample reach
  have towers : sample.towers = .ok [(3, 0)] := by decide +kernel
  obtain rfl := Except.ok.inj (towers.symm.trans read1)
  obtain rfl := Except.ok.inj (read.symm.trans read2)
  have room : sample.store.HasRoom (sample.towerNodes (Coins.ofWords [1, 1]).draw.1) := by
    unfold Store.HasRoom
    decide
  obtain ⟨change, coins', change', put, -, -, taken, -, commits'⟩ :=
    restored sample 4 (.ofWords [1, 1]) reachable_sample (by decide +kernel) room
  have grown : (do
      let put ← sample.insert .byteSum 4 (.ofWords [1, 1])
      let taken ← put.1.list.erase .byteSum 4
      return taken.list.height) = .ok 3 := by decide +kernel
  rw [put, ok_bind, taken] at grown
  exact ⟨reachable_sample, rfl, ⟨l, reach, height, commits fun _ => Iff.rfl⟩, change, coins',
    change', put, taken, Except.ok.inj grown, commits'⟩

end AuthenticatedSet
