import AuthenticatedSet.Proofs.Line
import AuthenticatedSet.Proofs.Run
import AuthenticatedSet.Proofs.Towers
import Mathlib.Data.Set.Card
import Mathlib.Order.Bounds.Basic

/-!
# Where the slots are

At every moment of a run a slot is either led to by links or free. As many are led to as the towers
have nodes and the levels have ends. A tower put in takes its slots from the front of the free ones,
and the store gets longer only when none is left; a tower taken out puts its slots there. So the store
is as long as the greatest number of slots that were led to at one moment of the run so far.

* `SkipList.linkedSlots` -- the slots that links lead to, as a set
* `SkipList.Reuses`, `.Releases` -- what an operation does to free slots and to those led to
* `Layout.sites`         -- all places of a layout, one tower after the other, then the ends
* `Sound.ncard_inUse`    -- how many slots are in use, and `Carries.ncard_linkedSlots` led to
* `Run.isGreatest_size`  -- how long the store is
* `slots_accounted_for`  -- the whole statement
-/

namespace AuthenticatedSet

/-- The slots that links lead to. -/
def SkipList.linkedSlots (l : SkipList) : Set Slot := {i | l.Linked i}

/-- Slots have been taken from the front of the free ones, and new ones when none was left; links
lead to them now, and to all that they led to before. -/
structure SkipList.Reuses (l l' : SkipList) (taken : List Slot) : Prop where
  free : l.store.free = taken ++ l'.store.free
  size : l'.store.nodes.size = l.store.nodes.size ∨ l'.store.free = []
  linked : ∀ i, i ∈ l'.linkedSlots ↔ i ∈ l.linkedSlots ∨ i ∈ taken ∨
    (l.store.nodes.size ≤ i.index.toNat ∧ i.index.toNat < l'.store.nodes.size)

/-- Slots have been put in front of the free ones: those of the tower of the key. Links lead to all
others as before. -/
structure SkipList.Releases (l l' : SkipList) (k : Key) (freed : List Slot) : Prop where
  free : l'.store.free = freed ++ l.store.free
  size : l'.store.nodes.size = l.store.nodes.size
  linked : ∀ i, i ∈ l'.linkedSlots ↔ i ∈ l.linkedSlots ∧ i ∉ freed
  tower : ∀ i, i ∈ freed ↔ ∃ node, l.HasNode i node ∧ node.bound = .key k

/-! ## 1. How many slots are in use -/

/-- Every number below that of no slot is the number of a slot. -/
theorem Slot.exists_index {n : Nat} (lt : n < 4294967295) : ∃ i : Slot, i.index.toNat = n :=
  ⟨⟨.ofNat n⟩, UInt32.toNat_ofNat_of_lt' (by simp only [UInt32.size]; omega)⟩

namespace Store

variable {s : Store}

/-- The slots that exist have the numbers below the length of the store. -/
theorem Fits.image_index (fits : s.Fits) :
    (fun i : Slot => i.index.toNat) '' {i | i.index.toNat < s.nodes.size} =
      Finset.range s.nodes.size := by
  ext n
  simp only [Set.mem_image, Set.mem_ofPred_eq, Finset.coe_range, Set.mem_Iio]
  constructor
  · intro h
    obtain ⟨i, lt, rfl⟩ := h
    exact lt
  · intro lt
    obtain ⟨i, rfl⟩ := Slot.exists_index (lt.trans fits)
    exact ⟨i, lt, rfl⟩

/-- **A slot is in use or free**, and there are as many slots as the store is long. -/
theorem Sound.ncard_inUse (sound : s.Sound) :
    {i | s.InUse i}.ncard + s.free.length = s.nodes.size := by
  have injective : Function.Injective fun i : Slot => i.index.toNat := fun _ _ => Slot.ext_toNat
  have numbers := sound.fits.image_index
  have finite : {i : Slot | i.index.toNat < s.nodes.size}.Finite :=
    Set.Finite.of_finite_image (numbers ▸ Finset.finite_toSet _) injective.injOn
  have free : {i | i ∈ s.free}.ncard = s.free.length := by
    rw [← List.coe_toFinset, Set.ncard_coe_finset, List.toFinset_card_of_nodup sound.free_nodup]
  have exist : {i | i ∈ s.free} ⊆ {i : Slot | i.index.toNat < s.nodes.size} :=
    fun i hi => sound.free_lt i hi
  have split : {i | s.InUse i} =
      {i : Slot | i.index.toNat < s.nodes.size} \ {i | i ∈ s.free} := rfl
  rw [split, ← free, Set.ncard_sdiff_add_ncard_of_subset exist finite,
    ← Set.ncard_image_of_injective _ injective, numbers, Set.ncard_coe_finset, Finset.card_range]

end Store

namespace Layout

variable {y y' : Layout} {s : Store} {l l' : SkipList} {h : Hasher} {k : Key}
  {height levels level m : Nat} {b : Bound} {i : Slot} {op : Operation} {change : Change}

theorem map_fst_towers (y : Layout) (height : Nat) :
    (y.towers height).map Prod.fst = y.keys := by
  simp [towers, Function.comp_def]

/-- All places, one tower after the other, then the ends of the levels. -/
def sites (y : Layout) (height : Nat) : List Site :=
  (y.towers height).flatMap (fun tower => column (.key tower.1) 0 (tower.2 + 1)) ++
    (column .lower 0 height ++ column .upper 0 height)

theorem Shaped.mem_sites (hy : y.Shaped height) : (m, b) ∈ y.sites height ↔ b ∈ y.row m := by
  cases b with
  | lower => simp [sites, mem_column, hy.lower_mem_iff]
  | upper => simp [sites, mem_column, hy.upper_mem_iff]
  | key k =>
    simp only [sites, List.mem_append, List.mem_flatMap, mem_column, reduceCtorEq, false_and,
      or_false, Bound.key.injEq, Nat.zero_le, true_and, Nat.zero_add, Nat.lt_succ_iff]
    constructor
    · intro h
      obtain ⟨⟨_, t⟩, tower, rfl, le⟩ := h
      exact (hy.mem_towers.mp tower m).mpr le
    · intro hk
      obtain ⟨t, tower⟩ := exists_mem_towers (hy.nested_le hk (Nat.zero_le m)) height
      exact ⟨(k, t), tower, rfl, (hy.mem_towers.mp tower m).mp hk⟩

theorem length_sites (y : Layout) (height : Nat) : (y.sites height).length =
    ((y.towers height).map fun tower => tower.2 + 1).sum + 2 * height := by
  simp [sites, List.length_flatMap, column, two_mul]

theorem nodup_column (b : Bound) (level levels : Nat) : (column b level levels).Nodup :=
  (column_ordered b level levels).imp fun before same => (same ▸ before).asymm (same ▸ before)

theorem disjoint_column {c : Bound} {level' levels' : Nat} (ne : b ≠ c) :
    (column b level levels).Disjoint (column c level' levels') := by
  intro site hb hc
  exact ne ((mem_column.mp hb).1.symm.trans (mem_column.mp hc).1)

/-- No key has two towers. -/
theorem Shaped.nodup_sites (hy : y.Shaped height) : (y.sites height).Nodup := by
  refine List.nodup_append'.mpr ⟨List.nodup_flatMap.mpr ⟨fun _ _ => nodup_column _ _ _, ?_⟩,
    List.nodup_append'.mpr ⟨nodup_column _ _ _, nodup_column _ _ _, ?_⟩, ?_⟩
  · rw [towers, List.pairwise_map]
    exact hy.keys_sorted.imp fun lt => disjoint_column (Bound.key_lt_key.mpr lt).ne
  · exact disjoint_column (by decide)
  · intro site hk he
    obtain ⟨tower, -, hk⟩ := List.mem_flatMap.mp hk
    rcases List.mem_append.mp he with he | he
    · exact disjoint_column (by simp) hk he
    · exact disjoint_column (by simp) hk he

/-- **What links lead to is in use**, and nothing else is. -/
theorem Carries.linkedSlots_eq (hl : y.Carries l) : l.linkedSlots = {i | l.store.InUse i} := by
  ext i
  show l.Linked i ↔ l.store.InUse i
  rw [hl.describes.inUse]
  constructor
  · intro linked
    obtain ⟨level, b, hb, rfl⟩ := hl.exists_of_linked linked
    exact ⟨level, b, hb, rfl⟩
  · intro place
    obtain ⟨level, b, hb, rfl⟩ := place
    exact hl.linked hb

/-- **How many slots are led to**: one for each node of each tower, and two for each level. -/
theorem Carries.ncard_linkedSlots (hl : y.Carries l) : l.linkedSlots.ncard =
    ((y.towers l.height).map fun tower => tower.2 + 1).sum + 2 * l.height := by
  have hy := hl.shaped
  have slots : l.linkedSlots = (y.slots (y.sites l.height)).toFinset := by
    ext i
    rw [hl.linkedSlots_eq, Set.mem_ofPred_eq, hl.describes.inUse, List.coe_toFinset]
    simp only [Layout.slots, Set.mem_ofPred_eq, List.mem_map, Prod.exists, hy.mem_sites]
  have nodup := hl.describes.nodup_slots hy.nodup_sites fun _ hs => hy.mem_sites.mp hs
  rw [slots, Set.ncard_coe_finset, List.toFinset_card_of_nodup nodup, Layout.slots, List.length_map,
    length_sites]

/-- Links lead to the slots of the lines of the levels. -/
theorem Carries.mem_linkedSlots_iff (hl : y.Carries l) : i ∈ l.linkedSlots ↔
    ∃ level line, l.Line level line ∧ ∃ seat ∈ line, seat.slot = i := by
  constructor
  · intro linked
    obtain ⟨level, b, hb, rfl⟩ := hl.exists_of_linked linked
    exact ⟨level, _, hl.line_iff.mpr ⟨hl.shaped.lt_height hb, rfl⟩, _, List.mem_map_of_mem hb, rfl⟩
  · intro h
    obtain ⟨level, line, hline, seat, mem, rfl⟩ := h
    obtain ⟨-, rfl⟩ := hl.line_iff.mp hline
    obtain ⟨b, hb, rfl⟩ := List.mem_map.mp mem
    exact hl.linked hb

/-- A position of the store has a slot that is led to or free. -/
theorem Carries.lt_size_iff {n : Nat} (hl : y.Carries l) : n < l.store.nodes.size ↔
    ∃ i, i.index.toNat = n ∧ (i ∈ l.linkedSlots ∨ i ∈ l.store.free) := by
  have sound := hl.describes.sound
  rw [hl.linkedSlots_eq]
  constructor
  · intro lt
    obtain ⟨i, rfl⟩ := Slot.exists_index (lt.trans sound.fits)
    by_cases free : i ∈ l.store.free
    · exact ⟨i, rfl, .inr free⟩
    · exact ⟨i, rfl, .inl ⟨lt, free⟩⟩
  · intro h
    obtain ⟨i, rfl, use | free⟩ := h
    · exact use.1
    · exact sound.free_lt i free

theorem Carries.ncard_add_free (hl : y.Carries l) :
    l.linkedSlots.ncard + l.store.free.length = l.store.nodes.size := by
  rw [hl.linkedSlots_eq]
  exact hl.describes.sound.ncard_inUse

/-! ## 2. One operation -/

/-- **A node that is added** gets a slot that no link leads to, of the number that it stands at. -/
theorem Carries.add_of_fits (hl : y.Carries l) {node : Node}
    (ok : l.store.add node = .ok (i, s)) (fits : s.Fits) :
    i ∉ l.linkedSlots ∧ i ≠ .nil ∧ s.get i = .ok node := by
  obtain ⟨fresh, -, here, -⟩ := hl.describes.sound.of_add ok fits
  rw [hl.linkedSlots_eq]
  exact ⟨fresh, fits.ne_nil here, here⟩

/-- What a store has taken, links lead to afterwards. -/
theorem Carries.reuses {n : Nat} (hl : y.Carries l) (hl' : y'.Carries l')
    (taken : l.store.Takes l'.store n) : ∃ slots, l.Reuses l' slots := by
  obtain ⟨slots, free⟩ := taken.free_suffix
  refine ⟨slots, free.symm, taken.size_eq_or_free_eq_nil, fun i => ?_⟩
  have sound := hl.describes.sound
  have longer := taken.size_le
  have nodup : (slots ++ l'.store.free).Nodup := free ▸ sound.free_nodup
  have exist := sound.free_lt i
  rw [hl.linkedSlots_eq, hl'.linkedSlots_eq]
  simp only [Store.InUse, Set.mem_ofPred_eq, ← free, List.mem_append] at exist ⊢
  constructor
  · intro use
    by_cases old : i.index.toNat < l.store.nodes.size
    · by_cases mem : i ∈ slots
      · exact .inr (.inl mem)
      · exact .inl ⟨old, not_or.mpr ⟨mem, use.2⟩⟩
    · exact .inr (.inr ⟨not_lt.mp old, use.1⟩)
  · intro h
    rcases h with use | mem | new
    · exact ⟨use.1.trans_le longer, fun free => use.2 (.inr free)⟩
    · exact ⟨(exist (.inl mem)).trans_le longer, List.disjoint_of_nodup_append nodup mem⟩
    · exact ⟨new.2, fun free => (exist (.inr free)).not_ge new.1⟩

/-- **Putting in a key** takes slots, whether it finds something to do or not. -/
theorem Of.reuses (hl : y.Of l) {coins coins' : Coins}
    (ok : l.insert h k coins = .ok (change, coins')) (fits : change.list.store.Fits) :
    ∃ taken, l.Reuses change.list taken := by
  obtain ⟨y', ins⟩ := hl.exists_of_insert ok fits
  obtain ⟨n, taken⟩ := Layout.takes_insert ok
  exact hl.toCarries.reuses ins.list.toCarries taken

/-- **Taking out a key** sets the slots of its tower free, if it has one. -/
theorem Of.releases (hl : y.Of l) (ok : l.erase h k = .ok change) :
    ∃ freed, l.Releases change.list k freed := by
  obtain ⟨y', erases⟩ := hl.exists_of_erase ok
  refine ⟨_, erases.free, erases.slots, fun i => ?_, fun i => ?_⟩
  · have sizes := erases.slots
    have free := erases.free
    rw [hl.linkedSlots_eq, erases.list.linkedSlots_eq]
    simp only [Store.InUse, Set.mem_ofPred_eq, sizes, free, List.mem_append, not_or]
    tauto
  · simp only [List.mem_reverse, Layout.slots, List.mem_map, mem_keySites hl.shaped, hl.hasNode_iff]
    constructor
    · intro h
      obtain ⟨⟨m, c⟩, ⟨rfl, hk⟩, rfl⟩ := h
      exact ⟨_, ⟨m, _, hk, rfl, rfl⟩, rfl⟩
    · intro h
      obtain ⟨_, ⟨m, c, hc, rfl, rfl⟩, bound⟩ := h
      exact ⟨(m, c), ⟨bound, hc⟩, rfl⟩

/-- **A store gets longer only for slots that are led to.** -/
theorem Of.size_of_perform (hl : y.Of l) (hl' : y'.Carries change.list)
    (ok : l.perform h op = .ok change) :
    change.list.store.nodes.size = max change.list.linkedSlots.ncard l.store.nodes.size := by
  have count := hl'.ncard_add_free
  cases op with
  | insert k coins =>
    obtain ⟨coins', ok⟩ := SkipList.perform_insert_eq_ok_iff.mp ok
    obtain ⟨n, taken⟩ := Layout.takes_insert ok
    have longer := taken.size_le
    rcases taken.size_eq_or_free_eq_nil with same | none
    · omega
    · rw [none, List.length_nil] at count
      omega
  | erase k =>
    obtain ⟨freed, releases⟩ := hl.releases ok
    have same := releases.size
    omega

/-- A list to start with is made from no slot. -/
theorem takes_start {start : Start} (ok : start.list h = .ok l) :
    ∃ n, Store.Takes ⟨#[], []⟩ l.store n := by
  cases start with
  | empty =>
    cases ok
    exact ⟨_, takes_ofKeys (ofKeys_nil h (.ofWords []))⟩
  | ofKeys keys coins =>
    obtain ⟨coins', events, ok⟩ := Start.list_ofKeys_eq_ok_iff.mp ok
    exact ⟨_, takes_ofKeys ok⟩

/-- Of what is made for the start no slot is free. -/
theorem Carries.size_of_start {start : Start} (hl : y.Carries l) (ok : start.list h = .ok l) :
    l.store.nodes.size = l.linkedSlots.ncard := by
  obtain ⟨n, taken⟩ := takes_start ok
  have count := hl.ncard_add_free
  rw [List.suffix_nil.mp taken.free_suffix] at count
  exact count.symm

end Layout

/-! ## 3. Runs -/

/-- How many slots were led to, at each moment up to these operations. -/
def Start.occupancies (start : Start) (h : Nat → Hasher) (ops : List Operation) : Set Nat :=
  {n | ∃ before answers l, before <+: ops ∧ Run h start before answers l ∧
    l.linkedSlots.ncard = n}

namespace Run

variable {h : Nat → Hasher} {start : Start} {ops : List Operation}
  {answers : List Bool} {l : SkipList} {op : Operation}

theorem occupancies_nil (run : Run h start [] answers l) :
    start.occupancies h [] = {l.linkedSlots.ncard} := by
  ext n
  constructor
  · intro h
    obtain ⟨before, answers', l', le, run', rfl⟩ := h
    obtain rfl := List.prefix_nil.mp le
    rw [run.unique run']
    rfl
  · intro h
    obtain rfl := h
    exact ⟨[], _, _, List.prefix_rfl, run, rfl⟩

theorem occupancies_concat (run : Run h start (ops ++ [op]) answers l) :
    start.occupancies h (ops ++ [op]) = insert l.linkedSlots.ncard (start.occupancies h ops) := by
  ext n
  constructor
  · intro h
    obtain ⟨before, answers', l', le, run', rfl⟩ := h
    rcases List.prefix_concat_iff.mp le with rfl | le
    · exact .inl (run.unique run' ▸ rfl)
    · exact .inr ⟨before, answers', l', le, run', rfl⟩
  · intro h
    rcases h with rfl | ⟨before, answers', l', le, run', rfl⟩
    · exact ⟨_, _, _, List.prefix_rfl, run, rfl⟩
    · exact ⟨before, answers', l', le.trans (List.prefix_append ops [op]), run', rfl⟩

/-- **A store is as long as the greatest number of slots that were led to at one moment.** -/
theorem isGreatest_size (run : Run h start ops answers l) :
    IsGreatest (start.occupancies h ops) l.store.nodes.size := by
  induction run with
  | start ok fits =>
    have first : Run h start [] [] _ := .start ok fits
    obtain ⟨y, hl, -⟩ := first.exists_layout
    rw [first.occupancies_nil, hl.size_of_start ok]
    exact isGreatest_singleton
  | step earlier ok fits ih =>
    have run := earlier.step ok fits
    obtain ⟨y, hl, -⟩ := earlier.exists_layout
    obtain ⟨y', hl', -⟩ := run.exists_layout
    rw [run.occupancies_concat, hl.size_of_perform hl'.toCarries ok]
    exact ih.insert _

end Run

/-! ## 4. The statement -/

/-- **Every slot is accounted for**, at every moment of any run, whatever its hashers. A slot is led
to by links when it is that of a seat of some level. No slot is free twice, none is free and led to,
and the slots that are one or the other have just the positions of the store for their numbers. Each
key that the set of the run has got has one tower; as many slots are led to as the towers have nodes,
and two more for each level. The store is as long as the greatest number of slots that were led to at
one moment of the run so far. A node that is added gets a slot that no link leads to, and that names
the position that the node stands at. An insertion leads to slots from the front of the free ones, and
to new ones if none is left; an erasure puts the slots of the tower in front, and only those. -/
theorem slots_accounted_for {h : Nat → Hasher} {start : Start} {ops : List Operation}
    {answers : List Bool} {l : SkipList} (run : Run h start ops answers l) :
    (∀ i, i ∈ l.linkedSlots ↔ ∃ level line, l.Line level line ∧ ∃ seat ∈ line, seat.slot = i) ∧
    l.store.free.Nodup ∧ (∀ i ∈ l.store.free, i ∉ l.linkedSlots) ∧
    (∀ n, n < l.store.nodes.size ↔
      ∃ i, i.index.toNat = n ∧ (i ∈ l.linkedSlots ∨ i ∈ l.store.free)) ∧
    (∃ towers, l.towers = .ok towers ∧ (towers.map Prod.fst).Pairwise (· < ·) ∧
      (∀ k, k ∈ towers.map Prod.fst ↔ k ∈ start.keysAfter ops) ∧
      l.linkedSlots.ncard = (towers.map fun tower => tower.2 + 1).sum + 2 * l.height) ∧
    IsGreatest (start.occupancies h ops) l.store.nodes.size ∧
    (∀ node i s, l.store.add node = .ok (i, s) → s.Fits →
      i ∉ l.linkedSlots ∧ i ≠ .nil ∧ s.get i = .ok node) ∧
    (∀ h k coins change coins', l.insert h k coins = .ok (change, coins') →
      change.list.store.Fits → ∃ taken, l.Reuses change.list taken) ∧
    ∀ h k change, l.erase h k = .ok change → ∃ freed, l.Releases change.list k freed := by
  obtain ⟨y, hl, holds, -⟩ := run.exists_layout
  have keys := y.map_fst_towers l.height
  have members : ∀ k, k ∈ (y.towers l.height).map Prod.fst ↔ k ∈ start.keysAfter ops :=
    fun k => keys ▸ Layout.mem_keys.trans (holds k)
  have apart : ∀ i ∈ l.store.free, i ∉ l.linkedSlots := by
    intro i free linked
    rw [hl.linkedSlots_eq] at linked
    exact linked.2 free
  exact ⟨fun i => hl.mem_linkedSlots_iff, hl.describes.sound.free_nodup, apart,
    fun n => hl.lt_size_iff,
    ⟨_, hl.towers, keys ▸ hl.shaped.keys_sorted, members, hl.ncard_linkedSlots⟩,
    run.isGreatest_size, fun _ _ _ ok fits => hl.add_of_fits ok fits,
    fun _ _ _ _ _ ok fits => hl.reuses ok fits, fun _ _ _ ok => hl.releases ok⟩

/-- Of seven slots five are led to in the end, and all seven were before a key was taken off. A node
that is added goes into the one of its two slots that is in front. -/
theorem slots_accounted_for_sample :
    Run (fun _ => .byteSum) .empty sampleOps [true, true, true, false] sample ∧
      sample.linkedSlots.ncard = 5 ∧ sample.store.free = [⟨5⟩, ⟨2⟩] ∧
      IsGreatest (Start.empty.occupancies (fun _ => .byteSum) sampleOps) 7 ∧
      (∃ s, sample.store.add (.fresh .lower .nil .nil) = .ok (⟨5⟩, s) ∧
        ⟨5⟩ ∉ sample.linkedSlots ∧ s.get ⟨5⟩ = .ok (.fresh .lower .nil .nil)) ∧
      (∃ change coins taken, sample.insert .byteSum 4 (.ofWords []) = .ok (change, coins) ∧
        sample.Reuses change.list taken) ∧
      ∃ change freed, sample.erase .byteSum 3 = .ok change ∧
        sample.Releases change.list 3 freed := by
  obtain ⟨-, -, -, -, ⟨towers, ok, -, -, count⟩, greatest, added, inserted, erased⟩ :=
    slots_accounted_for run_sample
  have single : sample.towers = .ok [(3, 0)] := by decide +kernel
  obtain rfl := Except.ok.inj (single.symm.trans ok)
  have run : (do
      let added ← sample.store.add (.fresh .lower .nil .nil)
      let put ← sample.insert .byteSum 4 (.ofWords [])
      let taken ← sample.erase .byteSum 3
      return (added.1, added.2.nodes.size, put.1.list.store.nodes.size, taken.changed)) =
        .ok (⟨5⟩, 7, 7, true) := by decide +kernel
  obtain ⟨⟨i, s⟩, add, run⟩ := bind_eq_ok_iff.mp run
  obtain ⟨⟨put, coins⟩, insert, run⟩ := bind_eq_ok_iff.mp run
  obtain ⟨taken, erase, run⟩ := bind_eq_ok_iff.mp run
  obtain ⟨rfl, size, size', -⟩ : i = ⟨5⟩ ∧ s.nodes.size = 7 ∧ put.list.store.nodes.size = 7 ∧
      taken.changed = true := by
    simpa using run
  obtain ⟨fresh, -, here⟩ := added _ _ s add (by unfold Store.Fits; omega)
  obtain ⟨slots, reuses⟩ := inserted _ _ _ put coins insert (by unfold Store.Fits; omega)
  obtain ⟨freed, releases⟩ := erased _ _ taken erase
  exact ⟨run_sample, count, rfl, greatest, ⟨s, add, fresh, here⟩, ⟨put, coins, slots, insert, reuses⟩,
    taken, freed, erase, releases⟩

end AuthenticatedSet
