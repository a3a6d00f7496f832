import AuthenticatedSet.Proofs.Audit

/-!
# Towers

On how many levels a key is follows from the links of a list: they lead down from the left end of
the top level to those of the levels below, and right along each of them.

* `SkipList.levels`, `.towers` -- the keys on each level, and each key with the height of its tower
* `Carries.towers`             -- they are those of the layout
* `Shaped.mem_towers`          -- a key with a tower of some height is on the levels up to that one
* `Layout.SameTowers`          -- two layouts with the same keys on each level
-/

namespace AuthenticatedSet

/-! ## 1. Reading towers off a list -/

/-- The keys on the level of a slot and on those under it, the bottom level first. The bottom has to
come within `limit` steps down. -/
def Store.levelsUnder (s : Store) : (limit : Nat) → Slot → Except Fault (List (List Key))
  | limit, i => do
    let node ← s.get i
    let keys ← s.keysFrom s.nodes.size node.right
    if node.down = .nil then
      return [keys]
    else
      match limit with
      | 0 => throw .endless
      | limit + 1 => return (← s.levelsUnder limit node.down) ++ [keys]

namespace SkipList

/-- The keys on each level, from the bottom up. -/
def levels (l : SkipList) : Except Fault (List (List Key)) :=
  l.store.levelsUnder l.store.nodes.size l.top.lower

/-- The keys, each with the height of its tower: on how many levels above the bottom one it is. -/
def towers (l : SkipList) : Except Fault (List (Key × Nat)) := do
  let keys ← l.keys
  let levels ← l.levels
  return keys.map fun k => (k, levels.countP (k ∈ ·) - 1)

end SkipList

/-! ## 2. The towers of a layout -/

/-- What holds of some of the first numbers and passes on to smaller ones holds of those below their
count. -/
theorem lt_countP_range_iff {p : Nat → Bool} {m : Nat}
    (down : ∀ {m n}, m ≤ n → p n = true → p m = true) (n : Nat) :
    m < (List.range n).countP p ↔ m < n ∧ p m = true := by
  induction n with
  | zero => simp
  | succ n ih =>
    rw [List.range_succ, List.countP_append, List.countP_singleton]
    cases last : p n with
    | true =>
      have all : (List.range n).countP p = n := by
        rw [List.countP_eq_length.mpr fun i hi => down (List.mem_range.mp hi).le last,
          List.length_range]
      rw [all, if_pos rfl]
      exact ⟨fun lt => ⟨lt, down (Nat.le_of_lt_succ lt) last⟩, And.left⟩
    | false =>
      rw [if_neg (by simp), Nat.add_zero, ih]
      refine and_congr_left fun pass => ⟨Nat.lt_succ_of_lt, fun lt => ?_⟩
      refine lt_of_le_of_ne (Nat.le_of_lt_succ lt) ?_
      rintro rfl
      rw [last] at pass
      cases pass

namespace Layout

/-- The same keys on each level. -/
def SameTowers (y y' : Layout) : Prop := ∀ m k, .key k ∈ y.row m ↔ .key k ∈ y'.row m

/-- The keys, each with the height of its tower, of a layout with so many levels. -/
def towers (y : Layout) (height : Nat) : List (Key × Nat) :=
  y.keys.map fun k => (k, ((List.range height).map y.keysOn).countP (k ∈ ·) - 1)

variable {y y' : Layout} {s : Store} {l : SkipList}
  {height height' level limit m t : Nat} {k : Key}

theorem Describes.levelsUnder (hs : y.Describes s) (hy : y.Shaped height) (below : level < height)
    (enough : level ≤ limit) : s.levelsUnder limit (y.slot level .lower) =
      .ok ((List.range (level + 1)).map y.keysOn) := by
  induction limit generalizing level with
  | zero =>
    obtain rfl : level = 0 := Nat.le_zero.mp enough
    rw [Store.levelsUnder, hs.get (hy.lower below), ok_bind, hs.keysOn hy below]
    rfl
  | succ limit ih =>
    rw [Store.levelsUnder, hs.get (hy.lower below), ok_bind, hs.keysOn hy below, ok_bind]
    cases level with
    | zero => rfl
    | succ level =>
      have hm : Bound.lower ∈ y.row level := hy.lower (by omega)
      have down : (y.node (level + 1) .lower).down = y.slot level .lower := rfl
      rw [down, if_neg (hs.slot_ne_nil hm)]
      show (s.levelsUnder limit (y.slot level .lower) >>= _) = _
      rw [ih (by omega) (by omega), ok_bind, List.range_succ (n := level + 1), List.map_append]
      rfl

theorem Carries.towers (hl : y.Carries l) : l.towers = .ok (y.towers l.height) := by
  obtain ⟨top, hh⟩ := Nat.exists_eq_add_one.mpr hl.shaped.positive
  have levels : l.levels = .ok ((List.range l.height).map y.keysOn) := by
    rw [SkipList.levels, hl.lower, hl.describes.levelsUnder hl.shaped (by omega)
      ((Nat.sub_le _ _).trans (hl.describes.height_le hl.shaped)), hh]
    rfl
  rw [SkipList.towers, hl.keys, ok_bind, levels]
  rfl

/-- **What a tower is**: a key has a tower of some height exactly when it is on the levels up to
that one. -/
theorem Shaped.mem_towers (hy : y.Shaped height) :
    (k, t) ∈ y.towers height ↔ ∀ m, .key k ∈ y.row m ↔ m ≤ t := by
  have count : ∀ k m, m < ((List.range height).map y.keysOn).countP (k ∈ ·) ↔
      .key k ∈ y.row m := by
    intro k m
    rw [List.countP_map, lt_countP_range_iff fun le pass => ?_]
    · simp only [Function.comp_apply, decide_eq_true_eq, mem_keysOn]
      exact and_iff_right_of_imp hy.lt_height
    · simp only [Function.comp_apply, decide_eq_true_eq, mem_keysOn] at pass ⊢
      exact hy.nested_le pass le
  simp only [towers, List.mem_map, Prod.mk.injEq, mem_keys]
  constructor
  · intro h
    obtain ⟨k, hk, rfl, rfl⟩ := h
    intro m
    have := (count k 0).mpr hk
    rw [← count k m]
    omega
  · intro h
    refine ⟨k, (h 0).mpr (Nat.zero_le t), rfl, ?_⟩
    have := (count k t).mpr ((h t).mpr le_rfl)
    have := mt (count k (t + 1)).mp fun mem => by have := (h (t + 1)).mp mem; omega
    omega

theorem exists_mem_towers (hk : .key k ∈ y.row 0) (height : Nat) : ∃ t, (k, t) ∈ y.towers height :=
  ⟨_, List.mem_map_of_mem (mem_keys.mpr hk)⟩

/-- The same pairs of keys and heights are the same keys on each level. -/
theorem Shaped.sameTowers (hy : y.Shaped height) (hy' : y'.Shaped height')
    (same : ∀ tower, tower ∈ y.towers height ↔ tower ∈ y'.towers height') : y.SameTowers y' := by
  have imp : ∀ {y y' : Layout} {height height' : Nat}, y.Shaped height → y'.Shaped height' →
      (∀ tower, tower ∈ y.towers height → tower ∈ y'.towers height') →
      ∀ m k, .key k ∈ y.row m → .key k ∈ y'.row m := by
    intro y y' height height' hy hy' sub m k hk
    obtain ⟨t, tower⟩ := exists_mem_towers (hy.nested_le hk (Nat.zero_le m)) height
    exact ((hy'.mem_towers.mp (sub _ tower)) m).mpr ((hy.mem_towers.mp tower m).mp hk)
  exact fun m k => ⟨imp hy hy' (fun tower => (same tower).mp) m k,
    imp hy' hy (fun tower => (same tower).mpr) m k⟩

end Layout

end AuthenticatedSet
