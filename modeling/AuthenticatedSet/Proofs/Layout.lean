import AuthenticatedSet.Proofs.Order
import AuthenticatedSet.Proofs.Store

/-!
# Layouts: what stands where in a list

A *layout* says which bounds each level has and, for each bound on each level, the slot of its node
and the two things about the node that do not follow from that. A list *has* a layout when every
node of its store is the one that the layout gives and the slots in use are those of the layout.
All later files change layouts and leave stores alone.

* `Layout`          -- the rows, from the bottom up, with slot, mark and digest of each bound
* `Layout.node`     -- the node that belongs to a bound of a level
* `Layout.Describes` -- a store holds these nodes in these slots, and no others
* `Layout.Shaped`   -- the rows are those of a list with so many levels
* `Layout.Carries`  -- store, ends and height of a list are as the layout says
* `Layout.Of`       -- the count of keys too
* `Layout.Current`  -- every digest follows from its neighbours

A row that is empty is a level that does not exist. So the bounds on the level above the top level
need no case of their own: there are none.
-/

namespace AuthenticatedSet

/-! ## 1. Layouts and their nodes -/

/-- What stands where. -/
structure Layout where
  /-- The bounds on each level, ascending. -/
  row : Nat → List Bound
  /-- The slot of a bound of a level. -/
  slot : Nat → Bound → Slot
  /-- Its mark as a bound that the level above has too. -/
  raised : Nat → Bound → Bool
  /-- Its digest. -/
  digest : Nat → Bound → Digest

/-- A place in a layout: a level, and a bound on it. -/
abbrev Site := Nat × Bound

namespace Layout

variable (y : Layout)

/-- The next bound on the level. -/
def next (level : Nat) (b : Bound) : Bound := nextIn (y.row level) b

/-- The slot that the right link of a bound leads to. -/
def right (level : Nat) (b : Bound) : Slot :=
  if b = .upper then .nil else y.slot level (y.next level b)

/-- The slot that the down link of a bound leads to. -/
def down : Nat → Bound → Slot
  | 0, _ => .nil
  | level + 1, b => y.slot level b

/-- The node of a bound of a level. -/
def node (level : Nat) (b : Bound) : Node :=
  ⟨b, y.right level b, y.down level b, y.raised level b, y.digest level b⟩

/-- The digest right below a bound of a level. -/
def below : Nat → Bound → Option Digest
  | 0, _ => none
  | level + 1, b => some (y.digest level b)

/-- The digest that follows for a bound of a level from those beside and below it. -/
def commit (h : Hasher) (level : Nat) (b : Bound) : Digest :=
  h.commit b (y.below level b) (y.node level (y.next level b)).share

/-- The slots of these places. -/
def slots (sites : List Site) : List Slot := sites.map fun site => y.slot site.1 site.2

/-! ## 2. What a layout says about a store and about a list -/

/-- The store holds the nodes of the layout in its slots, and no others. -/
structure Describes (s : Store) : Prop where
  sound : s.Sound
  inUse : ∀ i, s.InUse i ↔ ∃ level b, b ∈ y.row level ∧ y.slot level b = i
  get : ∀ {level b}, b ∈ y.row level → s.get (y.slot level b) = .ok (y.node level b)
  apart : ∀ {level level' b}, b ∈ y.row level → b ∈ y.row level' →
    y.slot level b = y.slot level' b → level = level'

/-- The rows are those of a list of this height: a strictly ascending row with both ends for each
level, a bound of a level is on all levels below, and the marks say which bounds go on. -/
structure Shaped (height : Nat) : Prop where
  positive : 0 < height
  sorted : ∀ level, (y.row level).Pairwise (· < ·)
  lower : ∀ {level}, level < height → .lower ∈ y.row level
  upper : ∀ {level}, level < height → .upper ∈ y.row level
  beyond : ∀ {level}, height ≤ level → y.row level = []
  nested : ∀ {level b}, b ∈ y.row (level + 1) → b ∈ y.row level
  marked : ∀ {level b}, b ∈ y.row level → (y.raised level b = true ↔ b ∈ y.row (level + 1))

/-- Store, ends and height of the list are as the layout says. -/
structure Carries (l : SkipList) : Prop where
  describes : y.Describes l.store
  shaped : y.Shaped l.height
  lower : l.top.lower = y.slot (l.height - 1) .lower
  upper : l.top.upper = y.slot (l.height - 1) .upper

/-- The list is as the layout says, and it counts the keys of the bottom level. -/
structure Of (l : SkipList) : Prop extends y.Carries l where
  size : (y.row 0).length = l.size + 2

/-- Every digest is the one that follows from those beside and below it. -/
def Current (h : Hasher) : Prop :=
  ∀ level b, b ∈ y.row level → b ≠ .upper → y.digest level b = y.commit h level b

variable {y} {s : Store} {height level level' : Nat} {b c : Bound} {h : Hasher}

/-! ## 3. Reading a store through its layout -/

theorem right_of_ne (hb : b ≠ .upper) : y.right level b = y.slot level (y.next level b) :=
  if_neg hb

theorem right_upper : y.right level .upper = .nil := if_pos rfl

namespace Describes

/-- Different places have different slots. -/
theorem slot_inj (hs : y.Describes s) (hb : b ∈ y.row level) (hc : c ∈ y.row level')
    (same : y.slot level b = y.slot level' c) : level = level' ∧ b = c := by
  have node : y.node level b = y.node level' c := by
    have := hs.get hb
    rw [same, hs.get hc] at this
    exact (Except.ok.inj this).symm
  have bound : b = c := congrArg Node.bound node
  subst bound
  exact ⟨hs.apart hb hc same, rfl⟩

theorem slot_ne_nil (hs : y.Describes s) (hb : b ∈ y.row level) : y.slot level b ≠ .nil :=
  hs.sound.fits.ne_nil (hs.get hb)

theorem slot_inUse (hs : y.Describes s) (hb : b ∈ y.row level) : s.InUse (y.slot level b) :=
  (hs.inUse _).mpr ⟨level, b, hb, rfl⟩

theorem nodup_slots (hs : y.Describes s) {sites : List Site} (nodup : sites.Nodup)
    (mem : ∀ site ∈ sites, site.2 ∈ y.row site.1) : (y.slots sites).Nodup := by
  refine nodup.map_on fun site hsite site' hsite' same => ?_
  obtain ⟨level, bound⟩ := hs.slot_inj (mem site hsite) (mem site' hsite') same
  exact Prod.ext level bound

/-- There are no more places than the store has slots. -/
theorem length_le (hs : y.Describes s) {sites : List Site} (nodup : sites.Nodup)
    (mem : ∀ site ∈ sites, site.2 ∈ y.row site.1) : sites.length ≤ s.nodes.size := by
  have slots := hs.nodup_slots nodup mem
  have exist : ∀ i ∈ y.slots sites, i.index.toNat < s.nodes.size := by
    intro i hi
    obtain ⟨site, hsite, rfl⟩ := List.mem_map.mp hi
    exact (hs.slot_inUse (mem site hsite)).1
  simpa [Layout.slots] using Store.length_le slots exist

/-- A level has no more bounds than the store has slots. -/
theorem length_row_le (hs : y.Describes s) (sorted : (y.row level).Pairwise (· < ·)) :
    (y.row level).length ≤ s.nodes.size := by
  have nodup : ((y.row level).map fun b => ((level, b) : Site)).Nodup :=
    List.Nodup.map (fun _ _ same => (Prod.mk.inj same).2) (sorted.imp fun lt => lt.ne)
  have mem : ∀ site ∈ (y.row level).map fun b => ((level, b) : Site), site.2 ∈ y.row site.1 := by
    intro site hs
    obtain ⟨b, hb, rfl⟩ := List.mem_map.mp hs
    exact hb
  simpa using hs.length_le nodup mem

end Describes

namespace Shaped

theorem lt_height (hy : y.Shaped height) (hb : b ∈ y.row level) : level < height := by
  by_contra h
  rw [hy.beyond (not_lt.mp h)] at hb
  cases hb

theorem lower_mem_iff (hy : y.Shaped height) : .lower ∈ y.row level ↔ level < height :=
  ⟨hy.lt_height, hy.lower⟩

theorem upper_mem_iff (hy : y.Shaped height) : .upper ∈ y.row level ↔ level < height :=
  ⟨hy.lt_height, hy.upper⟩

theorem upper_mem (hy : y.Shaped height) (hb : b ∈ y.row level) : .upper ∈ y.row level :=
  hy.upper (hy.lt_height hb)

theorem lower_mem (hy : y.Shaped height) (hb : b ∈ y.row level) : .lower ∈ y.row level :=
  hy.lower (hy.lt_height hb)

theorem next_mem (hy : y.Shaped height) (hb : b ∈ y.row level) :
    y.next level b ∈ y.row level := nextIn_mem (hy.upper_mem hb) b

theorem lt_next (hb : b ≠ .upper) : b < y.next level b := lt_nextIn hb

theorem next_le (hy : y.Shaped height) (hc : c ∈ y.row level) (lt : b < c) :
    y.next level b ≤ c := nextIn_le (hy.sorted level) hc lt

/-- A bound of a level is on every level below it. -/
theorem nested_le (hy : y.Shaped height) (hb : b ∈ y.row level) (le : level' ≤ level) :
    b ∈ y.row level' := by
  induction le with
  | refl => exact hb
  | step _ ih => exact ih (hy.nested hb)

theorem isCovered_iff (hy : y.Shaped height) (hb : b ∈ y.row level) :
    (y.node level b).isCovered = true ↔ b ∈ y.row (level + 1) ∨ b = .upper := by
  rw [Node.isCovered, Bool.or_eq_true, decide_eq_true_eq]
  exact or_congr_left (hy.marked hb)

end Shaped

/-- The right link of a bound leads to the node of the next one. -/
theorem Describes.get_right (hs : y.Describes s) (ne : b ≠ .upper)
    (next : y.next level b ∈ y.row level) :
    s.get (y.node level b).right = .ok (y.node level (y.next level b)) := by
  show s.get (y.right level b) = _
  rw [right_of_ne ne]
  exact hs.get next

/-- The digest computed in a store is the one that follows in its layout. -/
theorem Describes.digestAt (hs : y.Describes s) (hb : b ∈ y.row level) (ne : b ≠ .upper)
    (next : y.next level b ∈ y.row level) (under : ∀ {m}, level = m + 1 → b ∈ y.row m)
    (h : Hasher) : s.digestAt h (y.slot level b) = .ok (y.commit h level b) := by
  have below : s.digestBelow (y.node level b) = .ok (y.below level b) := by
    unfold Store.digestBelow
    cases level with
    | zero => exact if_pos rfl
    | succ m =>
      have hm := under rfl
      have down : (y.node (m + 1) b).down = y.slot m b := rfl
      rw [down, if_neg (hs.slot_ne_nil hm), hs.get hm]
      rfl
  unfold Store.digestAt
  rw [hs.get hb, ok_bind, hs.get_right ne next, ok_bind, below]
  rfl

end Layout

end AuthenticatedSet
