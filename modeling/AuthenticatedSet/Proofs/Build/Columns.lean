import AuthenticatedSet.Proofs.Layout.Refresh
import AuthenticatedSet.SkipList.Build

/-!
# Building, part 1: keys and columns

The keys of a list that is built at once, and the columns that they become: what a level has of them
and what is left for the levels above.

* `mem_ascending`, `ascending_sorted` -- the keys, each once and in order
* `Column.row`     -- the row of a level with given columns
* `Column.Reaches` -- how far up a key goes in given columns
* `Column.stand`   -- the columns on their nodes of a level
* `Column.nodes`   -- how many nodes columns need, and `Column.nodes_eq` level by level
-/

namespace AuthenticatedSet

/-! ## 1. The keys in order -/

section Keys

variable {k k' : Key} {keys : List Key}

theorem mem_insertAscending : k ∈ insertAscending k' keys ↔ k = k' ∨ k ∈ keys := by
  induction keys with
  | nil => simp [insertAscending]
  | cons first rest ih =>
    simp only [insertAscending]
    split
    · simp
    · split
      · rename_i same
        subst same
        simp
      · simp only [List.mem_cons, ih, or_left_comm]

theorem insertAscending_sorted (sorted : keys.Pairwise (· < ·)) :
    (insertAscending k keys).Pairwise (· < ·) := by
  induction keys with
  | nil => simp [insertAscending]
  | cons first rest ih =>
    obtain ⟨least, tail⟩ := List.pairwise_cons.mp sorted
    simp only [insertAscending]
    split
    · rename_i lt
      refine List.pairwise_cons.mpr ⟨fun k' hk' => ?_, sorted⟩
      rcases List.mem_cons.mp hk' with rfl | hk'
      · exact lt
      · exact Int64.lt_trans lt (least k' hk')
    · rename_i not_lt
      split
      · exact sorted
      · rename_i ne
        refine List.pairwise_cons.mpr ⟨fun k' hk' => ?_, ih tail⟩
        rcases mem_insertAscending.mp hk' with rfl | hk'
        · exact Int64.lt_of_le_of_ne (Int64.not_lt.mp not_lt) (Ne.symm ne)
        · exact least k' hk'

theorem mem_ascending : k ∈ ascending keys ↔ k ∈ keys := by
  induction keys with
  | nil => simp [ascending]
  | cons first rest ih => rw [ascending, mem_insertAscending, ih, List.mem_cons]

theorem ascending_sorted (keys : List Key) : (ascending keys).Pairwise (· < ·) := by
  induction keys with
  | nil => exact List.Pairwise.nil
  | cons first rest ih => exact insertAscending_sorted ih

/-- Only one ascending list has these keys and no others. -/
theorem ascending_eq {distinct : List Key} (sorted : distinct.Pairwise (· < ·))
    (same : ∀ k, k ∈ distinct ↔ k ∈ keys) : ascending keys = distinct :=
  (ascending_sorted keys).eq_of_mem_iff sorted fun {k} => mem_ascending.trans (same k).symm

end Keys

/-! ## 2. Columns -/

/-- The ends of a level of a layout. -/
def Layout.ends (y : Layout) (level : Nat) : Ends := ⟨y.slot level .lower, y.slot level .upper⟩

namespace Column

/-- The bounds that a level has for these columns. -/
def bounds (columns : List Column) : List Bound := columns.map fun column => .key column.key

/-- The row of a level with these columns. -/
def row (columns : List Column) : List Bound := .lower :: (bounds columns ++ [.upper])

/-- The key goes up so many levels, or more, in one of these columns. -/
def Reaches (columns : List Column) (k : Key) (levels : Nat) : Prop :=
  ∃ column ∈ columns, column.key = k ∧ levels ≤ column.levels

/-- Their bounds, each with its mark. -/
def marks (columns : List Column) : List (Bound × Bool) :=
  columns.map fun column => (.key column.key, decide (0 < column.levels))

/-- The columns standing on their nodes of a level of a layout. -/
def stand (columns : List Column) (y : Layout) (level : Nat) : List Column :=
  columns.map fun column => { column with below := y.slot level (.key column.key) }

/-- How many nodes towers have that go so many levels above their first one. -/
def towerNodes : List Nat → Nat
  | [] => 0
  | levels :: rest => levels + 1 + towerNodes rest

/-- How many nodes these columns need from their level on. -/
def nodes (columns : List Column) : Nat := towerNodes (columns.map levels)

variable {columns : List Column} {b : Bound} {k : Key} {n : Nat}

theorem mem_bounds : b ∈ bounds columns ↔ ∃ column ∈ columns, b = .key column.key := by
  simp only [bounds, List.mem_map, eq_comm]

theorem reaches_cons {column : Column} : Reaches (column :: columns) k n ↔
    (column.key = k ∧ n ≤ column.levels) ∨ Reaches columns k n := by
  simp [Reaches]

/-- On their first level are all of them. -/
theorem key_mem_row : .key k ∈ row columns ↔ Reaches columns k 0 := by
  simp [row, mem_bounds, Reaches, eq_comm]

theorem mem_survivors {column : Column} :
    column ∈ survivors columns ↔
      { column with levels := column.levels + 1 } ∈ columns := by
  simp only [survivors, List.mem_filterMap]
  constructor
  · intro h
    obtain ⟨⟨key, levels, below⟩, mem, same⟩ := h
    cases levels with
    | zero => cases same
    | succ levels =>
      cases same
      exact mem
  · intro mem
    exact ⟨_, mem, rfl⟩

/-- The columns of a level are a node each, and what goes on from there. -/
theorem nodes_eq (columns : List Column) :
    nodes columns = columns.length + nodes (survivors columns) := by
  induction columns with
  | nil => rfl
  | cons column rest ih =>
    obtain ⟨key, levels, below⟩ := column
    simp only [nodes, survivors, List.map_cons, towerNodes, List.length_cons] at ih ⊢
    cases levels with
    | zero =>
      simp only [List.filterMap_cons]
      omega
    | succ levels =>
      simp only [List.filterMap_cons, List.map_cons, towerNodes]
      omega

theorem bounds_stand (columns : List Column) (y : Layout) (level : Nat) :
    bounds (stand columns y level) = bounds columns := by
  simp [bounds, stand]

theorem survivors_stand (columns : List Column) (y : Layout) (level : Nat) :
    survivors (stand columns y level) = stand (survivors columns) y level := by
  simp only [survivors, stand, List.filterMap_map, List.map_filterMap]
  refine List.filterMap_congr fun column _ => ?_
  obtain ⟨key, levels, below⟩ := column
  cases levels <;> rfl

theorem bounds_survivors_stand (columns : List Column) (y : Layout) (level : Nat) :
    bounds (survivors (stand columns y level)) = bounds (survivors columns) := by
  rw [survivors_stand, bounds_stand]

/-- Among those that go on a key has one level less to go. -/
theorem reaches_survivors_stand {y : Layout} {level : Nat} :
    Reaches (survivors (stand columns y level)) k n ↔ Reaches columns k (n + 1) := by
  rw [survivors_stand]
  constructor
  · intro h
    obtain ⟨column, hc, rfl, le⟩ := h
    obtain ⟨survivor, hs, rfl⟩ := List.mem_map.mp hc
    exact ⟨_, mem_survivors.mp hs, rfl, Nat.succ_le_succ le⟩
  · intro h
    obtain ⟨⟨key, levels, below⟩, hc, rfl, le⟩ := h
    obtain ⟨levels, rfl⟩ := Nat.exists_eq_add_one.mpr (Nat.zero_lt_of_lt le)
    have goesOn : ⟨key, levels, below⟩ ∈ survivors columns := mem_survivors.mpr hc
    exact ⟨_, List.mem_map_of_mem goesOn, rfl, Nat.le_of_succ_le_succ le⟩

theorem nodes_survivors_stand (columns : List Column) (y : Layout) (level : Nat) :
    nodes (survivors (stand columns y level)) = nodes (survivors columns) := by
  rw [survivors_stand, nodes, stand, List.map_map]
  rfl

theorem levels_survivors (columns : List Column) :
    (survivors columns).map levels =
      (columns.map levels).filterMap fun levels =>
        if levels = 0 then none else some (levels - 1) := by
  rw [List.filterMap_map, survivors, List.map_filterMap]
  refine List.filterMap_congr fun column _ => ?_
  obtain ⟨key, levels, below⟩ := column
  cases levels <;> rfl

theorem survivors_sorted (sorted : (bounds columns).Pairwise (· < ·)) :
    (bounds (survivors columns)).Pairwise (· < ·) := by
  unfold bounds survivors at *
  rw [List.pairwise_map] at *
  refine sorted.filterMap _ fun c c' lt d hd d' hd' => ?_
  obtain ⟨key, levels, below⟩ := c
  obtain ⟨key', levels', below'⟩ := c'
  cases levels <;> cases hd
  cases levels' <;> cases hd'
  exact lt

end Column

end AuthenticatedSet
