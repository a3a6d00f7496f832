import AuthenticatedSet.Proofs.Build.Laid

/-!
# Building, part 3: levels and lists

A list of given keys is laid level by level from the bottom up, each level from right to left. What
has been laid is a layout at every moment, with digests that are current.

* `Layout.Rising`     -- complete levels with columns standing ready for the next
* `Rising.layLevel`   -- a level laid, and `Rising.next` what stands ready after it
* `Rising.layLevels`  -- all levels
* `exists_ofKeys`     -- the whole list: it goes through if there is room for all towers
* `takes_ofKeys`      -- what all towers take, so that a list that has been built had that room
-/

namespace AuthenticatedSet.Layout

variable {y y' : Layout} {s s' : Store} {h : Hasher} {level m : Nat} {c : Bound} {r : Bool}
  {i : Slot} {columns : List Column}

/-! ## 1. All levels -/

/-- The levels below this one are complete, this one and those above are empty, and the columns
stand ready for it. -/
structure Rising (y : Layout) (h : Hasher) (s : Store) (level : Nat) (below : Ends)
    (columns : List Column) : Prop where
  growing : y.Growing h s level
  beyond : ∀ {m}, level ≤ m → y.row m = []
  ends : ∀ {m c}, m < level → c = .lower ∨ c = .upper → c ∈ y.row m
  marked : ∀ {m c}, c ∈ y.row m →
    (y.raised m c = true ↔ c ∈ y.row (m + 1) ∨ (m + 1 = level ∧ c ∈ Column.row columns))
  ascending : (Column.bounds columns).Pairwise (· < ·)
  under : ∀ c ∈ Column.row columns, ∀ {m}, level = m + 1 → c ∈ y.row m
  below : below = ⟨y.down level .lower, y.down level .upper⟩
  stands : ∀ column ∈ columns, column.below = y.down level (.key column.key)

/-- The marks of a whole level. -/
def levelMarks (columns : List Column) (goesOn : Bool) : List (Bound × Bool) :=
  (.lower, goesOn) :: (Column.marks columns ++ [(.upper, goesOn)])

theorem map_fst_levelMarks (columns : List Column) (goesOn : Bool) :
    (levelMarks columns goesOn).map Prod.fst = Column.row columns := by
  simp [levelMarks, Column.marks, Column.row, Column.bounds]

namespace Rising

variable {below : Ends} {goesOn : Bool}

theorem row_level (hr : y.Rising h s level below columns)
    (laid : y.Laid y' level (levelMarks columns goesOn)) :
    y'.row level = Column.row columns := by
  rw [laid.row, hr.beyond le_rfl, List.append_nil, map_fst_levelMarks]

/-- Above the new level there is nothing yet. -/
theorem beyond_laid (hr : y.Rising h s level below columns)
    (laid : y.Laid y' level (levelMarks columns goesOn)) (le : level + 1 ≤ m) : y'.row m = [] := by
  rw [laid.others (by omega), hr.beyond (by omega)]

/-- The levels up to the new one have their ends. -/
theorem ends_laid (hr : y.Rising h s level below columns)
    (laid : y.Laid y' level (levelMarks columns goesOn)) (lt : m < level + 1)
    (hc : c = .lower ∨ c = .upper) : c ∈ y'.row m := by
  rcases Nat.lt_succ_iff_lt_or_eq.mp lt with lt | rfl
  · exact laid.mem_of_mem (hr.ends lt hc)
  · rw [hr.row_level laid]
    rcases hc with rfl | rfl <;> simp [Column.row]

/-- **A level laid.** -/
theorem layLevel (hr : y.Rising h s level below columns) (room : s.HasRoom (columns.length + 2))
    (goesOn : Bool) :
    ∃ s' y', s.layLevel h below goesOn columns =
        .ok (y'.ends level, Column.stand columns y' level, s') ∧ y'.Growing h s' level ∧
      y.Laid y' level (levelMarks columns goesOn) := by
  have empty := hr.beyond le_rfl
  have fitting : y.Fitting level .upper :=
    ⟨fun c hc => absurd (empty ▸ hc) List.not_mem_nil, absurd rfl, hr.under _ (by simp [Column.row])⟩
  obtain ⟨upper, s1, y1, ok1, hg1, laid1, slot1⟩ := hr.growing.addUpper fitting
    (room.mono (by omega)) goesOn
  have ends1 : y1.row level = [.upper] := by
    rw [laid1.row, empty]
    rfl
  have key_mem : ∀ column ∈ columns, Bound.key column.key ∈ Column.row columns :=
    fun column hc => by
      simp only [Column.row, List.mem_cons, List.mem_append]
      exact .inr (.inl (Column.mem_bounds.mpr ⟨column, hc, rfl⟩))
  have room1 := (Store.takes_add ok1).hasRoom (m := columns.length + 1) (room.mono (by omega))
  obtain ⟨first, s2, y2, ok2, hg2, laid2, first2⟩ := hg1.layColumns ends1 hr.ascending
    (fun column hc _ same => laid1.mem_of_mem (hr.under _ (key_mem column hc) same))
    (fun column hc => (hr.stands column hc).trans
      (laid1.down (hr.under _ (key_mem column hc))).symm)
    (room1.mono (by omega))
  have row2 := laid2.row_columns ends1
  have first : ∀ c ∈ y2.row level, .lower < c := fun c hc => by
    rw [row2, List.mem_append, List.mem_singleton] at hc
    rcases hc with hc | rfl
    · obtain ⟨column, -, rfl⟩ := Column.mem_bounds.mp hc
      exact Bound.lower_lt_key _
    · exact Bound.lower_lt_upper
  have under2 : ∀ {m}, level = m + 1 → Bound.lower ∈ y2.row m := fun same =>
    laid2.mem_of_mem (laid1.mem_of_mem (hr.under _ (by simp [Column.row]) same))
  obtain ⟨lower, s', y', ok', hg', laid', slot'⟩ := hg2.lay (b := .lower)
    ⟨first, fun _ => row2 ▸ by simp, under2⟩ (by decide)
    ((takes_layColumns ok2).hasRoom room1) goesOn
  have down : y2.down level .lower = below.lower := by
    rw [laid2.down fun same => laid1.mem_of_mem (hr.under _ (by simp [Column.row]) same),
      laid1.down (hr.under _ (by simp [Column.row])), hr.below]
  have upper' : y'.slot level .upper = upper := by
    rw [laid'.slot (row2 ▸ by simp), laid2.slot (ends1 ▸ by simp), slot1]
  have stand : Column.stand columns y2 level = Column.stand columns y' level := by
    refine laid'.stand_eq fun column hc => row2 ▸ ?_
    exact List.mem_append_left _ (Column.mem_bounds.mpr ⟨column, hc, rfl⟩)
  refine ⟨s', y', ?_, hg', ?_⟩
  · have down' : y.down level .upper = below.upper := by rw [hr.below]
    rw [down'] at ok1
    rw [first2 _ first, down] at ok'
    rw [slot1] at ok2
    rw [Store.layLevel, ok1, ok_bind]
    show (s1.layColumns h upper columns >>= _) = _
    rw [ok2, ok_bind]
    show (s2.lay h _ >>= _) = _
    rw [ok', ok_bind, stand, Layout.ends, upper', slot']
    rfl
  · exact (laid1.trans laid2).trans laid'

/-- Away from the new level, the marks say what is above as before. -/
theorem marked_other (hr : y.Rising h s level below columns)
    (laid : y.Laid y' level (levelMarks columns goesOn)) (hc : c ∈ y'.row m) (other : m ≠ level) :
    y'.raised m c = true ↔ c ∈ y'.row (m + 1) := by
  have old : c ∈ y.row m := laid.others other ▸ hc
  rw [laid.raised old, hr.marked old]
  by_cases top : m + 1 = level
  · subst top
    rw [hr.row_level laid, hr.beyond le_rfl]
    simp
  · rw [laid.others top]
    simp [top]

/-- On the new level an end is marked if a level follows, a key if its column goes on. -/
theorem marked_level (hr : y.Rising h s level below columns)
    (laid : y.Laid y' level (levelMarks columns goesOn)) (hc : c ∈ y'.row level) :
    y'.raised level c = true ↔
      (goesOn = true ∧ (c = .lower ∨ c = .upper)) ∨ c ∈ Column.bounds (Column.survivors columns) := by
  rw [hr.row_level laid] at hc
  have mark : ∀ column ∈ columns,
      y'.raised level (.key column.key) = decide (0 < column.levels) := fun column hc =>
    laid.marks (List.mem_cons_of_mem _ (List.mem_append_left _ (List.mem_map_of_mem hc)))
  simp only [Column.row, List.mem_cons, List.mem_append, List.not_mem_nil, or_false] at hc
  rcases hc with rfl | hc | rfl
  · rw [laid.marks (r := goesOn) List.mem_cons_self]
    simp [Column.mem_bounds]
  · obtain ⟨column, hcol, rfl⟩ := Column.mem_bounds.mp hc
    simp only [reduceCtorEq, or_self, and_false, false_or, Column.mem_bounds]
    constructor
    · intro marked
      rw [mark column hcol, decide_eq_true_eq] at marked
      refine ⟨{ column with levels := column.levels - 1 }, Column.mem_survivors.mpr ?_, rfl⟩
      have : column.levels - 1 + 1 = column.levels := by omega
      simp only [this]
      exact hcol
    · intro h
      obtain ⟨survivor, hs, same⟩ := h
      rw [same, mark _ (Column.mem_survivors.mp hs)]
      exact decide_eq_true (Nat.succ_pos _)
  · rw [laid.marks (r := goesOn) (by simp [levelMarks])]
    simp [Column.mem_bounds]

/-- **After a level that is to be followed** the columns that go on stand ready for the next. -/
theorem next (hr : y.Rising h s level below columns) (hg : y'.Growing h s' level)
    (laid : y.Laid y' level (levelMarks columns true)) :
    y'.Rising h s' (level + 1) (y'.ends level)
      (Column.survivors (Column.stand columns y' level)) := by
  have row := hr.row_level laid
  have survivors : Column.bounds (Column.survivors (Column.stand columns y' level)) =
      Column.bounds (Column.survivors columns) := Column.bounds_survivors_stand columns y' level
  have sub : ∀ c ∈ Column.bounds (Column.survivors columns), c ∈ Column.bounds columns := by
    intro c hc
    obtain ⟨column, hs, rfl⟩ := Column.mem_bounds.mp hc
    exact Column.mem_bounds.mpr ⟨_, Column.mem_survivors.mp hs, rfl⟩
  refine ⟨⟨⟨hg.sorted, hg.upper, hg.nested, fun c hc => ?_⟩, hg.describes, hg.current⟩,
    hr.beyond_laid laid, hr.ends_laid laid, fun {m c} hc => ?_, ?_, fun c hc m same => ?_, rfl,
    fun column hc => ?_⟩
  · rw [hr.beyond_laid laid (Nat.le_succ _)] at hc
    cases hc
  · by_cases same : m = level
    · subst same
      rw [hr.marked_level laid hc, hr.beyond_laid laid le_rfl]
      simp only [List.not_mem_nil, true_and, false_or, Column.row, survivors, List.mem_cons,
        List.mem_append, or_false]
      tauto
    · rw [hr.marked_other laid hc same, or_iff_left (fun h => same (by omega))]
  · rw [survivors]
    exact Column.survivors_sorted hr.ascending
  · obtain rfl : level = m := by omega
    rw [row]
    simp only [Column.row, survivors, List.mem_cons, List.mem_append] at hc ⊢
    exact hc.imp_right (Or.imp_left (sub c))
  · obtain ⟨old, -, same⟩ := List.mem_map.mp (Column.mem_survivors.mp hc)
    obtain ⟨key, levels, below⟩ := column
    obtain ⟨rfl, -, rfl⟩ := Column.mk.inj same
    rfl

/-- After the last level the layout has the shape of a list. -/
theorem shaped (hr : y.Rising h s level below columns) (hg : y'.Growing h s' level)
    (laid : y.Laid y' level (levelMarks columns false))
    (last : ∀ column ∈ columns, column.levels = 0) : y'.Shaped (level + 1) := by
  refine ⟨Nat.succ_pos _, hg.sorted, fun lt => hr.ends_laid laid lt (.inl rfl),
    fun lt => hr.ends_laid laid lt (.inr rfl), hr.beyond_laid laid, hg.nested, fun {m c} hc => ?_⟩
  by_cases same : m = level
  · subst same
    rw [hr.marked_level laid hc, hr.beyond_laid laid le_rfl]
    simp only [Bool.false_eq_true, false_and, false_or, List.not_mem_nil, iff_false]
    intro hc
    obtain ⟨column, hs, -⟩ := Column.mem_bounds.mp hc
    exact Nat.succ_ne_zero _ (last _ (Column.mem_survivors.mp hs))
  · exact hr.marked_other laid hc same

end Rising

theorem takes_layLevel {below ends : Ends} {goesOn : Bool} {laid : List Column}
    (ok : s.layLevel h below goesOn columns = .ok (ends, laid, s')) :
    s.Takes s' (columns.length + 2) := by
  obtain ⟨⟨upper, s1⟩, ok1, ok⟩ := bind_eq_ok_iff.mp ok
  obtain ⟨⟨first, laid', s2⟩, ok2, ok⟩ := bind_eq_ok_iff.mp ok
  obtain ⟨⟨lower, s3⟩, ok3, ok⟩ := bind_eq_ok_iff.mp ok
  cases ok
  have := ((Store.takes_add ok1).trans (takes_layColumns ok2)).trans (takes_lay ok3)
  rwa [show 1 + columns.length + 1 = columns.length + 2 by omega] at this

/-- **All levels laid**, of columns that end at the topmost one at the latest. -/
theorem Rising.layLevels {above : Nat} {below : Ends} (hr : y.Rising h s level below columns)
    (bounded : ∀ column ∈ columns, column.levels ≤ above)
    (room : s.HasRoom (Column.nodes columns + 2 * (above + 1))) :
    ∃ (s' : Store) (y' : Layout),
      s.layLevels h above below columns = .ok (y'.ends (level + above), s') ∧
      y'.Describes s' ∧ y'.Current h ∧ y'.Shaped (level + above + 1) ∧
      (∀ {m}, m < level → y'.row m = y.row m) ∧ y'.row level = Column.row columns ∧
      ∀ m k, .key k ∈ y'.row (level + m) ↔ Column.Reaches columns k m := by
  induction above generalizing s y level below columns with
  | zero =>
    have last : ∀ column ∈ columns, column.levels = 0 := fun column hc =>
      Nat.le_zero.mp (bounded column hc)
    obtain ⟨s', y', ok, hg, laid⟩ := hr.layLevel
      (room.mono (by rw [Column.nodes_eq]; omega)) false
    have shaped := hr.shaped hg laid last
    have row := hr.row_level laid
    refine ⟨s', y', ?_, hg.describes, hg.current, shaped, fun lt => laid.others lt.ne, row,
      fun m k => ?_⟩
    · rw [Store.layLevels, ok]
      rfl
    · cases m with
      | zero => exact row ▸ Column.key_mem_row
      | succ m =>
        rw [shaped.beyond (by omega)]
        refine iff_of_false List.not_mem_nil fun h => ?_
        obtain ⟨column, hc, -, le⟩ := h
        exact Nat.not_succ_le_zero m (last column hc ▸ le)
  | succ above ih =>
    rw [Column.nodes_eq] at room
    obtain ⟨s1, y1, ok1, hg1, laid1⟩ := hr.layLevel (room.mono (by omega)) true
    have hr1 := hr.next hg1 laid1
    obtain ⟨s', y', ok', describes, current, shaped, rows, -, towers⟩ := ih hr1
      (fun column hc => by
        obtain ⟨old, hold, same⟩ := List.mem_map.mp (Column.mem_survivors.mp hc)
        have := bounded old hold
        have : old.levels = column.levels + 1 := congrArg Column.levels same
        omega)
      ((takes_layLevel ok1).hasRoom (by
        rw [Column.nodes_survivors_stand]
        exact room.mono (by omega)))
    have top : level + 1 + above = level + (above + 1) := by omega
    rw [top] at ok' shaped
    have row : y'.row level = Column.row columns := by
      rw [rows (Nat.lt_succ_self _), hr.row_level laid1]
    refine ⟨s', y', ?_, describes, current, shaped, fun lt => ?_, row, fun m k => ?_⟩
    · rw [Store.layLevels, ok1, ok_bind]
      exact ok'
    · rw [rows (by omega), laid1.others lt.ne]
    · cases m with
      | zero => exact row ▸ Column.key_mem_row
      | succ m =>
        rw [show level + (m + 1) = level + 1 + m by omega, towers, Column.reaches_survivors_stand]

/-! ## 2. The list -/

/-- The layout of nothing. -/
def nothing : Layout := ⟨fun _ => [], fun _ _ => .nil, fun _ _ => false, fun _ _ => .empty⟩

theorem describes_nothing : nothing.Describes ⟨#[], []⟩ where
  sound := ⟨(by decide : 0 < 4294967295), fun _ hi => absurd hi List.not_mem_nil, List.nodup_nil⟩
  inUse i := by simp [Store.InUse, nothing]
  get hb := absurd hb List.not_mem_nil
  apart hb := absurd hb List.not_mem_nil

theorem rising_nothing (h : Hasher) (ascending : (Column.bounds columns).Pairwise (· < ·))
    (stands : ∀ column ∈ columns, column.below = .nil) :
    nothing.Rising h ⟨#[], []⟩ 0 ⟨.nil, .nil⟩ columns where
  growing :=
    { sorted := fun _ => List.Pairwise.nil
      upper := fun hc => absurd hc List.not_mem_nil
      nested := fun hc => absurd hc List.not_mem_nil
      above := fun _ => List.not_mem_nil
      describes := describes_nothing
      current := fun _ _ hb => absurd hb List.not_mem_nil }
  beyond _ := rfl
  ends lt := absurd lt (Nat.not_lt_zero _)
  marked hc := absurd hc List.not_mem_nil
  ascending := ascending
  under _ _ _ same := absurd same (Nat.succ_ne_zero _).symm
  below := rfl
  stands := stands

theorem length_draws (count : Nat) (coins : Coins) : (coins.draws count).1.length = count := by
  induction count generalizing coins with
  | zero => rfl
  | succ count ih => exact congrArg (· + 1) (ih _)

theorem le_foldl_max {heights : List Nat} {n : Nat} (hn : n ∈ heights) (start : Nat) :
    n ≤ heights.foldl max start := by
  rw [List.foldl_max]
  obtain ⟨top, found⟩ := Option.isSome_iff_exists.mp
    (List.isSome_max?_of_mem hn)
  rw [found]
  exact ((List.max?_eq_some_iff.mp found).2 n hn).trans (le_max_right _ _)

section Start

variable {k : Key} (keys : List Key) (coins : Coins)

/-- The levels that the coins give to each key above the bottom one, in ascending order of keys. -/
def heights : List Nat := (coins.draws (ascending keys).length).1

/-- The columns that the list of these keys starts with. -/
def startColumns : List Column :=
  List.zipWith (fun key levels => ⟨key, levels, .nil⟩) (ascending keys) (heights keys coins)

/-- How many nodes the list of these keys has: the towers that the coins give, and the ends. -/
def builtNodes : Nat :=
  Column.towerNodes (heights keys coins) + 2 * ((heights keys coins).foldl max 0 + 1)

theorem length_heights : (heights keys coins).length = (ascending keys).length :=
  length_draws _ coins

theorem startColumns_eq : startColumns keys coins =
    ((ascending keys).zip (heights keys coins)).map fun pair => ⟨pair.1, pair.2, .nil⟩ :=
  List.map_uncurry_zip_eq_zipWith.symm

theorem bounds_startColumns :
    Column.bounds (startColumns keys coins) = (ascending keys).map .key := by
  conv_rhs => rw [← List.map_fst_zip (length_heights keys coins).ge, List.map_map]
  rw [startColumns_eq, Column.bounds, List.map_map]
  rfl

theorem levels_startColumns : (startColumns keys coins).map Column.levels = heights keys coins := by
  rw [startColumns_eq, List.map_map]
  exact List.map_snd_zip (length_heights keys coins).le

theorem below_startColumns : ∀ column ∈ startColumns keys coins, column.below = .nil :=
  fun column hc => by
    rw [startColumns_eq] at hc
    obtain ⟨pair, -, rfl⟩ := List.mem_map.mp hc
    rfl

theorem startColumns_sorted :
    (Column.bounds (startColumns keys coins)).Pairwise (· < ·) := by
  rw [bounds_startColumns, List.pairwise_map]
  exact (ascending_sorted keys).imp fun lt => Bound.key_lt_key.mpr lt

theorem levels_le_of_mem_startColumns :
    ∀ column ∈ startColumns keys coins, column.levels ≤ (heights keys coins).foldl max 0 :=
  fun _ hc => le_foldl_max (levels_startColumns keys coins ▸ List.mem_map_of_mem hc) 0

theorem nodes_startColumns :
    Column.nodes (startColumns keys coins) = Column.towerNodes (heights keys coins) := by
  rw [Column.nodes, levels_startColumns]

/-- Every key has a node. -/
theorem length_le_builtNodes : (ascending keys).length ≤ builtNodes keys coins := by
  have columns := congrArg List.length (levels_startColumns keys coins)
  rw [List.length_map, length_heights] at columns
  have nodes := Column.nodes_eq (startColumns keys coins)
  rw [nodes_startColumns] at nodes
  unfold builtNodes
  omega

end Start

/-- What building a list of keys leaves. -/
structure Builds (y : Layout) (h : Hasher) (l : SkipList) (keys : List Key) (coins : Coins) :
    Prop where
  list : y.Of l
  current : y.Current h
  mem : ∀ k, .key k ∈ y.row 0 ↔ k ∈ keys
  towers : ∀ m k, .key k ∈ y.row m ↔ Column.Reaches (startColumns keys coins) k m
  height : l.height = (heights keys coins).foldl max 0 + 1
  version : l.version = 0

/-- **Building a list of given keys** goes through if there is room for all towers. -/
theorem exists_ofKeys (h : Hasher) (keys : List Key) (coins : Coins)
    (room : builtNodes keys coins < 4294967295) :
    ∃ (l : SkipList) (y : Layout), SkipList.ofKeys h keys coins =
        .ok (l, (coins.draws (ascending keys).length).2, [.built l.size l.height]) ∧
      y.Builds h l keys coins := by
  obtain ⟨s, y, ok, describes, current, shaped, -, row, towers⟩ :=
    (rising_nothing h (startColumns_sorted keys coins) (below_startColumns keys coins)).layLevels
      (levels_le_of_mem_startColumns keys coins)
      (by rw [nodes_startColumns]; simpa [Store.HasRoom, builtNodes] using room)
  rw [Nat.zero_add] at ok shaped
  refine ⟨{
      store := s
      top := y.ends ((heights keys coins).foldl max 0)
      height := (heights keys coins).foldl max 0 + 1
      size := (ascending keys).length
      version := 0 }, y, ?_, ⟨⟨describes, shaped, rfl, rfl⟩, ?_⟩, current, fun k => ?_,
    fun m k => ?_, rfl, rfl⟩
  · rw [SkipList.ofKeys]
    show (Store.layLevels _ h _ _ (startColumns keys coins) >>= _) = _
    rw [show ((coins.draws (ascending keys).length).1.foldl max 0) =
      (heights keys coins).foldl max 0 from rfl, ok]
    rfl
  · rw [row, Column.row, bounds_startColumns]
    simp
  · rw [row, Column.row, bounds_startColumns]
    simp [mem_ascending]
  · rw [← towers, Nat.zero_add]

/-! ## 3. The slots that it takes -/

theorem levels_layColumns {next first : Slot} {laid : List Column}
    (ok : s.layColumns h next columns = .ok (first, laid, s')) :
    laid.map Column.levels = columns.map Column.levels := by
  induction columns generalizing first laid s' with
  | nil =>
    cases ok
    rfl
  | cons column rest ih =>
    obtain ⟨⟨right, laid', s1⟩, ok1, ok⟩ := bind_eq_ok_iff.mp ok
    obtain ⟨⟨i, s2⟩, ok2, ok⟩ := bind_eq_ok_iff.mp ok
    cases ok
    exact congrArg (column.levels :: ·) (ih ok1)

theorem takes_layLevels {above : Nat} {below top : Ends}
    (bounded : ∀ levels ∈ columns.map Column.levels, levels ≤ above)
    (ok : s.layLevels h above below columns = .ok (top, s')) :
    s.Takes s' (Column.nodes columns + 2 * (above + 1)) := by
  induction above generalizing s below columns with
  | zero =>
    obtain ⟨⟨ends, laid, s1⟩, ok1, ok⟩ := bind_eq_ok_iff.mp ok
    cases ok
    have none : Column.survivors columns = [] := by
      refine List.eq_nil_iff_forall_not_mem.mpr fun column hc => ?_
      exact absurd (bounded _ (List.mem_map_of_mem (Column.mem_survivors.mp hc))) (by simp)
    rw [Column.nodes_eq, none]
    exact takes_layLevel ok1
  | succ above ih =>
    obtain ⟨⟨ends, laid, s1⟩, ok1, ok⟩ := bind_eq_ok_iff.mp ok
    have levels : laid.map Column.levels = columns.map Column.levels := by
      obtain ⟨⟨upper, s2⟩, -, ok1⟩ := bind_eq_ok_iff.mp ok1
      obtain ⟨⟨first, laid', s3⟩, ok2, ok1⟩ := bind_eq_ok_iff.mp ok1
      obtain ⟨⟨lower, s4⟩, -, ok1⟩ := bind_eq_ok_iff.mp ok1
      cases ok1
      exact levels_layColumns ok2
    have survivors : (Column.survivors laid).map Column.levels =
        (Column.survivors columns).map Column.levels := by
      rw [Column.levels_survivors, Column.levels_survivors, levels]
    have bounded1 : ∀ n ∈ (Column.survivors laid).map Column.levels, n ≤ above := by
      intro n hn
      rw [Column.levels_survivors, levels] at hn
      obtain ⟨n', hn', same⟩ := List.mem_filterMap.mp hn
      have := bounded n' hn'
      split at same <;> cases same
      omega
    have rest := ih bounded1 ok
    rw [Column.nodes, survivors, ← Column.nodes] at rest
    have := (takes_layLevel ok1).trans rest
    rw [Column.nodes_eq]
    rwa [show columns.length + 2 + (Column.nodes (Column.survivors columns) + 2 * (above + 1)) =
      columns.length + Column.nodes (Column.survivors columns) + 2 * (above + 1 + 1) by
        omega] at this

/-- **What building takes**: a slot for each node of each tower, and two for each level. -/
theorem takes_ofKeys {keys : List Key} {coins coins' : Coins} {l : SkipList}
    {events : List Event} (ok : SkipList.ofKeys h keys coins = .ok (l, coins', events)) :
    Store.Takes ⟨#[], []⟩ l.store (builtNodes keys coins) := by
  obtain ⟨⟨top, s⟩, laid, ok⟩ := bind_eq_ok_iff.mp ok
  cases ok
  have bounded : ∀ n ∈ (startColumns keys coins).map Column.levels,
      n ≤ (heights keys coins).foldl max 0 := by
    intro n hn
    rw [levels_startColumns] at hn
    exact le_foldl_max hn 0
  have taken := takes_layLevels bounded laid
  rw [nodes_startColumns] at taken
  exact taken

/-- A list that has been built, leaving a store that fits, had room for all towers. -/
theorem builtNodes_lt_of_ofKeys {keys : List Key} {coins coins' : Coins} {l : SkipList}
    {events : List Event} (ok : SkipList.ofKeys h keys coins = .ok (l, coins', events))
    (fits : l.store.Fits) : builtNodes keys coins < 4294967295 := by
  simpa [Store.HasRoom] using (takes_ofKeys ok).hasRoom_of_fits fits

end AuthenticatedSet.Layout
