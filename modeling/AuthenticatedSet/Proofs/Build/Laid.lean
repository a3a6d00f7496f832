import AuthenticatedSet.Proofs.Build.Columns

/-!
# Building, part 2: nodes laid in front of a level

Each node of a level is laid when everything right of it and below it is in place, so no node laid
later changes its digest.

* `Layout.Laid`        -- a layout with further bounds in front of one level
* `Layout.Growing`     -- a store in the middle of a level, its digests all current
* `Growing.addUpper`   -- the upper end
* `Growing.lay`        -- one more node
* `Growing.layColumns` -- the keys of a level
-/

namespace AuthenticatedSet.Layout

variable {y y' y'' : Layout} {s s' : Store} {h : Hasher} {level m : Nat} {b c : Bound} {r : Bool}
  {i : Slot} {new new' : List (Bound × Bool)} {columns : List Column}

/-! ## 1. Bounds laid in front of a level -/

/-- `y'` is `y` with these bounds in front of a level, each with its mark. -/
structure Laid (y y' : Layout) (level : Nat) (new : List (Bound × Bool)) : Prop where
  row : y'.row level = new.map Prod.fst ++ y.row level
  others : ∀ {m}, m ≠ level → y'.row m = y.row m
  slot : ∀ {m c}, c ∈ y.row m → y'.slot m c = y.slot m c
  raised : ∀ {m c}, c ∈ y.row m → y'.raised m c = y.raised m c
  marks : ∀ {b r}, (b, r) ∈ new → y'.raised level b = r

theorem Laid.mem_of_mem (laid : y.Laid y' level new) (hc : c ∈ y.row m) : c ∈ y'.row m := by
  by_cases same : m = level
  · subst same
    rw [laid.row]
    exact List.mem_append_right _ hc
  · rwa [laid.others same]

theorem Laid.mem_of_new (laid : y.Laid y' level new) (hb : (b, r) ∈ new) : b ∈ y'.row level := by
  rw [laid.row]
  exact List.mem_append_left _ (List.mem_map_of_mem hb)

theorem Laid.refl (y : Layout) (level : Nat) : y.Laid y level [] :=
  ⟨rfl, fun _ => rfl, fun _ => rfl, fun _ => rfl, fun h => absurd h List.not_mem_nil⟩

theorem Laid.trans (laid : y.Laid y' level new) (laid' : y'.Laid y'' level new') :
    y.Laid y'' level (new' ++ new) where
  row := by rw [laid'.row, laid.row, List.map_append, List.append_assoc]
  others ne := (laid'.others ne).trans (laid.others ne)
  slot hc := (laid'.slot (laid.mem_of_mem hc)).trans (laid.slot hc)
  raised hc := (laid'.raised (laid.mem_of_mem hc)).trans (laid.raised hc)
  marks hb := by
    rcases List.mem_append.mp hb with hb | hb
    · exact laid'.marks hb
    · exact (laid'.raised (laid.mem_of_new hb)).trans (laid.marks hb)

/-- Refreshing keeps what has been laid. -/
theorem Laid.refresh (laid : y.Laid y' level new) (h : Hasher) (sites : List Site) :
    y.Laid (y'.refresh h sites) level new where
  row := by rw [row_refresh]; exact laid.row
  others := by rw [row_refresh]; exact laid.others
  slot := by rw [slot_refresh]; exact laid.slot
  raised := by rw [raised_refresh]; exact laid.raised
  marks := by rw [raised_refresh]; exact laid.marks

/-- The row of a level when keys have been laid in front of its upper end. -/
theorem Laid.row_columns (laid : y.Laid y' level (Column.marks columns))
    (ends : y.row level = [.upper]) : y'.row level = Column.bounds columns ++ [.upper] := by
  rw [laid.row, ends, Column.marks, Column.bounds, List.map_map]
  rfl

/-- Columns that stand on a level stand there also when more is laid. -/
theorem Laid.stand_eq (laid : y.Laid y' level new)
    (mem : ∀ column ∈ columns, .key column.key ∈ y.row m) :
    Column.stand columns y m = Column.stand columns y' m :=
  List.map_congr_left fun column hc => by rw [laid.slot (mem column hc)]

theorem Laid.down (laid : y.Laid y' level new) (under : ∀ {m}, level = m + 1 → b ∈ y.row m) :
    y'.down level b = y.down level b := by
  cases level with
  | zero => rfl
  | succ m => exact laid.slot (under rfl)

theorem orderedInsert_eq_cons {row : List Bound} (first : ∀ c ∈ row, b < c) :
    row.orderedInsert (· ≤ ·) b = b :: row := by
  cases row with
  | nil => rfl
  | cons c rest => rw [List.orderedInsert_cons, if_pos (first c List.mem_cons_self).le]

theorem laid_link (first : ∀ c ∈ y.row level, b < c) (i : Slot) (r : Bool) :
    y.Laid (y.link level b i r) level [(b, r)] where
  row := (if_pos rfl).trans (orderedInsert_eq_cons first)
  others ne := if_neg ne
  slot := slot_link_of_mem fun hb => (first b hb).false
  raised {m c} hc := if_neg fun (same : m = level ∧ c = b) =>
    (first c (same.1 ▸ hc)).ne same.2.symm
  marks {b' r'} hb := by
    obtain ⟨rfl, rfl⟩ := Prod.mk.inj (List.mem_singleton.mp hb)
    exact if_pos ⟨rfl, rfl⟩

/-- The first bound of a level is the next one of whatever lies before it. -/
theorem next_eq_head {rest : List Bound} (row : y.row level = c :: rest) (lt : b < c) :
    y.next level b = c := by
  simp [next, nextIn, row, lt]

/-! ## 2. A store in the middle of a level -/

/-- The levels of the layout up to this one hold an upper end and only bounds of the level below,
and there is nothing above. -/
structure Open (y : Layout) (level : Nat) : Prop where
  sorted : ∀ m, (y.row m).Pairwise (· < ·)
  upper : ∀ {m c}, c ∈ y.row m → .upper ∈ y.row m
  nested : ∀ {m c}, c ∈ y.row (m + 1) → c ∈ y.row m
  above : ∀ c, c ∉ y.row (level + 1)

/-- A store in the middle of a level, with digests that are all current. -/
structure Growing (y : Layout) (h : Hasher) (s : Store) (level : Nat) : Prop extends
    y.Open level where
  describes : y.Describes s
  current : y.Current h

/-- What may be put in front of a level: a bound left of it that the level below has. -/
structure Fitting (y : Layout) (level : Nat) (b : Bound) : Prop where
  first : ∀ c ∈ y.row level, b < c
  closed : b ≠ .upper → .upper ∈ y.row level
  under : ∀ {m}, level = m + 1 → b ∈ y.row m

theorem Open.link (hy : y.Open level) (fitting : y.Fitting level b) (i : Slot) (r : Bool) :
    (y.link level b i r).Open level where
  sorted := sorted_link hy.sorted fun hb => (fitting.first b hb).false
  upper {m c} hc := by
    rw [mem_row_link] at hc ⊢
    rcases hc with ⟨rfl, rfl⟩ | hc
    · by_cases end' : c = .upper
      · exact .inl ⟨rfl, end'.symm⟩
      · exact .inr (fitting.closed end')
    · exact .inr (hy.upper hc)
  nested {m c} hc := by
    rw [mem_row_link] at hc ⊢
    rcases hc with ⟨same, rfl⟩ | hc
    · exact .inr (fitting.under same.symm)
    · exact .inr (hy.nested hc)
  above c hc := by
    rcases mem_row_link.mp hc with same | hc
    · omega
    · exact hy.above c hc

theorem Open.refresh (hy : y.Open level) (h : Hasher) (sites : List Site) :
    (y.refresh h sites).Open level where
  sorted := by rw [row_refresh]; exact hy.sorted
  upper := by rw [row_refresh]; exact hy.upper
  nested := by rw [row_refresh]; exact hy.nested
  above := by rw [row_refresh]; exact hy.above

/-- A bound put in front of its level leaves the digests that follow elsewhere as they are. -/
theorem Open.commit_link (hy : y.Open level) (fitting : y.Fitting level b) (hc : c ∈ y.row m)
    (h : Hasher) : (y.link level b i r).commit h m c = y.commit h m c := by
  have new : b ∉ y.row level := fun hb => (fitting.first b hb).false
  have top : b ∉ y.row (level + 1) := hy.above b
  have next : ∀ {d}, d ∈ y.row m → (y.link level b i r).next m d = y.next m d := fun {d} hd => by
    by_cases same : m = level
    · exact next_link_of_le (fitting.first d (same ▸ hd)).le
    · exact next_link_of_ne same
  have hn : y.next m c ∈ y.row m := nextIn_mem (hy.upper hc) c
  have below : (y.link level b i r).below m c = y.below m c := by
    cases m with
    | zero => rfl
    | succ n =>
      refine congrArg some (if_neg fun same => new ?_)
      rw [← same.1, ← same.2]
      exact hy.nested hc
  unfold commit
  rw [below, next hc, node_link_of_mem new top (hy.upper hc) hn (next hn)]

/-- The other digests stay current when a bound is put in front of its level. -/
theorem Open.current_link (hy : y.Open level) (fitting : y.Fitting level b) (current : y.Current h)
    (hc : c ∈ (y.link level b i r).row m) (ne : c ≠ .upper) (other : ¬ (m = level ∧ c = b)) :
    (y.link level b i r).digest m c = (y.link level b i r).commit h m c := by
  have old := (mem_row_link.mp hc).resolve_left other
  rw [hy.commit_link fitting old, ← current m c old ne]
  exact if_neg other

/-- The new bound needs no more than its own digest: nothing is above it or left of it. -/
theorem Open.current_refresh (hy : y.Open level) (fitting : y.Fitting level b)
    (current : y.Current h) :
    ((y.link level b i r).refresh h [(level, b)]).Current h := by
  have open1 := hy.link fitting i r
  refine Layout.current_refresh (List.pairwise_singleton _ _) ?_ ?_
  · intro site hs reader hr ne reads
    obtain rfl := List.mem_singleton.mp hs
    rcases reads with rfl | ⟨same, -, next, -⟩
    · exact absurd hr (open1.above b)
    · obtain ⟨m, c⟩ := reader
      obtain rfl : m = level := same
      have next : (y.link m b i r).next m c = b := next
      have lt : c < b := next ▸ Shaped.lt_next ne
      rcases mem_row_link.mp hr with ⟨-, rfl⟩ | hr
      · exact absurd lt (lt_irrefl _)
      · exact absurd lt (fitting.first c hr).asymm
  · intro m c hc ne out
    exact hy.current_link fitting current hc ne fun same => out (by simp [same])

namespace Growing

/-- An upper end put on an empty level. -/
theorem addUpper (hg : y.Growing h s level) (fitting : y.Fitting level .upper)
    (room : s.HasRoom 1) (r : Bool) :
    ∃ i s' y', s.add { Node.fresh .upper .nil (y.down level .upper) with continued := r } =
        .ok (i, s') ∧ y'.Growing h s' level ∧ y.Laid y' level [(.upper, r)] ∧
      y'.slot level .upper = i := by
  obtain ⟨i, s', added, h'⟩ := hg.describes.addFirst (hg.sorted level) hg.upper fitting.first
    fitting.closed (hg.above _) room r
  rw [right_upper] at added
  refine ⟨i, s', _, added, ⟨hg.toOpen.link fitting i r, h', fun m c hc ne => ?_⟩,
    laid_link fitting.first i r, slot_link_self⟩
  exact hg.toOpen.current_link fitting hg.current hc ne fun same => ne same.2

/-- **A node laid**, with its digest. -/
theorem lay (hg : y.Growing h s level) (fitting : y.Fitting level b) (hb : b ≠ .upper)
    (room : s.HasRoom 1) (r : Bool) :
    ∃ i s' y', s.lay h { Node.fresh b (y.right level b) (y.down level b) with continued := r } =
        .ok (i, s') ∧ y'.Growing h s' level ∧ y.Laid y' level [(b, r)] ∧ y'.slot level b = i := by
  obtain ⟨i, s1, added, h1⟩ := hg.describes.addFirst (hg.sorted level) hg.upper fitting.first
    fitting.closed (hg.above _) room r
  have open1 := hg.toOpen.link fitting i r
  have mem : b ∈ (y.link level b i r).row level := mem_row_link.mpr (.inl ⟨rfl, rfl⟩)
  have supported : ∀ site ∈ [(level, b)], (y.link level b i r).Supported site := fun site hs => by
    obtain rfl := List.mem_singleton.mp hs
    refine ⟨mem, hb, nextIn_mem (open1.upper mem) b, fun {m} same => ?_⟩
    exact mem_row_link.mpr (.inr (fitting.under same))
  obtain ⟨s', refreshed, h'⟩ := h1.refresh h supported
  refine ⟨i, s', _, ?_, ⟨open1.refresh h _, h', hg.toOpen.current_refresh fitting hg.current⟩,
    (laid_link fitting.first i r).refresh h _, ?_⟩
  · rw [Store.lay, added, ok_bind]
    show (s1.refresh h [i] >>= _) = _
    have slots : (y.link level b i r).slots [(level, b)] = [i] := by
      simp [slots]
    rw [← slots, refreshed]
    rfl
  · rw [slot_refresh]
    exact slot_link_self

end Growing

/-! ## 3. The keys of a level -/

theorem takes_lay {node : Node} (ok : s.lay h node = .ok (i, s')) : s.Takes s' 1 := by
  obtain ⟨⟨i, s1⟩, added, ok⟩ := bind_eq_ok_iff.mp ok
  obtain ⟨s2, refreshed, ok⟩ := bind_eq_ok_iff.mp ok
  cases ok
  exact (Store.takes_add added).trans (takes_refresh refreshed)

/-- The slots that a list of columns takes. -/
theorem takes_layColumns {next first : Slot} {laid : List Column}
    (ok : s.layColumns h next columns = .ok (first, laid, s')) : s.Takes s' columns.length := by
  induction columns generalizing first laid s' with
  | nil =>
    cases ok
    exact .refl _
  | cons column rest ih =>
    obtain ⟨⟨right, laid', s1⟩, ok1, ok⟩ := bind_eq_ok_iff.mp ok
    obtain ⟨⟨i, s2⟩, ok2, ok⟩ := bind_eq_ok_iff.mp ok
    cases ok
    exact (ih ok1).trans (takes_lay ok2)

/-- **The keys of a level laid**, right to left, in front of its upper end. -/
theorem Growing.layColumns (hg : y.Growing h s level) (ends : y.row level = [.upper])
    (sorted : (Column.bounds columns).Pairwise (· < ·))
    (under : ∀ column ∈ columns, ∀ {m}, level = m + 1 → .key column.key ∈ y.row m)
    (stands : ∀ column ∈ columns, column.below = y.down level (.key column.key))
    (room : s.HasRoom columns.length) :
    ∃ first s' y', s.layColumns h (y.slot level .upper) columns =
        .ok (first, Column.stand columns y' level, s') ∧ y'.Growing h s' level ∧
      y.Laid y' level (Column.marks columns) ∧
      ∀ b, (∀ c ∈ y'.row level, b < c) → y'.right level b = first := by
  induction columns with
  | nil =>
    refine ⟨y.slot level .upper, s, y, rfl, hg, .refl y level, fun b lt => ?_⟩
    have lt := lt .upper (ends ▸ List.mem_singleton_self _)
    rw [right_of_ne lt.ne, next_eq_head ends lt]
  | cons column rest ih =>
    obtain ⟨least, sorted⟩ := List.pairwise_cons.mp sorted
    obtain ⟨right, s1, y1, ok1, hg1, laid1, first1⟩ := ih sorted
      (fun c hc => under c (List.mem_cons_of_mem _ hc))
      (fun c hc => stands c (List.mem_cons_of_mem _ hc))
      (room.mono (by simp))
    have row1 := laid1.row_columns ends
    have first : ∀ c ∈ y1.row level, .key column.key < c := fun c hc => by
      rw [row1, List.mem_append, List.mem_singleton] at hc
      rcases hc with hc | rfl
      · exact least c hc
      · exact Bound.key_lt_upper _
    have under' : ∀ {m}, level = m + 1 → .key column.key ∈ y.row m :=
      under column List.mem_cons_self
    have down : y1.down level (.key column.key) = column.below :=
      (laid1.down under').trans (stands column List.mem_cons_self).symm
    obtain ⟨i, s', y', ok, hg', laid, slot⟩ := hg1.lay (b := .key column.key)
      ⟨first, fun _ => row1 ▸ by simp, fun same => laid1.mem_of_mem (under' same)⟩
      (Bound.key_lt_upper _).ne
      ((takes_layColumns ok1).hasRoom (by simpa using room)) (decide (0 < column.levels))
    rw [first1 _ first, down] at ok
    refine ⟨i, s', y', ?_, hg', laid1.trans laid, fun b lt => ?_⟩
    · have tail : Column.stand rest y1 level = Column.stand rest y' level := by
        refine laid.stand_eq fun c hc => row1 ▸ ?_
        exact List.mem_append_left _ (Column.mem_bounds.mpr ⟨c, hc, rfl⟩)
      rw [Store.layColumns, ok1, ok_bind]
      show (s1.lay h _ >>= _) = _
      rw [ok, ok_bind, tail, ← slot]
      rfl
    · have row : y'.row level = .key column.key :: y1.row level := laid.row
      have lt := lt (.key column.key) (row ▸ List.mem_cons_self)
      rw [right_of_ne (Bound.ne_upper_of_lt lt), next_eq_head row lt, slot]

end AuthenticatedSet.Layout
