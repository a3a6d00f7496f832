import AuthenticatedSet.Proofs.Layout.Refresh
import AuthenticatedSet.Proofs.Layout.Tower

/-!
# What a search rests on

On each level a search rests on the bounds that pass, from the last one that passes a level up
to the last one that passes here. This says which places are on its path without running it; that a
search of a list with a layout finds just these is `Carries.search`.

* `Layout.reached`  -- the last bound that passes on a level
* `Layout.stretch`  -- the bounds rested on within a level, from right to left
* `Layout.path`     -- all places rested on, from the end of the search back to its start
* `Layout.Trails`   -- a trail that holds these places
* `mem_path`, `path_ordered`, `path_closed` -- the path as a set of places, its order, and that it
  has with each place all that read its digest
-/

namespace AuthenticatedSet

/-! ## 1. Stretches and paths -/

/-- The bounds of a row from `b` on as far as the property holds. -/
def slice (row : List Bound) (b : Bound) (p : Bound → Bool) : List Bound :=
  (row.filter (b ≤ ·)).filter p

section Slice

variable {row : List Bound} {b c : Bound} {p : Bound → Bool}

theorem mem_slice : c ∈ slice row b p ↔ c ∈ row ∧ b ≤ c ∧ p c = true := by
  simp only [slice, List.mem_filter, decide_eq_true_eq, and_assoc]

theorem slice_eq_cons (sorted : row.Pairwise (· < ·)) (hb : b ∈ row) (hu : b ≠ .upper)
    (pass : p b = true) : slice row b p = b :: slice row (nextIn row b) p := by
  unfold slice
  rw [filter_le_eq_cons sorted hb, List.filter_cons_of_pos pass, filter_lt_eq_filter_le sorted hu]

theorem slice_eq_nil (hp : Downward p) (stop : p b = false) : slice row b p = [] := by
  refine List.eq_nil_iff_forall_not_mem.mpr fun c hc => ?_
  obtain ⟨-, le, pass⟩ := mem_slice.mp hc
  rw [hp.mono le pass] at stop
  cases stop

theorem slice_sorted (sorted : row.Pairwise (· < ·)) (b : Bound) (p : Bound → Bool) :
    (slice row b p).Pairwise (· < ·) := (sorted.filter _).filter _

end Slice

namespace Layout

/-- The last bound of a level that passes. -/
def reached (y : Layout) (p : Bound → Bool) (level : Nat) : Bound := lastIn (y.row level) p

/-- The bounds of a level that a search rests on, from right to left. -/
def stretch (y : Layout) (p : Bound → Bool) (level : Nat) : List Bound :=
  (slice (y.row level) (y.reached p (level + 1)) p).reverse

/-- The places that a search rests on, from its end back to its start. -/
def path (y : Layout) (p : Bound → Bool) (height : Nat) : List Site :=
  (List.range height).flatMap fun level => (y.stretch p level).map fun b => (level, b)

variable {y : Layout} {s : Store} {l : SkipList} {p : Bound → Bool} {height level m : Nat}
  {b c : Bound} {site reader : Site} {k : Key} {reach : Reach} {trail : Trail}

theorem mem_stretch :
    b ∈ y.stretch p level ↔ b ∈ y.row level ∧ y.reached p (level + 1) ≤ b ∧ p b = true := by
  rw [stretch, List.mem_reverse, mem_slice]

theorem mem_path : (level, b) ∈ y.path p height ↔
    level < height ∧ b ∈ y.row level ∧ y.reached p (level + 1) ≤ b ∧ p b = true := by
  simp only [path, List.mem_flatMap, List.mem_range, List.mem_map, Prod.mk.injEq]
  constructor
  · intro h
    obtain ⟨m, hm, c, hc, rfl, rfl⟩ := h
    exact ⟨hm, mem_stretch.mp hc⟩
  · intro h
    obtain ⟨hm, hb⟩ := h
    exact ⟨level, hm, b, mem_stretch.mpr hb, rfl, rfl⟩

namespace Shaped

theorem reached_mem (hy : y.Shaped height) (h : level < height) :
    y.reached p level ∈ y.row level := lastIn_mem (hy.lower h) p

theorem reached_pass (hp : Downward p) (level : Nat) : p (y.reached p level) = true :=
  lastIn_pass _ hp

theorem reached_ne_upper (hp : Downward p) (level : Nat) : y.reached p level ≠ .upper :=
  lastIn_ne_upper _ hp

theorem le_reached (hy : y.Shaped height) (hb : b ∈ y.row level) (pass : p b = true) :
    b ≤ y.reached p level := le_lastIn (hy.sorted level) hb pass

theorem next_reached_not_pass (hy : y.Shaped height) (hp : Downward p) (h : level < height) :
    p (y.next level (y.reached p level)) = false :=
  nextIn_lastIn_not_pass (hy.sorted level) (hy.upper h) hp

theorem reached_beyond (hy : y.Shaped height) (h : height ≤ level) :
    y.reached p level = .lower := by
  rw [reached, hy.beyond h]
  rfl

/-- What is reached a level up is on this level too. -/
theorem reached_succ_mem (hy : y.Shaped height) (h : level < height) :
    y.reached p (level + 1) ∈ y.row level := by
  by_cases top : level + 1 < height
  · exact hy.nested (hy.reached_mem top)
  · rw [hy.reached_beyond (by omega)]
    exact hy.lower h

/-- The further up, the further left. -/
theorem reached_anti (hy : y.Shaped height) (hp : Downward p) (le : level ≤ m) (h : m < height) :
    y.reached p m ≤ y.reached p level := by
  exact hy.le_reached (hy.nested_le (hy.reached_mem h) le) (reached_pass hp m)

/-- A stretch starts at what is reached on its level. -/
theorem stretch_eq_cons (hy : y.Shaped height) (hp : Downward p) (h : level < height) :
    ∃ rest, y.stretch p level = y.reached p level :: rest := by
  have start : y.reached p (level + 1) ∈ y.stretch p level :=
    mem_stretch.mpr ⟨hy.reached_succ_mem h, le_rfl, reached_pass hp _⟩
  cases found : y.stretch p level with
  | nil => exact absurd (found ▸ start) List.not_mem_nil
  | cons head rest =>
    refine ⟨rest, congrArg (· :: rest) ?_⟩
    have descending : (head :: rest).Pairwise (· > ·) :=
      found ▸ List.pairwise_reverse.mpr (slice_sorted (hy.sorted level) _ p)
    obtain ⟨mem, ge, pass⟩ := mem_stretch.mp (found ▸ List.mem_cons_self : head ∈ _)
    refine (lastIn_eq (hy.sorted level) (hy.lower h) hp mem pass fun d hd hd' => ?_).symm
    rcases le_total (y.reached p (level + 1)) d with le | le
    · have : d ∈ head :: rest := found ▸ mem_stretch.mpr ⟨hd, le, hd'⟩
      rcases List.mem_cons.mp this with rfl | later
      · exact le_rfl
      · exact ((List.pairwise_cons.mp descending).1 d later).le
    · exact le.trans ge

/-- The path goes from right to left and upward. -/
theorem path_ordered (hy : y.Shaped height) (hp : Downward p) :
    (y.path p height).Pairwise Site.Before := by
  refine List.pairwise_flatMap.mpr ⟨fun level _ => ?_, ?_⟩
  · have descending : (y.stretch p level).Pairwise (· > ·) :=
      List.pairwise_reverse.mpr (slice_sorted (hy.sorted level) _ p)
    exact List.pairwise_map.mpr (descending.imp .inl)
  · refine List.pairwise_lt_range.imp_of_mem fun {level m} _ hm lt => ?_
    intro site hs later hl
    obtain ⟨b, hb, rfl⟩ := List.mem_map.mp hs
    obtain ⟨c, hc, rfl⟩ := List.mem_map.mp hl
    obtain ⟨-, ge, -⟩ := mem_stretch.mp hb
    obtain ⟨mem, -, pass⟩ := mem_stretch.mp hc
    have le : c ≤ b := (hy.le_reached mem pass).trans
      ((hy.reached_anti hp lt (List.mem_range.mp hm)).trans ge)
    rcases le.lt_or_eq with lt' | same
    · exact .inl lt'
    · exact .inr ⟨same, lt⟩

theorem reached_mem_path (hy : y.Shaped height) (hp : Downward p) (h : level < height) :
    (level, y.reached p level) ∈ y.path p height := by
  refine mem_path.mpr ⟨h, hy.reached_mem h, ?_, reached_pass hp level⟩
  exact hy.le_reached (hy.reached_succ_mem h) (reached_pass hp (level + 1))

/-- What lies left of a bound on the path that is not covered is on the path. -/
theorem mem_path_of_next (hy : y.Shaped height) (hp : Downward p)
    (hb : (level, b) ∈ y.path p height) (hc : c ∈ y.row level) (ne : c ≠ .upper)
    (next : y.next level c = b) (exposed : (y.node level b).isCovered = false) :
    (level, c) ∈ y.path p height := by
  obtain ⟨h, mem, ge, pass⟩ := mem_path.mp hb
  have lt : c < b := next ▸ Shaped.lt_next ne
  refine mem_path.mpr ⟨h, hc, ?_, hp.mono lt.le pass⟩
  by_contra beyond
  -- otherwise what is reached above lies after `c` and up to `b`, so it is `b`
  have same : y.reached p (level + 1) = b := by
    refine le_antisymm ge (next ▸ hy.next_le ?_ (not_le.mp beyond))
    exact hy.reached_succ_mem h
  have top : level + 1 < height := by
    by_contra top
    rw [hy.reached_beyond (by omega)] at same
    exact absurd (same ▸ lt) (Bound.lower_le c).not_gt
  have covered := (hy.isCovered_iff mem).mpr (.inl (same ▸ hy.reached_mem top))
  rw [exposed] at covered
  cases covered

/-- **With each place the path has all that read its digest.** -/
theorem path_closed (hy : y.Shaped height) (hp : Downward p) (hs : site ∈ y.path p height)
    (mem : reader.2 ∈ y.row reader.1) (reads : y.Reads reader site) :
    reader ∈ y.path p height := by
  obtain ⟨level, b⟩ := site
  rcases reads with rfl | ⟨same, ne, next, exposed⟩
  · obtain ⟨-, -, -, pass⟩ := mem_path.mp hs
    have top := hy.lt_height mem
    refine mem_path.mpr ⟨top, mem, ?_, pass⟩
    by_cases more : level + 2 < height
    · exact (hy.reached_anti hp (Nat.le_succ _) more).trans (mem_path.mp hs).2.2.1
    · rw [hy.reached_beyond (by omega)]
      exact Bound.lower_le _
  · obtain ⟨m, c⟩ := reader
    obtain rfl : m = level := same
    exact hy.mem_path_of_next hp hs mem ne next exposed

end Shaped

/-! ## 2. Searching a store -/

theorem ne_upper_of_pass (hp : Downward p) (pass : p b = true) : b ≠ .upper := by
  intro same
  subst same
  rw [hp.upper] at pass
  cases pass

/-- A slide rests where the next bound does not pass, whatever the limit. -/
theorem Describes.slide_stop (hs : y.Describes s) (hy : y.Shaped height) (hb : b ∈ y.row level)
    (ne : b ≠ .upper) (stop : p (y.next level b) = false) (limit : Nat) (earlier : List Slot) :
    s.slide p limit earlier (y.slot level b) = .ok ⟨y.slot level b, earlier⟩ := by
  have stop' : ¬ p (y.node level (y.next level b)).bound = true := by
    show ¬ p (y.next level b) = true
    simp [stop]
  unfold Store.slide
  rw [hs.get hb, ok_bind, hs.get_right ne (hy.next_mem hb), ok_bind, if_neg stop']
  rfl

theorem Describes.slide_move (hs : y.Describes s) (hy : y.Shaped height) (hb : b ∈ y.row level)
    (ne : b ≠ .upper) (go : p (y.next level b) = true) (limit : Nat) (earlier : List Slot) :
    s.slide p (limit + 1) earlier (y.slot level b) =
      s.slide p limit (y.slot level b :: earlier) (y.slot level (y.next level b)) := by
  have go' : p (y.node level (y.next level b)).bound = true := go
  have right : (y.node level b).right = y.slot level (y.next level b) := right_of_ne ne
  rw [Store.slide, hs.get hb, ok_bind, hs.get_right ne (hy.next_mem hb), ok_bind, if_pos go',
    right]

/-- **One level**: sliding rests on the bounds from the start as far as they pass. -/
theorem Describes.slide (hs : y.Describes s) (hy : y.Shaped height) (hp : Downward p)
    (hb : b ∈ y.row level) (pass : p b = true) {limit : Nat}
    (enough : (slice (y.row level) b p).length ≤ limit + 1) (earlier : List Slot) :
    ∃ st, s.slide p limit earlier (y.slot level b) = .ok st ∧
      st.slots = (slice (y.row level) b p).reverse.map (y.slot level) ++ earlier := by
  induction limit generalizing b earlier with
  | zero =>
    have ne := ne_upper_of_pass hp pass
    rw [slice_eq_cons (hy.sorted level) hb ne pass] at enough ⊢
    have nil : slice (y.row level) (nextIn (y.row level) b) p = [] := by simpa using enough
    have stop : p (y.next level b) = false := by
      by_contra go
      have mem : y.next level b ∈ slice (y.row level) (nextIn (y.row level) b) p :=
        mem_slice.mpr ⟨hy.next_mem hb, le_rfl, by simpa using go⟩
      rw [nil] at mem
      cases mem
    exact ⟨_, hs.slide_stop hy hb ne stop 0 earlier, by rw [nil]; rfl⟩
  | succ limit ih =>
    have ne := ne_upper_of_pass hp pass
    rw [slice_eq_cons (hy.sorted level) hb ne pass] at enough ⊢
    cases stop : p (y.next level b) with
    | false =>
      have nil : slice (y.row level) (nextIn (y.row level) b) p = [] := slice_eq_nil hp stop
      exact ⟨_, hs.slide_stop hy hb ne stop _ earlier, by rw [nil]; rfl⟩
    | true =>
      have shorter : (slice (y.row level) (y.next level b) p).length ≤ limit + 1 := by
        simpa [next] using enough
      obtain ⟨st, ok, slots⟩ := ih (hy.next_mem hb) stop shorter (y.slot level b :: earlier)
      refine ⟨st, (hs.slide_move hy hb ne stop limit earlier).trans ok, ?_⟩
      rw [slots, List.reverse_cons, List.map_append, List.append_assoc]
      rfl

/-- The trail holds the places that a search rests on. -/
def Trails (y : Layout) (p : Bound → Bool) (height : Nat) (trail : Trail) : Prop :=
  trail.stretches.map Stretch.slots =
    (List.range height).map fun level => (y.stretch p level).map (y.slot level)

/-- The stretch of a level, found from what is reached above. -/
theorem Describes.slide_stretch (hs : y.Describes s) (hy : y.Shaped height) (hp : Downward p)
    (h : level < height) :
    ∃ st, s.slide p s.nodes.size [] (y.slot level (y.reached p (level + 1))) = .ok st ∧
      st.slots = (y.stretch p level).map (y.slot level) ∧
      st.last = y.slot level (y.reached p level) := by
  have short : (slice (y.row level) (y.reached p (level + 1)) p).length ≤ s.nodes.size + 1 := by
    have le := hs.length_row_le (hy.sorted level)
    have := (List.length_filter_le p _).trans
      (List.length_filter_le (y.reached p (level + 1) ≤ ·) (y.row level))
    simp only [slice]
    omega
  obtain ⟨st, ok, slots⟩ := hs.slide hy hp (hy.reached_succ_mem h)
    (Shaped.reached_pass hp (level + 1)) short []
  rw [List.append_nil] at slots
  obtain ⟨rest, first⟩ := hy.stretch_eq_cons hp h
  refine ⟨st, ok, slots, ?_⟩
  have : st.slots = (y.reached p level :: rest).map (y.slot level) := by
    rw [slots, ← first]
    rfl
  exact (List.cons.inj this).1

/-- **All levels**: descending from what is reached above leaves the stretches from there on. -/
theorem Describes.descend (hs : y.Describes s) (hy : y.Shaped height) (hp : Downward p)
    (h : level < height) (above : List Stretch) :
    ∃ trail, s.descend p level above (y.slot level (y.reached p (level + 1))) = .ok trail ∧
      trail.stretches.map Stretch.slots =
        ((List.range (level + 1)).map fun m => (y.stretch p m).map (y.slot m)) ++
          above.map Stretch.slots := by
  induction level generalizing above with
  | zero =>
    obtain ⟨st, ok, slots, last⟩ := hs.slide_stretch hy hp h
    refine ⟨⟨st, above⟩, ?_, ?_⟩
    · rw [Store.descend, ok, ok_bind, last, hs.get (hy.reached_mem h), ok_bind]
      exact if_pos rfl
    · simp only [Trail.stretches, List.map_cons, slots]
      rfl
  | succ level ih =>
    obtain ⟨st, ok, slots, last⟩ := hs.slide_stretch hy hp h
    obtain ⟨trail, ok', stretches⟩ := ih (by omega) (st :: above)
    refine ⟨trail, ?_, ?_⟩
    · have mem := hy.reached_succ_mem (p := p) (Nat.lt_of_succ_lt h)
      have down : (y.node (level + 1) (y.reached p (level + 1))).down =
        y.slot level (y.reached p (level + 1)) := rfl
      rw [Store.descend, ok, ok_bind, last, hs.get (hy.reached_mem h), ok_bind, down,
        if_neg (hs.slot_ne_nil mem)]
      exact ok'
    · rw [stretches, List.range_succ (n := level + 1), List.map_append, List.append_assoc]
      simp only [List.map_cons, List.map_nil, slots]
      rfl

/-- **A search of a list** leaves a trail of the places on its path. -/
theorem Carries.search (hl : y.Carries l) (reach : Reach) (k : Key) :
    ∃ trail, l.search reach k = .ok trail ∧ y.Trails (reach.passes k) l.height trail := by
  have positive := hl.shaped.positive
  have below : l.height - 1 < l.height := by omega
  obtain ⟨trail, ok, stretches⟩ := hl.describes.descend hl.shaped (reach.passes_downward k) below []
  have start : y.reached (reach.passes k) (l.height - 1 + 1) = .lower :=
    hl.shaped.reached_beyond (by omega)
  rw [start, ← hl.lower] at ok
  obtain ⟨top, hh⟩ := Nat.exists_eq_add_one.mpr positive
  refine ⟨trail, ?_, ?_⟩
  · rw [SkipList.search, hh]
    rw [hh] at ok
    exact ok
  · rw [Trails, stretches, hh]
    simp

namespace Trails

/-- The path is the trail backward. -/
theorem backward (ht : y.Trails p height trail) : trail.backward = y.slots (y.path p height) := by
  rw [Trail.backward, List.flatMap_def, ht, slots, path, List.map_flatMap, List.flatMap_def]
  simp [Function.comp_def]

theorem mem_backward (ht : y.Trails p height trail) {i : Slot} :
    i ∈ trail.backward ↔ ∃ site ∈ y.path p height, y.slot site.1 site.2 = i := by
  rw [ht.backward, slots, List.mem_map]

theorem predecessors (ht : y.Trails p height trail) (hy : y.Shaped height) (hp : Downward p) :
    trail.predecessors = (List.range height).map fun m => y.slot m (y.reached p m) := by
  have heads : trail.predecessors.map some = (trail.stretches.map Stretch.slots).map List.head? := by
    simp only [Trail.predecessors, List.map_map]
    rfl
  rw [ht, List.map_map] at heads
  refine List.map_injective_iff.mpr (Option.some_injective Slot) ?_
  rw [heads, List.map_map]
  refine List.map_congr_left fun m hm => ?_
  obtain ⟨rest, first⟩ := hy.stretch_eq_cons hp (List.mem_range.mp hm)
  simp [first]

theorem mem_take_predecessors (ht : y.Trails p height trail) (hy : y.Shaped height)
    (hp : Downward p) (below : level < height) {levels : Nat} (few : level < levels) :
    y.slot level (y.reached p level) ∈ trail.predecessors.take levels := by
  rw [ht.predecessors hy hp, ← List.map_take, List.take_range]
  exact List.mem_map.mpr ⟨level, List.mem_range.mpr (lt_min few below), rfl⟩

theorem last (ht : y.Trails p height trail) (hy : y.Shaped height) (hp : Downward p) :
    trail.bottom.last = y.slot 0 (y.reached p 0) := by
  have heads := ht.predecessors hy hp
  obtain ⟨top, rfl⟩ := Nat.exists_eq_add_one.mpr hy.positive
  rw [List.range_succ_eq_map, List.map_cons] at heads
  exact (List.cons.inj heads).1

end Trails

end Layout

end AuthenticatedSet
