import AuthenticatedSet.Proofs.Search

/-!
# What a change of one key leaves alone

Two layouts that differ in the places of one key, and at most in empty levels on top, have the same
digests off the path of the search for that key: whatever is off the path does not see the change.
This is used in both directions, for a key put in and for a key taken out.

* `Layout.SameOff`    -- two layouts whose keys differ in one at most
* `Layout.AgreeOff`   -- the same with the digests of common places
* `SameOff.next_eq`   -- off the path what comes next is the same in both
* `commit_off_path`   -- the digest that follows off the path is the same in both
* `path_closed_off`   -- who reads, in the one, the digest of a place on the path of the other is on
  that path, or is a new left end
-/

namespace AuthenticatedSet.Layout

/-- The two layouts have the same keys except for this one. -/
structure SameOff (y y' : Layout) (k : Key) : Prop where
  mem : ∀ {m c}, c ≠ .key k → c ≠ .lower → c ≠ .upper → (c ∈ y.row m ↔ c ∈ y'.row m)

/-- And digests of places that both have are the same. -/
structure AgreeOff (y y' : Layout) (k : Key) : Prop extends y.SameOff y' k where
  digest : ∀ {m c}, c ∈ y.row m → c ∈ y'.row m → y'.digest m c = y.digest m c

variable {y y' : Layout} {k : Key} {h : Hasher} {height height' level m : Nat} {b c d : Bound}
  {site reader : Site}

theorem below_passes_iff : Reach.below.passes k c = true ↔ c < .key k := decide_eq_true_iff

theorem not_below_passes_iff : Reach.below.passes k c = false ↔ .key k ≤ c := by
  rw [← Bool.not_eq_true, below_passes_iff, not_lt]

theorem reached_lt_key (y : Layout) (k : Key) (level : Nat) :
    y.reached (Reach.below.passes k) level < .key k :=
  below_passes_iff.mp (Shaped.reached_pass (Reach.below.passes_downward k) level)

theorem Shaped.key_le_next_reached (hy : y.Shaped height) (hl : level < height) :
    .key k ≤ y.next level (y.reached (Reach.below.passes k) level) :=
  not_below_passes_iff.mp (hy.next_reached_not_pass (Reach.below.passes_downward k) hl)

/-- The bound below a key after which none comes before the key is the one that a search for it
reaches. -/
theorem Shaped.eq_reached (hy : y.Shaped height) (hc : c ∈ y.row level) (lt : c < .key k)
    (le : .key k ≤ y.next level c) : c = y.reached (Reach.below.passes k) level :=
  (lastIn_eq_of_next (hy.sorted level) (hy.lower_mem hc) (Reach.below.passes_downward k) hc
    (below_passes_iff.mpr lt) (not_below_passes_iff.mpr le)).symm

/-- Off the path the next bound is the same in both layouts. -/
theorem SameOff.next_eq (agree : y.SameOff y' k) (hy : y.Shaped height)
    (hy' : y'.Shaped height') (hc : c ∈ y.row m) (hc' : c ∈ y'.row m) (ne : c ≠ .upper)
    (off : c ≠ y.reached (Reach.below.passes k) m) :
    y'.next m c = y.next m c ∧ y.next m c ≠ .key k := by
  have lt : c < y.next m c := Shaped.lt_next ne
  have other : y.next m c ≠ .key k := fun same =>
    off (hy.eq_reached hc (same ▸ lt) same.ge)
  refine ⟨(nextIn_eq_iff (hy'.sorted m) (hy'.upper_mem hc') ne).mpr ⟨?_, lt, ?_⟩, other⟩
  · by_cases end' : y.next m c = .upper
    · rw [end']
      exact hy'.upper_mem hc'
    · exact (agree.mem other (Bound.lower_le c |>.trans_lt lt).ne' end').mp (hy.next_mem hc)
  · intro d hd lt'
    by_cases end' : d = .upper
    · exact end' ▸ Bound.le_upper _
    by_cases key : d = .key k
    · subst key
      by_contra gt
      exact off (hy.eq_reached hc lt' (not_le.mp gt).le)
    · refine hy.next_le ((agree.mem key ?_ end').mpr hd) lt'
      exact ((Bound.lower_le c).trans_lt lt').ne'

/-- A place contributes the same in two layouts if it is covered in both or in neither, and its
digest is the same where it is exposed. -/
theorem share_congr (covered : (y'.node m c).isCovered = (y.node m c).isCovered)
    (digest : (y.node m c).isCovered = false → y'.digest m c = y.digest m c) :
    (y'.node m c).share = (y.node m c).share := by
  unfold Node.share
  rw [covered]
  split
  · rfl
  · rename_i exposed
    exact congrArg Share.exposed (digest (by simpa using exposed))

/-- **Off the path nothing changes**: the digest that follows there is the same in both layouts. -/
theorem AgreeOff.commit_off_path (agree : y.AgreeOff y' k) (hy : y.Shaped height)
    (hy' : y'.Shaped height') (hc : c ∈ y.row m) (hc' : c ∈ y'.row m) (ne : c ≠ .upper)
    (off : c ≠ y.reached (Reach.below.passes k) m) : y'.commit h m c = y.commit h m c := by
  obtain ⟨next, other⟩ := agree.next_eq hy hy' hc hc' ne off
  have below : y'.below m c = y.below m c := by
    cases m with
    | zero => rfl
    | succ n => exact congrArg some (agree.digest (hy.nested hc) (hy'.nested hc'))
  have hn := hy.next_mem hc
  have hn' : y.next m c ∈ y'.row m := next ▸ hy'.next_mem hc'
  have covered : (y'.node m (y.next m c)).isCovered = (y.node m (y.next m c)).isCovered := by
    rw [Bool.eq_iff_iff, hy'.isCovered_iff hn', hy.isCovered_iff hn]
    by_cases end' : y.next m c = .upper
    · simp [end']
    · refine or_congr_left (agree.mem other ?_ end').symm
      exact ((Bound.lower_le c).trans_lt (Shaped.lt_next ne)).ne'
  have share := share_congr covered fun _ => agree.digest hn hn'
  unfold commit
  rw [below, next, share]

/-- **Who reads a digest of the path** is on the path, or is the left end of a new level. -/
theorem AgreeOff.path_closed_off (agree : y.AgreeOff y' k) (hy : y.Shaped height)
    (hs : site ∈ y.path (Reach.below.passes k) height) (mem : reader.2 ∈ y'.row reader.1)
    (ne : reader.2 ≠ .upper) (reads : y'.Reads reader site) (hy' : y'.Shaped height') :
    reader ∈ y.path (Reach.below.passes k) height ∨
      (reader.2 = .lower ∧ height ≤ reader.1 ∧ reader.1 < height') := by
  have hp := Reach.below.passes_downward k
  obtain ⟨level, b⟩ := site
  obtain ⟨hl, hb, -, pass⟩ := mem_path.mp hs
  have lt : b < .key k := below_passes_iff.mp pass
  rcases reads with rfl | ⟨same, -, next, exposed⟩
  · by_cases low : b = .lower
    · by_cases top : level + 1 < height
      · exact .inl (hy.path_closed hp hs (low ▸ hy.lower top) (.inl rfl))
      · exact .inr ⟨low, not_lt.mp top, hy'.lt_height mem⟩
    · exact .inl (hy.path_closed hp hs ((agree.mem lt.ne low ne).mpr mem) (.inl rfl))
  · obtain ⟨m, c⟩ := reader
    obtain rfl : m = level := same
    have next : y'.next m c = b := next
    have gap : c < b := next ▸ Shaped.lt_next ne
    have hc : c ∈ y.row m := by
      by_cases low : c = .lower
      · exact low ▸ hy.lower_mem hb
      · exact (agree.mem (gap.trans lt).ne low ne).mpr mem
    have low : b ≠ .lower := ((Bound.lower_le c).trans_lt gap).ne'
    have end' : b ≠ .upper := Bound.ne_upper_of_lt lt
    have next' : y.next m c = b := by
      refine (nextIn_eq_iff (hy.sorted m) (hy.upper_mem hb) ne).mpr ⟨hb, gap, fun d hd lt' => ?_⟩
      by_cases du : d = .upper
      · exact du ▸ Bound.le_upper _
      by_cases key : d = .key k
      · exact key ▸ lt.le
      · have hd' := (agree.mem key ((Bound.lower_le c).trans_lt lt').ne' du).mp hd
        rw [← next]
        exact hy'.next_le hd' lt'
    have hb' : b ∈ y'.row m := (agree.mem lt.ne low end').mp hb
    refine .inl (hy.path_closed hp hs hc (.inr ⟨rfl, ne, next', ?_⟩))
    rw [← Bool.not_eq_true, hy.isCovered_iff hb]
    rw [← Bool.not_eq_true, hy'.isCovered_iff hb'] at exposed
    rwa [agree.mem lt.ne low end']

end AuthenticatedSet.Layout
