import AuthenticatedSet.Proofs.Layout.Link

/-!
# Layouts: digests computed anew

A list of places is refreshed one after the other. Afterwards every digest is current if the list
holds, from right to left and upward, every place whose digest was not current and with each place
all that read its digest: then no digest is read before it is new.

* `Site.Before`      -- the order in which places are refreshed
* `Layout.Reads`     -- whose digests depend directly on whose
* `Layout.refresh`   -- the layout with these digests computed anew
* `Describes.refresh` -- the same change of a store, and `Carries.refresh` of a list
* `digest_refresh_of_mem` -- what is refreshed follows from what stands there in the end
* `current_refresh`  -- when all digests are current afterwards
-/

namespace AuthenticatedSet

/-- Further right, or at the same bound further down. -/
def Site.Before (site later : Site) : Prop :=
  later.2 < site.2 ∨ later.2 = site.2 ∧ site.1 < later.1

theorem Site.Before.asymm {site later : Site} (h : site.Before later) : ¬ later.Before site := by
  intro back
  rcases back with lt | ⟨same, lt⟩
  · rcases h with lt' | ⟨same', -⟩
    · exact lt.asymm lt'
    · exact lt.ne same'.symm
  · rcases h with lt' | ⟨-, lt'⟩
    · exact lt'.ne same.symm
    · omega

namespace Layout

/-- The digest of the one place is used for the digest of the other: from below, or from the right
if it is not covered. -/
def Reads (y : Layout) (reader site : Site) : Prop :=
  reader = (site.1 + 1, site.2) ∨
    (reader.1 = site.1 ∧ reader.2 ≠ .upper ∧ y.next reader.1 reader.2 = site.2 ∧
      (y.node site.1 site.2).isCovered = false)

/-- The layout with these digests computed anew, one after the other. -/
def refresh (y : Layout) (h : Hasher) : List Site → Layout
  | [] => y
  | site :: rest => (y.setDigest site.1 site.2 (y.commit h site.1 site.2)).refresh h rest

/-- A place with the places that its digest comes from. -/
structure Supported (y : Layout) (site : Site) : Prop where
  mem : site.2 ∈ y.row site.1
  ne : site.2 ≠ .upper
  next : y.next site.1 site.2 ∈ y.row site.1
  under : ∀ {m}, site.1 = m + 1 → site.2 ∈ y.row m

variable {y : Layout} {s : Store} {h : Hasher} {site reader : Site} {sites : List Site}
  {height level m : Nat} {b c : Bound} {d : Digest}

theorem Shaped.supported (hy : y.Shaped height) (hb : b ∈ y.row level) (ne : b ≠ .upper) :
    y.Supported (level, b) := by
  refine ⟨hb, ne, hy.next_mem hb, ?_⟩
  intro m same
  obtain rfl : level = m + 1 := same
  exact hy.nested hb

/-- Shapes do not depend on slots and digests. -/
theorem Shaped.of_eq {y' : Layout} (hy : y.Shaped height) (row : y'.row = y.row)
    (raised : y'.raised = y.raised) : y'.Shaped height where
  positive := hy.positive
  sorted := by rw [row]; exact hy.sorted
  lower := by rw [row]; exact hy.lower
  upper := by rw [row]; exact hy.upper
  beyond := by rw [row]; exact hy.beyond
  nested := by rw [row]; exact hy.nested
  marked := by rw [row, raised]; exact hy.marked

/-! ## 1. What refreshing keeps -/

@[simp] theorem row_refresh (sites : List Site) : (y.refresh h sites).row = y.row := by
  induction sites generalizing y with
  | nil => rfl
  | cons site rest ih => exact ih

@[simp] theorem slot_refresh (sites : List Site) : (y.refresh h sites).slot = y.slot := by
  induction sites generalizing y with
  | nil => rfl
  | cons site rest ih => exact ih

@[simp] theorem raised_refresh (sites : List Site) : (y.refresh h sites).raised = y.raised := by
  induction sites generalizing y with
  | nil => rfl
  | cons site rest ih => exact ih

theorem Shaped.refresh (hy : y.Shaped height) (h : Hasher) (sites : List Site) :
    (y.refresh h sites).Shaped height :=
  hy.of_eq (row_refresh sites) (raised_refresh sites)

/-- **Digests computed anew in a store** are those computed anew in its layout. -/
theorem Describes.refresh (hs : y.Describes s) (h : Hasher)
    (supported : ∀ site ∈ sites, y.Supported site) :
    ∃ s', s.refresh h (y.slots sites) = .ok s' ∧ (y.refresh h sites).Describes s' := by
  induction sites generalizing s y with
  | nil => exact ⟨s, rfl, hs⟩
  | cons site rest ih =>
    have here := supported site List.mem_cons_self
    obtain ⟨s1, ok, h1⟩ := hs.setDigest here.mem (y.commit h site.1 site.2)
    obtain ⟨s', ok', h'⟩ := ih h1 fun site hs =>
      have := supported site (List.mem_cons_of_mem _ hs)
      ⟨this.mem, this.ne, this.next, this.under⟩
    refine ⟨s', ?_, h'⟩
    show (s.digestAt h (y.slot site.1 site.2) >>= _) = _
    rw [hs.digestAt here.mem here.ne here.next here.under h, ok_bind, ok, ok_bind]
    exact ok'

/-- The same for a list, whose ends stay where they are. -/
theorem Carries.refresh {l : SkipList} (hl : y.Carries l) (h : Hasher)
    (supported : ∀ site ∈ sites, y.Supported site) :
    ∃ s', l.store.refresh h (y.slots sites) = .ok s' ∧
      (y.refresh h sites).Carries { l with store := s' } := by
  obtain ⟨s', ok, h'⟩ := hl.describes.refresh h supported
  refine ⟨s', ok, h', hl.shaped.refresh h sites, ?_, ?_⟩
  · rw [slot_refresh]
    exact hl.lower
  · rw [slot_refresh]
    exact hl.upper

/-- Refreshing gives out no slot and sets none free. -/
theorem refresh_sizes {s s' : Store} {order : List Slot} (ok : s.refresh h order = .ok s') :
    s'.nodes.size = s.nodes.size ∧ s'.free = s.free := by
  induction order generalizing s with
  | nil =>
    cases ok
    exact ⟨rfl, rfl⟩
  | cons i rest ih =>
    obtain ⟨digest, -, ok⟩ := bind_eq_ok_iff.mp ok
    obtain ⟨s1, updated, ok⟩ := bind_eq_ok_iff.mp ok
    obtain ⟨size, free⟩ := Store.update_sizes updated
    obtain ⟨size', free'⟩ := ih ok
    exact ⟨size'.trans size, free'.trans free⟩

theorem takes_refresh {s s' : Store} {order : List Slot} (ok : s.refresh h order = .ok s') :
    s.Takes s' 0 := Store.takes_of_sizes (refresh_sizes ok).1 (refresh_sizes ok).2

/-! ## 2. What refreshing brings up to date -/

/-- Who reads a digest comes after it. -/
theorem Reads.before (reads : y.Reads reader site) : site.Before reader := by
  rcases reads with rfl | ⟨-, ne, next, -⟩
  · exact .inr ⟨rfl, Nat.lt_succ_self _⟩
  · exact .inl (next ▸ Shaped.lt_next ne)

theorem not_reads_self (site : Site) : ¬ y.Reads site site :=
  fun reads => reads.before.asymm reads.before

/-- A digest that is not read does not matter. -/
theorem commit_setDigest (free : ¬ y.Reads (m, c) (level, b)) (ne : c ≠ .upper) :
    (y.setDigest level b d).commit h m c = y.commit h m c := by
  have below : (y.setDigest level b d).below m c = y.below m c := by
    cases m with
    | zero => rfl
    | succ n =>
      refine congrArg some (if_neg fun same => free (.inl ?_))
      rw [same.1, same.2]
  have share : ((y.setDigest level b d).node m (y.next m c)).share =
      (y.node m (y.next m c)).share := by
    by_cases covered : (y.node m (y.next m c)).isCovered = true
    · exact (if_pos covered).trans (if_pos covered).symm
    · refine (if_neg covered).trans (Eq.trans (congrArg _ ?_) (if_neg covered).symm)
      refine if_neg fun same => free (.inr ⟨same.1, ne, same.2, ?_⟩)
      show (y.node level b).isCovered = false
      rw [← same.1, ← same.2]
      simpa using covered
  unfold commit
  rw [below]
  exact congrArg _ share

/-- Off the places that are refreshed digests stay as they are. -/
theorem digest_refresh_of_not_mem (out : (m, c) ∉ sites) :
    (y.refresh h sites).digest m c = y.digest m c := by
  induction sites generalizing y with
  | nil => rfl
  | cons site rest ih =>
    obtain ⟨other, out⟩ := not_or.mp (mt List.mem_cons.mpr out)
    refine (ih out).trans (if_neg fun same => other ?_)
    exact Prod.ext same.1 same.2

/-- What follows for a place that reads none of them stays as it is. -/
theorem commit_refresh (free : ∀ site ∈ sites, ¬ y.Reads (m, c) site) (ne : c ≠ .upper) :
    (y.refresh h sites).commit h m c = y.commit h m c := by
  induction sites generalizing y with
  | nil => rfl
  | cons site rest ih =>
    have first : ¬ y.Reads (m, c) (site.1, site.2) := free site List.mem_cons_self
    refine (ih fun site' hs reads => ?_).trans (commit_setDigest first ne)
    exact free site' (List.mem_cons_of_mem _ hs) reads

/-- **The digest of a place that is refreshed follows from those beside and below it**, as they are
in the end, if the places come in order: then no digest is read before it is new. -/
theorem digest_refresh_of_mem (ordered : sites.Pairwise Site.Before) (hs : (m, c) ∈ sites)
    (ne : c ≠ .upper) : (y.refresh h sites).digest m c = (y.refresh h sites).commit h m c := by
  induction sites generalizing y with
  | nil => cases hs
  | cons site rest ih =>
    obtain ⟨first, ordered⟩ := List.pairwise_cons.mp ordered
    by_cases later : (m, c) ∈ rest
    · exact ih ordered later
    · obtain rfl := (List.mem_cons.mp hs).resolve_right later
      have free : ∀ site ∈ rest, ¬ (y.setDigest m c (y.commit h m c)).Reads (m, c) site :=
        fun site hs reads => (first site hs).asymm reads.before
      rw [refresh, digest_refresh_of_not_mem later, commit_refresh free ne,
        commit_setDigest (not_reads_self _) ne]
      exact if_pos ⟨rfl, rfl⟩

/-- **When refreshing brings all digests up to date**: the places come in order, with each one all
that read it, and the digests of the other places are current already. -/
theorem current_refresh (ordered : sites.Pairwise Site.Before)
    (closed : ∀ site ∈ sites, ∀ reader, reader.2 ∈ y.row reader.1 → reader.2 ≠ .upper →
      y.Reads reader site → reader ∈ sites)
    (others : ∀ level b, b ∈ y.row level → b ≠ .upper → (level, b) ∉ sites →
      y.digest level b = y.commit h level b) :
    (y.refresh h sites).Current h := by
  intro level b hb ne
  rw [row_refresh] at hb
  by_cases hs : (level, b) ∈ sites
  · exact digest_refresh_of_mem ordered hs ne
  · have free : ∀ site ∈ sites, ¬ y.Reads (level, b) site := fun site hs' reads =>
      hs (closed site hs' (level, b) hb ne reads)
    rw [digest_refresh_of_not_mem hs, commit_refresh free ne]
    exact others level b hb ne hs

end Layout

end AuthenticatedSet
