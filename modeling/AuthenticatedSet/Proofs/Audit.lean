import AuthenticatedSet.Proofs.Search
import AuthenticatedSet.SkipList.Audit

/-!
# The audit and the reading operations

What only reads a list goes through on every list with a layout, and says what the layout says.

* `Of.audit`              -- the audit has nothing to object when all digests are current
* `Carries.confirmation`  -- version and the digest of the top left end
* `Carries.keys`          -- the keys of the bottom level; `Shaped.keys_sorted` that they ascend
-/

namespace AuthenticatedSet

/-! ## 1. Checks that pass -/

namespace Check

variable {α β : Type}

/-- A check in which nothing is objected and no fault is met. -/
def Passes (check : Check α) (a : α) : Prop := check = ExceptT.mk (.ok (.ok a))

theorem passes_pure (a : α) : (pure a : Check α).Passes a := rfl

theorem Passes.bind {check : Check α} {a : α} (h : check.Passes a) {next : α → Check β} {b : β}
    (h' : (next a).Passes b) : (check >>= next).Passes b := by
  cases h
  exact h'

theorem passes_lift {x : Except Fault α} {a : α} (h : x = .ok a) :
    (liftM x : Check α).Passes a := by
  cases h
  rfl

theorem passes_require {condition : Bool} (h : condition = true) (violation : Violation) :
    (Check.require condition violation).Passes () := by
  cases h
  rfl

end Check

/-- The key of a bound, if it is one. -/
def Bound.key? : Bound → Option Key
  | .key k => some k
  | .lower | .upper => none

theorem Bound.key?_eq_some_iff {b : Bound} {k : Key} : b.key? = some k ↔ b = .key k := by
  cases b <;> simp [key?]

namespace Layout

variable {y : Layout} {s : Store} {l : SkipList} {h : Hasher} {height level limit m : Nat}
  {b c : Bound} {k : Key}

/-! ## 2. The audit -/

/-- The down link of a node passes. -/
theorem Describes.auditDown (hs : y.Describes s) (hy : y.Shaped height) (hb : b ∈ y.row level) :
    (s.auditDown level (y.node level b)).Passes () := by
  cases level with
  | zero => exact Check.passes_require rfl .bottomLinksDown
  | succ m =>
    have hm := hy.nested hb
    have down : (y.node (m + 1) b).down = y.slot m b := rfl
    rw [Store.auditDown, if_neg (Nat.succ_ne_zero m), down]
    refine (Check.passes_require (decide_eq_true (hs.slot_ne_nil hm)) _).bind ?_
    exact (Check.passes_lift (hs.get hm)).bind (Check.passes_require (decide_eq_true rfl) _)

/-- A mark says what the audit compares it with. -/
theorem Shaped.continued_eq (hy : y.Shaped height) (hb : b ∈ y.row level) :
    decide ((y.node level b).continued = (y.row (level + 1)).contains b) = true := by
  rw [decide_eq_true_eq, Bool.eq_iff_iff, List.contains_iff_mem]
  exact hy.marked hb

/-- The right end of a level passes. -/
theorem Describes.auditRun_upper (hs : y.Describes s) (hy : y.Shaped height)
    (hb : .upper ∈ y.row level) (h : Hasher) (limit : Nat) :
    (s.auditRun h level (y.row (level + 1)) limit (y.slot level .upper)).Passes
      (y.slot level .upper, [.upper]) := by
  have bound : (y.node level .upper).bound = .upper := rfl
  have right : y.right level .upper = .nil := right_upper
  cases limit
  all_goals
    refine (Check.passes_lift (hs.get hb)).bind ?_
    refine (Check.passes_require (hy.continued_eq hb) _).bind ?_
    refine (hs.auditDown hy hb).bind ?_
    rw [if_pos bound, show (y.node level .upper).right = .nil from right]
    exact (Check.passes_require rfl _).bind (Check.passes_pure _)

/-- Any other node passes if the rest of the level does. -/
theorem Describes.auditRun_move (hs : y.Describes s) (hy : y.Shaped height)
    (current : y.Current h) (hb : b ∈ y.row level) (ne : b ≠ .upper) {last : Slot}
    {bounds : List Bound}
    (rest : (s.auditRun h level (y.row (level + 1)) limit (y.slot level (y.next level b))).Passes
      (last, bounds)) :
    (s.auditRun h level (y.row (level + 1)) (limit + 1) (y.slot level b)).Passes
      (last, b :: bounds) := by
  have hn := hy.next_mem hb
  have right : (y.node level b).right = y.slot level (y.next level b) := right_of_ne ne
  have digest : s.digestAt h (y.slot level b) = .ok (y.commit h level b) :=
    hs.digestAt hb ne hn (hy.supported hb ne).under h
  refine (Check.passes_lift (hs.get hb)).bind ?_
  refine (Check.passes_require (hy.continued_eq hb) _).bind ?_
  refine (hs.auditDown hy hb).bind ?_
  have bound : (y.node level b).bound ≠ .upper := ne
  rw [if_neg bound, right]
  refine (Check.passes_lift (hs.get hn)).bind ?_
  refine (Check.passes_require (decide_eq_true (Shaped.lt_next ne)) _).bind ?_
  refine (Check.passes_lift digest).bind ?_
  refine (Check.passes_require (decide_eq_true (current level b hb ne)) _).bind ?_
  exact rest.bind (Check.passes_pure _)

theorem filter_upper_le {row : List Bound} (sorted : row.Pairwise (· < ·)) (hb : .upper ∈ row) :
    row.filter (.upper ≤ ·) = [.upper] := by
  rw [filter_le_eq_cons sorted hb, List.filter_eq_nil_iff.mpr fun c _ => ?_]
  simpa using Bound.le_upper c

/-- From a bound on, a level is that bound and what is from the next one on. -/
theorem Shaped.filter_le (hy : y.Shaped height) (hb : b ∈ y.row level) (ne : b ≠ .upper) :
    (y.row level).filter (b ≤ ·) = b :: (y.row level).filter (y.next level b ≤ ·) := by
  rw [filter_le_eq_cons (hy.sorted level) hb, filter_lt_eq_filter_le (hy.sorted level) ne]
  rfl

/-- **One level of the audit**, from any of its nodes to the right end. -/
theorem Describes.auditRun (hs : y.Describes s) (hy : y.Shaped height) (current : y.Current h)
    (hb : b ∈ y.row level) (enough : ((y.row level).filter (b ≤ ·)).length ≤ limit + 1) :
    (s.auditRun h level (y.row (level + 1)) limit (y.slot level b)).Passes
      (y.slot level .upper, (y.row level).filter (b ≤ ·)) := by
  have sorted := hy.sorted level
  induction limit generalizing b with
  | zero =>
    have last : b = .upper := by
      by_contra ne
      rw [hy.filter_le hb ne, filter_le_eq_cons sorted (hy.next_mem hb)] at enough
      simp at enough
    subst last
    rw [filter_upper_le sorted hb]
    exact hs.auditRun_upper hy hb h 0
  | succ limit ih =>
    by_cases last : b = .upper
    · subst last
      rw [filter_upper_le sorted hb]
      exact hs.auditRun_upper hy hb h (limit + 1)
    · rw [hy.filter_le hb last] at enough ⊢
      exact hs.auditRun_move hy current hb last
        (ih (hy.next_mem hb) (Nat.le_of_succ_le_succ enough))

/-- The levels from this one down pass. -/
theorem Of.auditLevels (hl : y.Of l) (current : y.Current h) (below : level ≤ l.height) :
    (l.auditLevels h level (y.down level .lower) (y.row level)).Passes () := by
  induction level with
  | zero => exact Check.passes_require rfl .levelsBelow
  | succ level ih =>
    have hb : Bound.lower ∈ y.row level := hl.shaped.lower (by omega)
    have all : (y.row level).filter (Bound.lower ≤ ·) = y.row level :=
      List.filter_eq_self.mpr fun c _ => decide_eq_true (Bound.lower_le c)
    have enough : ((y.row level).filter (Bound.lower ≤ ·)).length ≤ l.store.nodes.size + 1 := by
      rw [all]
      exact (hl.describes.length_row_le (hl.shaped.sorted level)).trans (Nat.le_succ _)
    have run := hl.describes.auditRun hl.shaped current hb enough
    rw [all] at run
    have start : y.down (level + 1) .lower = y.slot level .lower := rfl
    have complete : (y.row (level + 1)).find? (!(y.row level).contains ·) = none := by
      refine List.find?_eq_none.mpr fun c hc => ?_
      simpa using hl.shaped.nested hc
    have rest := ih (by omega)
    have top : level + 1 = l.height → y.slot level .upper = l.top.upper := fun same => by
      rw [hl.upper, ← same]
      rfl
    rw [SkipList.auditLevels, start]
    refine (Check.passes_require (decide_eq_true (hl.describes.slot_ne_nil hb)) _).bind ?_
    refine (Check.passes_lift (hl.describes.get hb)).bind ?_
    refine (Check.passes_require (decide_eq_true rfl) _).bind ?_
    refine run.bind ?_
    dsimp only
    rw [complete]
    -- the count is checked on the bottom level
    by_cases bottom : level = 0
    · subst bottom
      have count : (y.row 0).length - 2 = l.size := by
        rw [hl.size]
        rfl
      split
      · refine (Check.passes_require (decide_eq_true (top ‹_›)) _).bind ?_
        exact (Check.passes_require (decide_eq_true count) _).bind rest
      · exact (Check.passes_require (decide_eq_true count) _).bind rest
    · rw [if_neg bottom]
      split
      · exact (Check.passes_require (decide_eq_true (top ‹_›)) _).bind rest
      · exact rest

/-- **The audit has nothing to object** to a list with a layout and current digests. -/
theorem Of.audit (hl : y.Of l) (current : y.Current h) : (l.audit h).Passes () := by
  have positive := hl.shaped.positive
  obtain ⟨top, hh⟩ := Nat.exists_eq_add_one.mpr positive
  have all := hl.auditLevels current le_rfl
  rw [hl.shaped.beyond le_rfl] at all
  have lower : y.down l.height .lower = l.top.lower := by
    rw [hl.lower, hh]
    rfl
  rwa [lower] at all

/-! ## 3. The root and the keys -/

theorem Carries.rootDigest (hl : y.Carries l) :
    l.rootDigest = .ok (y.digest (l.height - 1) .lower) := by
  rw [SkipList.rootDigest, hl.lower, hl.describes.get hl.top_lower_mem]
  rfl

theorem Carries.confirmation (hl : y.Carries l) :
    l.confirmation = .ok ⟨l.version, y.digest (l.height - 1) .lower⟩ := by
  rw [SkipList.confirmation, hl.rootDigest]
  rfl

/-- The keys of a level, in order. -/
def keysOn (y : Layout) (level : Nat) : List Key :=
  (y.row level).filterMap Bound.key?

theorem mem_keysOn : k ∈ y.keysOn level ↔ .key k ∈ y.row level := by
  simp only [keysOn, List.mem_filterMap, Bound.key?_eq_some_iff, exists_eq_right]

/-- The keys of the bottom level, in order. -/
def keys (y : Layout) : List Key :=
  (y.row 0).filterMap Bound.key?

theorem mem_keys : k ∈ y.keys ↔ .key k ∈ y.row 0 := mem_keysOn

/-- Of an ascending row the keys ascend. -/
theorem filterMap_key_sorted {row : List Bound} (sorted : row.Pairwise (· < ·)) :
    (row.filterMap Bound.key?).Pairwise (· < ·) := by
  refine sorted.filterMap _ fun b c lt k hk k' hk' => ?_
  cases b <;> cases hk
  cases c <;> cases hk'
  exact Bound.key_lt_key.mp lt

theorem Shaped.keys_sorted (hy : y.Shaped height) : y.keys.Pairwise (· < ·) :=
  filterMap_key_sorted (hy.sorted 0)

/-- A store has no fewer slots than levels. -/
theorem Describes.height_le (hs : y.Describes s) (hy : y.Shaped height) :
    height ≤ s.nodes.size := by
  have nodup : ((List.range height).map fun m => ((m, .lower) : Site)).Nodup :=
    List.Nodup.map (fun _ _ same => (Prod.mk.inj same).1) List.nodup_range
  have mem : ∀ site ∈ (List.range height).map fun m => ((m, .lower) : Site),
      site.2 ∈ y.row site.1 := by
    intro site hsite
    obtain ⟨m, hm, rfl⟩ := List.mem_map.mp hsite
    exact hy.lower (List.mem_range.mp hm)
  simpa using hs.length_le nodup mem

/-- Going down from a left end leads to the one of the bottom level. -/
theorem Describes.lowest (hs : y.Describes s) (hy : y.Shaped height) (below : level < height)
    (enough : level ≤ limit) :
    s.lowest limit (y.slot level .lower) = .ok (y.node 0 .lower) := by
  induction limit generalizing level with
  | zero =>
    obtain rfl : level = 0 := Nat.le_zero.mp enough
    rw [Store.lowest, hs.get (hy.lower below)]
    rfl
  | succ limit ih =>
    cases level with
    | zero =>
      rw [Store.lowest, hs.get (hy.lower below)]
      rfl
    | succ level =>
      have hm : Bound.lower ∈ y.row level := hy.lower (by omega)
      have down : (y.node (level + 1) .lower).down = y.slot level .lower := rfl
      rw [Store.lowest, hs.get (hy.lower below), ok_bind, down, if_neg (hs.slot_ne_nil hm)]
      exact ih (by omega) (by omega)

/-- The keys from a bound of a level on. -/
theorem Describes.keysFrom (hs : y.Describes s) (hy : y.Shaped height) (hb : b ∈ y.row level)
    (ne : b ≠ .lower) (enough : ((y.row level).filter (b ≤ ·)).length ≤ limit + 1) :
    s.keysFrom limit (y.slot level b) =
      .ok (((y.row level).filter (b ≤ ·)).filterMap Bound.key?) := by
  have sorted := hy.sorted level
  induction limit generalizing b with
  | zero =>
    cases b with
    | lower => exact absurd rfl ne
    | upper =>
      rw [filter_upper_le sorted hb, Store.keysFrom, hs.get hb]
      rfl
    | key k =>
      have last := Bound.key_lt_upper k
      rw [hy.filter_le hb last.ne, filter_le_eq_cons sorted (hy.next_mem hb)] at enough
      simp at enough
  | succ limit ih =>
    cases b with
    | lower => exact absurd rfl ne
    | upper =>
      rw [filter_upper_le sorted hb, Store.keysFrom, hs.get hb]
      rfl
    | key k =>
      have last := Bound.key_lt_upper k
      have right : (y.node level (.key k)).right = y.slot level (y.next level (.key k)) :=
        right_of_ne last.ne
      rw [hy.filter_le hb last.ne] at enough ⊢
      have rest := ih (hy.next_mem hb)
        ((Bound.lower_lt_key k).trans (Shaped.lt_next last.ne)).ne'
        (Nat.le_of_succ_le_succ enough)
      rw [Store.keysFrom, hs.get hb, ok_bind]
      show (s.keysFrom limit (y.node level (.key k)).right >>= _) = _
      rw [right, rest]
      rfl

/-- The keys of a level, read from its left end. -/
theorem Describes.keysOn (hs : y.Describes s) (hy : y.Shaped height) (below : level < height) :
    s.keysFrom s.nodes.size (y.node level .lower).right = .ok (y.keysOn level) := by
  have sorted := hy.sorted level
  have hb := hy.lower below
  have right : (y.node level .lower).right = y.slot level (y.next level .lower) :=
    right_of_ne Bound.lower_lt_upper.ne
  have all : (y.row level).filter (Bound.lower ≤ ·) = y.row level :=
    List.filter_eq_self.mpr fun c _ => decide_eq_true (Bound.lower_le c)
  have split : y.row level = .lower :: (y.row level).filter (y.next level .lower ≤ ·) := by
    conv_lhs => rw [← all, hy.filter_le hb Bound.lower_lt_upper.ne]
  have enough : ((y.row level).filter (y.next level .lower ≤ ·)).length ≤ s.nodes.size + 1 :=
    (List.length_filter_le _ _).trans ((hs.length_row_le sorted).trans (Nat.le_succ _))
  rw [right, hs.keysFrom hy (hy.next_mem hb) (Shaped.lt_next (by decide)).ne' enough, Layout.keysOn]
  conv_rhs => rw [split]
  rfl

/-- **The keys of a list** are those of its bottom level. -/
theorem Carries.keys (hl : y.Carries l) : l.keys = .ok y.keys := by
  have positive := hl.shaped.positive
  rw [SkipList.keys, hl.lower, hl.describes.lowest hl.shaped (by omega)
    ((Nat.sub_le _ _).trans (hl.describes.height_le hl.shaped)), ok_bind]
  exact hl.describes.keysOn hl.shaped positive

end Layout

end AuthenticatedSet
