import AuthenticatedSet.SkipList.Trail
import Mathlib.Data.List.Find
import Mathlib.Data.List.Sort
import Mathlib.Order.MinMax

/-!
# Bounds in order

The bounds of one level form a strictly ascending list, a *row*. This file has what the later ones
need about rows, and nothing about stores.

* `Bound` is linearly ordered, with the two ends as its least and greatest element
* `nextIn row b`    -- the first bound of the row above `b`; the upper end where there is none
* `lastIn row p`    -- the last bound of the row with the property; the lower end where there is none
* `Downward p`      -- a property that passes on to smaller bounds; the searches stop by such ones
-/

namespace AuthenticatedSet

/-! ## 1. The order -/

namespace Bound

instance : LinearOrder Bound where
  le_refl a := Int.le_refl a.position
  le_trans _ _ _ h h' := Int.le_trans (le_iff.mp h) (le_iff.mp h')
  lt_iff_le_not_ge a b := by
    rw [lt_iff, le_iff, le_iff]
    omega
  le_antisymm _ _ h h' := position_inj.mp (Int.le_antisymm (le_iff.mp h) (le_iff.mp h'))
  le_total a b := Int.le_total a.position b.position
  toDecidableLE := inferInstance
  toDecidableEq := inferInstance
  toDecidableLT := inferInstance

theorem lower_lt_key (k : Key) : lower < key k := by
  have := k.le_toInt
  rw [lt_iff, position, position]
  omega

theorem key_lt_upper (k : Key) : key k < upper := by
  have := k.toInt_lt
  rw [lt_iff, position, position]
  omega

theorem lower_lt_upper : lower < upper := by decide

theorem lower_le (b : Bound) : lower ≤ b := by
  cases b with
  | lower => exact le_refl _
  | key k => exact (lower_lt_key k).le
  | upper => exact lower_lt_upper.le

theorem le_upper (b : Bound) : b ≤ upper := by
  cases b with
  | lower => exact lower_lt_upper.le
  | key k => exact (key_lt_upper k).le
  | upper => exact le_refl _

theorem lt_upper {b : Bound} (h : b ≠ upper) : b < upper := lt_of_le_of_ne (le_upper b) h

theorem ne_upper_of_lt {b c : Bound} (h : b < c) : b ≠ upper :=
  (lt_of_lt_of_le h (le_upper c)).ne

theorem key_lt_key {k k' : Key} : key k < key k' ↔ k < k' :=
  Int64.lt_iff_toInt_lt.symm

theorem key_le_key {k k' : Key} : key k ≤ key k' ↔ k ≤ k' :=
  Int64.le_iff_toInt_le.symm

end Bound

/-! ## 2. The next bound of a row -/

/-- The first bound of a row above `b`. -/
def nextIn (row : List Bound) (b : Bound) : Bound := (row.find? (b < ·)).getD .upper

section Next

variable {row : List Bound} {b c : Bound}

theorem nextIn_mem (h : .upper ∈ row) (b : Bound) : nextIn row b ∈ row := by
  unfold nextIn
  cases found : row.find? (b < ·) with
  | none => exact h
  | some c => exact List.mem_of_find?_eq_some found

theorem lt_nextIn (h : b ≠ .upper) : b < nextIn row b := by
  unfold nextIn
  cases found : row.find? (b < ·) with
  | none => exact Bound.lt_upper h
  | some c => simpa using List.find?_some found

theorem nextIn_le (sorted : row.Pairwise (· < ·)) (hc : c ∈ row) (h : b < c) :
    nextIn row b ≤ c := by
  unfold nextIn
  cases found : row.find? (b < ·) with
  | none => exact absurd (List.find?_eq_none.mp found c hc) (by simpa using h)
  | some d =>
    obtain ⟨-, before, after, rfl, skipped⟩ := List.find?_eq_some_iff_append.mp found
    rcases List.mem_append.mp hc with hc | hc
    · exact absurd h (by simpa using skipped c hc)
    rcases List.mem_cons.mp hc with rfl | hc
    · exact le_refl _
    · exact ((List.pairwise_cons.mp (List.pairwise_append.mp sorted).2.1).1 c hc).le

/-- **What the next bound is**: the least one above, on a row with its upper end. -/
theorem nextIn_eq_iff (sorted : row.Pairwise (· < ·)) (upper : .upper ∈ row) (hb : b ≠ .upper) :
    nextIn row b = c ↔ c ∈ row ∧ b < c ∧ ∀ d ∈ row, b < d → c ≤ d := by
  constructor
  · intro same
    subst same
    exact ⟨nextIn_mem upper b, lt_nextIn hb, fun d hd h => nextIn_le sorted hd h⟩
  · intro h
    obtain ⟨hc, h, least⟩ := h
    exact le_antisymm (nextIn_le sorted hc h) (least _ (nextIn_mem upper b) (lt_nextIn hb))

/-- Of a row, what lies at or above a bound of it is that bound and what lies above. -/
theorem filter_le_eq_cons (sorted : row.Pairwise (· < ·)) (hb : b ∈ row) :
    row.filter (b ≤ ·) = b :: row.filter (b < ·) := by
  induction row with
  | nil => simp at hb
  | cons first rest ih =>
    obtain ⟨least, sorted⟩ := List.pairwise_cons.mp sorted
    rcases List.mem_cons.mp hb with rfl | hb
    · rw [List.filter_cons_of_pos (by simp), List.filter_cons_of_neg (by simp)]
      congr 1
      refine List.filter_congr fun d hd => ?_
      simp [least d hd, (least d hd).le]
    · have := least b hb
      rw [List.filter_cons_of_neg (by simpa using this), ih sorted hb,
        List.filter_cons_of_neg (by simpa using this.le)]

theorem filter_lt_eq_filter_le (sorted : row.Pairwise (· < ·)) (hb : b ≠ .upper) :
    row.filter (b < ·) = row.filter (nextIn row b ≤ ·) := by
  refine List.filter_congr fun d hd => ?_
  rw [decide_eq_decide]
  exact ⟨fun h => nextIn_le sorted hd h, fun h => lt_of_lt_of_le (lt_nextIn hb) h⟩

/-- A bound that a sparser row lacks can be skipped on the way to the next one of that row. -/
theorem nextIn_skip {sparse : List Bound} (sorted : row.Pairwise (· < ·)) (sub : sparse ⊆ row)
    (hb : b ≠ .upper) (absent : nextIn row b ∉ sparse) :
    nextIn sparse (nextIn row b) = nextIn sparse b := by
  have above : sparse.find? (nextIn row b < ·) = sparse.find? (b < ·) := by
    refine List.find?_congr fun d hd => decide_eq_decide.mpr ⟨(lt_nextIn hb).trans, fun lt => ?_⟩
    exact lt_of_le_of_ne (nextIn_le sorted (sub hd) lt) fun same => absent (same ▸ hd)
  exact congrArg (Option.getD · Bound.upper) above

/-! A bound put into a row, or taken out of it, changes what comes next only just before it. -/

theorem sorted_orderedInsert (sorted : row.Pairwise (· < ·)) (new : b ∉ row) :
    (row.orderedInsert (· ≤ ·) b).Pairwise (· < ·) := by
  have ascending := (sorted.imp le_of_lt).orderedInsert b row
  have nodup : (row.orderedInsert (· ≤ ·) b).Nodup :=
    (List.perm_orderedInsert (· ≤ ·) b row).nodup_iff.mpr
      (List.nodup_cons.mpr ⟨new, sorted.imp ne_of_lt⟩)
  exact (ascending.and nodup).imp fun h => lt_of_le_of_ne h.1 h.2

theorem nextIn_orderedInsert_of_le (h : b ≤ c) :
    nextIn (row.orderedInsert (· ≤ ·) b) c = nextIn row c := by
  have skip : decide (c < b) = false := decide_eq_false h.not_gt
  unfold nextIn
  congr 1
  induction row with
  | nil => simp [skip]
  | cons first rest ih =>
    rw [List.orderedInsert_cons]
    split
    · rw [List.find?_cons, skip]
    · rw [List.find?_cons, List.find?_cons, ih]

theorem nextIn_orderedInsert_of_lt (sorted : row.Pairwise (· < ·)) (upper : .upper ∈ row)
    (new : b ∉ row) (h : c < b) :
    nextIn (row.orderedInsert (· ≤ ·) b) c = min (nextIn row c) b := by
  have hc := Bound.ne_upper_of_lt h
  refine (nextIn_eq_iff (sorted_orderedInsert sorted new) ?_ hc).mpr ⟨?_, ?_, fun d hd lt => ?_⟩
  · exact (List.mem_orderedInsert _).mpr (.inr upper)
  · rw [List.mem_orderedInsert]
    rcases min_choice (nextIn row c) b with same | same
    · right
      rw [same]
      exact nextIn_mem upper c
    · exact .inl same
  · exact lt_min (lt_nextIn hc) h
  · rcases (List.mem_orderedInsert _).mp hd with rfl | hd
    · exact min_le_right _ _
    · exact (min_le_left _ _).trans (nextIn_le sorted hd lt)

theorem nextIn_filter_ne (sorted : row.Pairwise (· < ·)) (upper : .upper ∈ row) (hb : b ≠ .upper)
    (hc : c ≠ .upper) :
    nextIn (row.filter (· ≠ b)) c = if nextIn row c = b then nextIn row b else nextIn row c := by
  have upper' : Bound.upper ∈ row.filter (· ≠ b) :=
    List.mem_filter.mpr ⟨upper, by simpa using hb.symm⟩
  refine (nextIn_eq_iff (sorted.filter _) upper' hc).mpr ?_
  split
  · rename_i same
    refine ⟨?_, ?_, fun d hd lt => ?_⟩
    · exact List.mem_filter.mpr ⟨nextIn_mem upper b, by simpa using (lt_nextIn hb).ne'⟩
    · exact (same ▸ lt_nextIn hc : c < b).trans (lt_nextIn hb)
    · obtain ⟨hd, ne⟩ := List.mem_filter.mp hd
      have le : b ≤ d := same ▸ nextIn_le sorted hd lt
      exact nextIn_le sorted hd (lt_of_le_of_ne le (Ne.symm (by simpa using ne)))
  · rename_i other
    refine ⟨?_, lt_nextIn hc, fun d hd lt => ?_⟩
    · exact List.mem_filter.mpr ⟨nextIn_mem upper c, by simpa using other⟩
    · exact nextIn_le sorted (List.mem_filter.mp hd).1 lt

end Next

/-! ## 3. The last bound that passes -/

/-- The property passes on to smaller bounds, and holds of the lower end but not of the upper. -/
structure Downward (p : Bound → Bool) : Prop where
  lower : p .lower = true
  upper : p .upper = false
  mono : ∀ {b c}, b ≤ c → p c = true → p b = true

theorem Reach.passes_downward (reach : Reach) (k : Key) : Downward (reach.passes k) := by
  cases reach with
  | below =>
    refine ⟨decide_eq_true (Bound.lower_lt_key k), ?_, fun h hc => ?_⟩
    · exact decide_eq_false (Bound.key_lt_upper k).not_gt
    · exact decide_eq_true (lt_of_le_of_lt h (of_decide_eq_true hc))
  | upTo =>
    refine ⟨decide_eq_true (Bound.lower_lt_key k).le, ?_, fun h hc => ?_⟩
    · exact decide_eq_false (Bound.key_lt_upper k).not_ge
    · exact decide_eq_true (le_trans h (of_decide_eq_true hc))

/-- The last bound of a row with the property. -/
def lastIn (row : List Bound) (p : Bound → Bool) : Bound := (row.filter p).getLastD .lower

section Last

variable {row : List Bound} {p : Bound → Bool} {b c : Bound}

theorem le_getLastD (sorted : row.Pairwise (· < ·)) (hb : b ∈ row) (c : Bound) :
    b ≤ row.getLastD c := by
  induction row generalizing b c with
  | nil => simp at hb
  | cons first rest ih =>
    obtain ⟨least, tail⟩ := List.pairwise_cons.mp sorted
    rw [List.getLastD_cons]
    rcases List.mem_cons.mp hb with rfl | hb
    · cases rest with
      | nil => exact le_refl _
      | cons second rest =>
        exact (least second List.mem_cons_self).le.trans (ih tail List.mem_cons_self b)
    · exact ih tail hb first

theorem le_lastIn (sorted : row.Pairwise (· < ·)) (hb : b ∈ row) (pass : p b = true) :
    b ≤ lastIn row p :=
  le_getLastD (sorted.filter p) (List.mem_filter.mpr ⟨hb, pass⟩) _

theorem lastIn_pass (row : List Bound) (hp : Downward p) : p (lastIn row p) = true := by
  rcases List.mem_cons.mp (List.getLastD_mem_cons (l := row.filter p) (a := .lower)) with h | h
  · unfold lastIn
    rw [h]
    exact hp.lower
  · exact (List.mem_filter.mp h).2

theorem lastIn_mem (lower : .lower ∈ row) (p : Bound → Bool) : lastIn row p ∈ row := by
  rcases List.mem_cons.mp (List.getLastD_mem_cons (l := row.filter p) (a := .lower)) with h | h
  · unfold lastIn
    rw [h]
    exact lower
  · exact (List.mem_filter.mp h).1

theorem lastIn_ne_upper (row : List Bound) (hp : Downward p) : lastIn row p ≠ .upper := by
  intro h
  have := lastIn_pass row hp
  rw [h, hp.upper] at this
  cases this

/-- **What the last bound is**: the greatest one with the property. -/
theorem lastIn_eq (sorted : row.Pairwise (· < ·)) (lower : .lower ∈ row) (hp : Downward p)
    (hc : c ∈ row) (pass : p c = true) (greatest : ∀ d ∈ row, p d = true → d ≤ c) :
    lastIn row p = c :=
  le_antisymm (greatest _ (lastIn_mem lower p) (lastIn_pass row hp)) (le_lastIn sorted hc pass)

/-- What comes next after the last bound does not pass. -/
theorem nextIn_lastIn_not_pass (sorted : row.Pairwise (· < ·)) (upper : .upper ∈ row)
    (hp : Downward p) : p (nextIn row (lastIn row p)) = false := by
  by_contra pass
  have le := le_lastIn sorted (nextIn_mem upper (lastIn row p)) (by simpa using pass)
  exact absurd (lt_nextIn (lastIn_ne_upper row hp)) le.not_gt

/-- The last bound of a row is where the property changes. -/
theorem lastIn_eq_of_next (sorted : row.Pairwise (· < ·)) (lower : .lower ∈ row) (hp : Downward p)
    (hc : c ∈ row) (pass : p c = true) (stop : p (nextIn row c) = false) : lastIn row p = c := by
  refine lastIn_eq sorted lower hp hc pass fun d hd hd' => ?_
  by_contra h
  have := hp.mono (nextIn_le sorted hd (not_le.mp h)) hd'
  rw [stop] at this
  cases this

end Last

end AuthenticatedSet
