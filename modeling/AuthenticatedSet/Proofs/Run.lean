import AuthenticatedSet.Proofs.Audit
import AuthenticatedSet.Proofs.Reachable
import Mathlib.Data.Finset.Card

/-!
# Runs in step with a set

A run starts with the empty list or with one built from keys, and goes on with insertions and
erasures. Beside it runs a finite set of keys that goes through the same operations and says what
each of them has to answer. The list shows this set at every moment, gives its answers, and counts
the answers that were yes.

* `Operation`, `Operation.answers` -- insertions and erasures, and what a set answers to them
* `Start`, `Run`                   -- runs, with their answers and the list that they have led to
* `SkipList.Follows`               -- a list shows a set and answers what the set does
* `Of.holds_of_perform`            -- one step: the layout holds what the set does
* `Run.exists_layout`              -- all steps
* `run_refines_set`                -- the whole statement

The hasher may be another one at each step: which keys are there does not depend on digests.
-/

namespace AuthenticatedSet

/-! ## 1. Operations -/

/-- An insertion or an erasure. An insertion brings the coins that it may draw from. -/
inductive Operation where
  | insert (key : Key) (coins : Coins)
  | erase (key : Key)

namespace Operation

/-- The set after the operation. -/
def apply (set : Finset Key) : Operation → Finset Key
  | insert k _ => Insert.insert k set
  | erase k => set.erase k

/-- What the operation has to answer: whether it finds something to do. -/
def answer (set : Finset Key) : Operation → Bool
  | insert k _ => k ∉ set
  | erase k => k ∈ set

/-- The answers to several operations, one after the other. -/
def answers : Finset Key → List Operation → List Bool
  | _, [] => []
  | set, op :: ops => op.answer set :: answers (op.apply set) ops

variable {set : Finset Key} {op : Operation} {ops : List Operation}

/-- The answer is yes exactly when the set is another one afterwards. -/
theorem answer_eq_true_iff : op.answer set = true ↔ op.apply set ≠ set := by
  cases op with
  | insert k coins => simp [answer, apply]
  | erase k => simp [answer, apply]

theorem answers_append_singleton :
    answers set (ops ++ [op]) = answers set ops ++ [op.answer (ops.foldl apply set)] := by
  induction ops generalizing set with
  | nil => rfl
  | cons first ops ih => exact congrArg (first.answer set :: ·) ih

end Operation

/-- The operation on a list. -/
def SkipList.perform (l : SkipList) (h : Hasher) : Operation → Except Fault Change
  | .insert k coins => do
    let (change, _) ← l.insert h k coins
    return change
  | .erase k => l.erase h k

theorem SkipList.perform_insert_eq_ok_iff {l : SkipList} {h : Hasher} {k : Key} {coins : Coins}
    {change : Change} : l.perform h (.insert k coins) = .ok change ↔
      ∃ coins', l.insert h k coins = .ok (change, coins') := by
  constructor
  · intro ok
    obtain ⟨⟨change', coins'⟩, ok, same⟩ := bind_eq_ok_iff.mp ok
    cases same
    exact ⟨coins', ok⟩
  · rintro ⟨coins', ok⟩
    rw [perform, ok]
    rfl

/-! ## 2. Runs -/

/-- What a run starts with. -/
inductive Start where
  | empty
  | ofKeys (keys : List Key) (coins : Coins)

namespace Start

/-- The set of keys at the start. -/
def keys : Start → Finset Key
  | empty => ∅
  | ofKeys keys _ => keys.toFinset

/-- The list at the start. -/
def list (h : Hasher) : Start → Except Fault SkipList
  | empty => return .empty h
  | ofKeys keys coins => do
    let (l, _) ← SkipList.ofKeys h keys coins
    return l

theorem list_ofKeys_eq_ok_iff {h : Hasher} {keys : List Key} {coins : Coins} {l : SkipList} :
    (ofKeys keys coins).list h = .ok l ↔
      ∃ coins' events, SkipList.ofKeys h keys coins = .ok (l, coins', events) := by
  constructor
  · intro ok
    obtain ⟨⟨l', coins', events⟩, ok, same⟩ := bind_eq_ok_iff.mp ok
    cases same
    exact ⟨coins', events, ok⟩
  · rintro ⟨coins', events, ok⟩
    rw [list, ok]
    rfl

/-- The nodes of that list stay below the limit of slot numbers. -/
def HasRoom : Start → Prop
  | empty => True
  | ofKeys keys coins => Layout.builtNodes keys coins < 4294967295

/-- The set of keys after some operations. -/
def keysAfter (start : Start) (ops : List Operation) : Finset Key :=
  ops.foldl Operation.apply start.keys

end Start

/-- The runs from this start: what was done, what was answered, and the list that this has led to.
The start has the hasher `h 0` and the operation number `n`, counted from 1, the hasher `h n`. -/
inductive Run (h : Nat → Hasher) (start : Start) :
    List Operation → List Bool → SkipList → Prop
  | start {l : SkipList} (ok : start.list (h 0) = .ok l) (fits : l.store.Fits) :
      Run h start [] [] l
  | step {ops : List Operation} {answers : List Bool} {l : SkipList} {op : Operation}
      {change : Change} (before : Run h start ops answers l)
      (ok : l.perform (h (ops.length + 1)) op = .ok change) (fits : change.list.store.Fits) :
      Run h start (ops ++ [op]) (answers ++ [change.changed]) change.list

/-- The list shows this set, whatever is asked about it, and answers what the set does. An operation
that finds nothing to do returns the list as it is, with nothing to report, and draws no coin. A key
that is not there can be put in as long as the store, with its tower, stays below the limit of slot
numbers. -/
structure SkipList.Follows (l : SkipList) (set : Finset Key) : Prop where
  contains : ∀ k, l.contains k = .ok (decide (k ∈ set))
  keys : ∃ keys, l.keys = .ok keys ∧ keys.Pairwise (· < ·) ∧ ∀ k, k ∈ keys ↔ k ∈ set
  size : l.size = set.card
  isEmpty : l.isEmpty = decide (set = ∅)
  insert : ∀ h k coins, k ∈ set ∨ l.store.HasRoom (l.towerNodes coins.draw.1) →
    ∃ change coins', l.insert h k coins = .ok (change, coins') ∧ change.list.store.Fits ∧
      (change.changed = true ↔ k ∉ set) ∧
      (change.changed = false → change = ⟨false, l, []⟩ ∧ coins' = coins)
  erase : ∀ h k, ∃ change, l.erase h k = .ok change ∧ change.list.store.Fits ∧
    (change.changed = true ↔ k ∈ set) ∧ (change.changed = false → change = ⟨false, l, []⟩)

/-! ## 3. The set of a layout -/

namespace Layout

/-- The bottom level has the keys of the set. -/
def Holds (y : Layout) (set : Finset Key) : Prop := ∀ k, .key k ∈ y.row 0 ↔ k ∈ set

variable {y y' : Layout} {l : SkipList} {h : Hasher} {height : Nat} {k : Key}
  {set : Finset Key} {op : Operation} {coins coins' : Coins} {change : Change}

/-- A bottom row is its keys and the two ends. -/
theorem Shaped.length_row (hy : y.Shaped height) : (y.row 0).length = y.keys.length + 2 := by
  have nodup : (y.row 0).Nodup := (hy.sorted 0).imp ne_of_lt
  have nodup' : (.lower :: .upper :: y.keys.map Bound.key).Nodup := by
    have keys : (y.keys.map Bound.key).Nodup :=
      List.pairwise_map.mpr (hy.keys_sorted.imp fun lt => (Bound.key_lt_key.mpr lt).ne)
    simpa using keys
  have perm : (y.row 0).Perm (.lower :: .upper :: y.keys.map Bound.key) := by
    refine (List.perm_ext_iff_of_nodup nodup nodup').mpr fun c => ?_
    cases c with
    | lower => simp [hy.lower hy.positive]
    | upper => simp [hy.upper hy.positive]
    | key k => simp [mem_keys]
  simpa using perm.length_eq

theorem Shaped.length_keys (hy : y.Shaped height) (holds : y.Holds set) :
    y.keys.length = set.card := by
  have nodup : y.keys.Nodup :=
    hy.keys_sorted.imp fun lt => ne_of_apply_ne Bound.key (Bound.key_lt_key.mpr lt).ne
  rw [← List.toFinset_card_of_nodup nodup]
  congr 1
  ext k
  rw [List.mem_toFinset, mem_keys, holds]

theorem Of.size_eq_card (hl : y.Of l) (holds : y.Holds set) : l.size = set.card := by
  have count := hl.size
  rw [hl.shaped.length_row, hl.shaped.length_keys holds] at count
  omega

theorem Inserts.holds (ins : y.Inserts y' h l k coins coins' change) (holds : y.Holds set) :
    y'.Holds (insert k set) := by
  intro k'
  rw [Finset.mem_insert]
  by_cases hk : .key k ∈ y.row 0
  · obtain ⟨-, rfl, -⟩ := ins.present hk
    rw [holds]
    refine (or_iff_right_of_imp ?_).symm
    rintro rfl
    exact (holds k').mp hk
  · obtain ⟨places, -⟩ := ins.absent hk
    rw [places.inserted.mem, holds, or_comm]
    simp

theorem Erases.holds (erases : y.Erases y' h l k change) (holds : y.Holds set) :
    y'.Holds (set.erase k) := by
  intro k'
  rw [erases.erased.mem, holds, Finset.mem_erase, and_comm]
  simp

/-- **One step**: the layout holds what the set does, and what is answered is the answer of the
set. -/
theorem Of.holds_of_perform (hl : y.Of l) (holds : y.Holds set)
    (ok : l.perform h op = .ok change) (fits : change.list.store.Fits) :
    ∃ y' : Layout, y'.Of change.list ∧ y'.Holds (op.apply set) ∧
      change.changed = op.answer set ∧
      change.list.version = l.version + if op.answer set then 1 else 0 := by
  cases op with
  | insert k coins =>
    obtain ⟨coins', ok⟩ := SkipList.perform_insert_eq_ok_iff.mp ok
    obtain ⟨y', ins⟩ := hl.exists_of_insert ok fits
    refine ⟨y', ins.list, ins.holds holds, ?_⟩
    by_cases hk : k ∈ set
    · obtain ⟨rfl, -, -⟩ := ins.present ((holds k).mpr hk)
      simp [Operation.answer, hk]
    · obtain ⟨places, -⟩ := ins.absent fun mem => hk ((holds k).mp mem)
      simp [Operation.answer, hk, places.changed, places.version]
  | erase k =>
    obtain ⟨y', erases⟩ := hl.exists_of_erase ok
    refine ⟨y', erases.list, erases.holds holds, ?_⟩
    by_cases hk : k ∈ set
    · obtain ⟨changed, version⟩ := erases.present ((holds k).mpr hk)
      simp [Operation.answer, hk, changed, version]
    · obtain rfl := erases.absent fun mem => hk ((holds k).mp mem)
      simp [Operation.answer, hk]

/-- **A list follows the set of its layout.** -/
theorem Of.follows (hl : y.Of l) (holds : y.Holds set) : l.Follows set where
  contains k := by rw [hl.contains, decide_eq_decide.mpr (holds k)]
  keys := ⟨_, hl.keys, hl.shaped.keys_sorted, fun k => mem_keys.trans (holds k)⟩
  size := hl.size_eq_card holds
  isEmpty := by
    rw [SkipList.isEmpty, decide_eq_decide, hl.size_eq_card holds, Finset.card_eq_zero]
  insert h k coins room := by
    have room' : .key k ∉ y.row 0 → l.store.HasRoom (l.towerNodes coins.draw.1) :=
      fun absent => room.resolve_left fun mem => absent ((holds k).mpr mem)
    obtain ⟨change, coins', y', ok, ins⟩ := hl.insert k coins room' h
    refine ⟨change, coins', ok, ins.list.describes.sound.fits, ?_⟩
    by_cases hk : k ∈ set
    · obtain ⟨rfl, -, rfl⟩ := ins.present ((holds k).mpr hk)
      simp [hk]
    · obtain ⟨places, -⟩ := ins.absent fun mem => hk ((holds k).mp mem)
      simp [hk, places.changed]
  erase h k := by
    obtain ⟨change, y', ok, erases⟩ := hl.erase h k
    refine ⟨change, ok, erases.list.describes.sound.fits, ?_⟩
    by_cases hk : k ∈ set
    · obtain ⟨changed, -⟩ := erases.present ((holds k).mpr hk)
      simp [hk, changed]
    · obtain rfl := erases.absent fun mem => hk ((holds k).mp mem)
      simp [hk]

theorem fits_empty (h : Hasher) : (SkipList.empty h).store.Fits :=
  show 2 < 4294967295 by decide

/-- A list to start with can be made if there is room for its nodes. -/
theorem exists_list (h : Hasher) {start : Start} (room : start.HasRoom) :
    ∃ l, start.list h = .ok l ∧ l.store.Fits := by
  cases start with
  | empty => exact ⟨_, rfl, fits_empty h⟩
  | ofKeys keys coins =>
    obtain ⟨l, y, ok, built⟩ := exists_ofKeys h keys coins room
    exact ⟨l, Start.list_ofKeys_eq_ok_iff.mpr ⟨_, _, ok⟩, built.list.describes.sound.fits⟩

theorem exists_of_start {start : Start} (ok : start.list h = .ok l) (fits : l.store.Fits) :
    ∃ y : Layout, y.Of l ∧ y.Holds start.keys ∧ l.version = 0 := by
  cases start with
  | empty =>
    cases ok
    obtain ⟨y, built⟩ := exists_empty h (.ofWords [])
    exact ⟨y, built.list, fun k => by rw [built.mem]; simp [Start.keys], built.version⟩
  | ofKeys keys coins =>
    obtain ⟨coins', events, ok⟩ := Start.list_ofKeys_eq_ok_iff.mp ok
    obtain ⟨y, built⟩ := exists_of_ofKeys ok fits
    exact ⟨y, built.list, fun k => by rw [built.mem]; simp [Start.keys], built.version⟩

end Layout

/-! ## 4. The statement -/

namespace Run

variable {h : Nat → Hasher} {start : Start} {ops : List Operation} {answers : List Bool}
  {l : SkipList}

open Layout in
/-- **All steps**: after any run the layout of the list holds the set that has gone through the same
operations, the answers were those of that set, and the version counts those that were yes. -/
theorem exists_layout (run : Run h start ops answers l) :
    ∃ y : Layout, y.Of l ∧ y.Holds (start.keysAfter ops) ∧
      answers = Operation.answers start.keys ops ∧ l.version = .ofNat (answers.count true) := by
  induction run with
  | start ok fits =>
    obtain ⟨y, hl, holds, version⟩ := exists_of_start ok fits
    exact ⟨y, hl, holds, rfl, version⟩
  | @step _ _ _ _ change before ok fits ih =>
    obtain ⟨y, hl, holds, answered, version⟩ := ih
    obtain ⟨y', hl', holds', answer, version'⟩ := hl.holds_of_perform holds ok fits
    refine ⟨y', hl', ?_, ?_, ?_⟩
    · rw [Start.keysAfter, List.foldl_append]
      exact holds'
    · rw [Operation.answers_append_singleton, answered, answer]
      rfl
    · rw [version', version, ← answer, List.count_append, UInt64.ofNat_add]
      cases change.changed <;> rfl

/-- A run of no operation is a start. -/
theorem list_of_nil (run : Run h start [] answers l) : start.list (h 0) = .ok l := by
  generalize none : ([] : List Operation) = ops at run
  cases run with
  | start ok _ => exact ok
  | step => simp at none

/-- What the last step of a run was. -/
theorem exists_last {op : Operation} (run : Run h start (ops ++ [op]) answers l) :
    ∃ answers' l' change, Run h start ops answers' l' ∧
      l'.perform (h (ops.length + 1)) op = .ok change ∧ change.list = l := by
  generalize some : ops ++ [op] = all at run
  cases run with
  | start => simp at some
  | step before ok _ =>
    obtain ⟨rfl, last⟩ := List.append_inj' some rfl
    obtain ⟨rfl, -⟩ := List.cons.inj last
    exact ⟨_, _, _, before, ok, rfl⟩

/-- **What was done decides what list a run has led to.** -/
theorem unique {answers' : List Bool} {l' : SkipList} (run : Run h start ops answers l)
    (run' : Run h start ops answers' l') : l = l' := by
  induction run generalizing answers' l' with
  | start ok _ => exact Except.ok.inj (ok.symm.trans run'.list_of_nil)
  | step _ ok _ ih =>
    obtain ⟨_, _, change', before', ok', rfl⟩ := run'.exists_last
    obtain rfl := ih before'
    rw [Except.ok.inj (ok.symm.trans ok')]

theorem length_answers (run : Run h start ops answers l) : answers.length = ops.length := by
  induction run with
  | start => rfl
  | step _ _ _ ih => simp [ih]

theorem version_toNat (run : Run h start ops answers l)
    (few : answers.count true < 18446744073709551616) :
    l.version.toNat = answers.count true := by
  obtain ⟨-, -, -, -, version⟩ := run.exists_layout
  rw [version, UInt64.toNat_ofNat_of_lt' few]

/-- With one hasher all along, what a run leads to is reachable. -/
theorem reachable {h : Hasher} (run : Run (fun _ => h) start ops answers l) : Reachable h l := by
  induction run with
  | start ok fits =>
    cases start with
    | empty =>
      cases ok
      exact .empty
    | ofKeys keys coins =>
      obtain ⟨coins', events, ok⟩ := Start.list_ofKeys_eq_ok_iff.mp ok
      exact .ofKeys ok fits
  | @step _ _ _ op _ _ ok fits ih =>
    cases op with
    | insert k coins =>
      obtain ⟨coins', ok⟩ := SkipList.perform_insert_eq_ok_iff.mp ok
      exact .insert ih ok fits
    | erase k => exact .erase ih ok

end Run

/-- **A list refines a set.** A list can be built from any keys as long as the store stays below the
limit of slot numbers. After any run, with any hashers, the answers were those of the set that has
gone through the same operations, the list follows this set, and its version is the number of
answers that were yes, if they are fewer than a version can count. -/
theorem run_refines_set (h : Nat → Hasher) (start : Start) :
    (start.HasRoom → ∃ l, Run h start [] [] l) ∧
    ∀ ops answers l, Run h start ops answers l →
      answers = Operation.answers start.keys ops ∧ l.Follows (start.keysAfter ops) ∧
      (answers.count true < 18446744073709551616 → l.version.toNat = answers.count true) := by
  constructor
  · intro room
    obtain ⟨l, ok, fits⟩ := Layout.exists_list (h 0) room
    exact ⟨l, .start ok fits⟩
  · intro ops answers l run
    obtain ⟨y, hl, holds, answered, -⟩ := run.exists_layout
    exact ⟨answered, hl.follows holds, run.version_toNat⟩

/-- Two keys put in, the first one taken off, and the second one put in again in vain. -/
def sampleOps : List Operation :=
  [.insert 5 (.ofWords [1]), .insert 3 (.ofWords []), .erase 5, .insert 3 (.ofWords [1])]

theorem run_sample :
    Run (fun _ => .byteSum) .empty sampleOps [true, true, true, false] sample := by
  have run : (do
      let first ← (SkipList.empty .byteSum).perform .byteSum (.insert 5 (.ofWords [1]))
      let second ← first.list.perform .byteSum (.insert 3 (.ofWords []))
      let third ← second.list.perform .byteSum (.erase 5)
      let fourth ← third.list.perform .byteSum (.insert 3 (.ofWords [1]))
      return ([first, second, third, fourth].map fun (change : Change) =>
        (change.changed, change.list.store.nodes.size), fourth.list)) =
      .ok ([(true, 6), (true, 7), (true, 7), (false, 7)], sample) := by decide +kernel
  obtain ⟨first, ok1, run⟩ := bind_eq_ok_iff.mp run
  obtain ⟨second, ok2, run⟩ := bind_eq_ok_iff.mp run
  obtain ⟨third, ok3, run⟩ := bind_eq_ok_iff.mp run
  obtain ⟨fourth, ok4, run⟩ := bind_eq_ok_iff.mp run
  simp only [List.map_cons, List.map_nil, pure_eq_ok, Except.ok.injEq, Prod.mk.injEq,
    List.cons.injEq, and_true] at run
  obtain ⟨⟨⟨yes1, size1⟩, ⟨yes2, size2⟩, ⟨yes3, size3⟩, no4, size4⟩, last⟩ := run
  have run0 : Run (fun _ => .byteSum) .empty [] [] (.empty .byteSum) :=
    .start rfl (Layout.fits_empty _)
  have run1 := run0.step ok1 (by unfold Store.Fits; omega)
  have run2 := run1.step ok2 (by unfold Store.Fits; omega)
  have run3 := run2.step ok3 (by unfold Store.Fits; omega)
  have run4 := run3.step ok4 (by unfold Store.Fits; omega)
  rw [yes1, yes2, yes3, no4, last] at run4
  exact run4

theorem run_refines_set_sample :
    (∃ l, Run (fun _ => .byteSum) (.ofKeys [3, 1, 3] (.ofWords [1])) [] [] l) ∧
      Run (fun _ => .byteSum) .empty sampleOps [true, true, true, false] sample ∧
      sample.Follows {3} ∧ sample.version.toNat = 3 := by
  obtain ⟨build, -⟩ := run_refines_set (fun _ => .byteSum) (.ofKeys [3, 1, 3] (.ofWords [1]))
  obtain ⟨-, follow⟩ := run_refines_set (fun _ => .byteSum) .empty
  obtain ⟨-, follows, version⟩ := follow _ _ _ run_sample
  have keys : Start.empty.keysAfter sampleOps = {3} := by decide
  have room : Layout.builtNodes [3, 1, 3] (.ofWords [1]) < 4294967295 := by decide
  exact ⟨build room, run_sample, keys ▸ follows, version (by decide)⟩

end AuthenticatedSet
