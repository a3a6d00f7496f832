import AuthenticatedSet.Proofs.Completeness
import AuthenticatedSet.Proofs.Run

/-!
# Proofs and confirmations of different moments

A proof taken at one moment of a run is checked against a confirmation taken at another one. It is
stale exactly when the set has been changed in between, the proof being the older one; otherwise the
root digests of the two moments decide. Versions count changes, so the moments are compared by the
answers of the operations between them.

* `count_take_lt_iff`        -- counts of two prefixes, by what lies between their ends
* `Start.change_iff_answer`  -- an operation changes the set exactly when it answers yes
* `verdict_across_time`      -- the whole statement
-/

namespace AuthenticatedSet

/-- Of two prefixes the second counts more yes exactly when there is one behind the end of the first
and not behind its own. -/
theorem count_take_lt_iff {answers : List Bool} {s t : Nat} :
    (answers.take s).count true < (answers.take t).count true ↔
      ∃ i, s ≤ i ∧ i < t ∧ answers[i]? = some true := by
  rcases Nat.lt_or_ge s t with lt | ge
  · have split : answers.take t = answers.take s ++ (answers.take t).drop s := by
      conv_lhs => rw [← List.take_append_drop s (answers.take t), List.take_take,
        Nat.min_eq_left lt.le]
    rw [split, List.count_append, Nat.lt_add_right_iff_pos, List.count_pos_iff,
      List.mem_iff_getElem?]
    constructor
    · intro h
      obtain ⟨j, found⟩ := h
      rw [List.getElem?_drop, List.getElem?_take, Option.ite_none_right_eq_some] at found
      exact ⟨s + j, Nat.le_add_right s j, found⟩
    · intro h
      obtain ⟨i, from', upto, found⟩ := h
      refine ⟨i - s, ?_⟩
      rw [List.getElem?_drop, List.getElem?_take, Nat.add_sub_of_le from',
        Option.ite_none_right_eq_some]
      exact ⟨upto, found⟩
  · have le : (answers.take t).count true ≤ (answers.take s).count true :=
      (List.take_sublist_take_left ge).count_le true
    exact ⟨fun lt => absurd lt le.not_gt, fun ⟨i, from', upto, _⟩ => absurd upto (by omega)⟩

namespace Operation

theorem answers_take (set : Finset Key) (ops : List Operation) (n : Nat) :
    answers set (ops.take n) = (answers set ops).take n := by
  induction n generalizing set ops with
  | zero => rfl
  | succ n ih =>
    cases ops with
    | nil => rfl
    | cons op ops => exact congrArg (op.answer set :: ·) (ih _ ops)

theorem getElem?_answers (set : Finset Key) (ops : List Operation) (i : Nat) :
    (answers set ops)[i]? = ops[i]?.map (answer ((ops.take i).foldl apply set)) := by
  induction i generalizing set ops with
  | zero => cases ops <;> rfl
  | succ i ih =>
    cases ops with
    | nil => rfl
    | cons op ops => exact ih _ ops

end Operation

/-- An operation changes the set exactly when it answers yes. -/
theorem Start.change_iff_answer (start : Start) (ops : List Operation) (i : Nat) :
    start.keysAfter (ops.take (i + 1)) ≠ start.keysAfter (ops.take i) ↔
      (Operation.answers start.keys ops)[i]? = some true := by
  rw [Operation.getElem?_answers, Start.keysAfter, Start.keysAfter, List.take_add_one,
    List.foldl_append]
  cases ops[i]? with
  | none => simp
  | some op => simp [Operation.answer_eq_true_iff]

/-- The earlier moments of a run. -/
theorem Run.exists_moment {h : Nat → Hasher} {start : Start} {ops : List Operation}
    {answers : List Bool} {l : SkipList} (run : Run h start ops answers l) {n : Nat}
    (le : n ≤ ops.length) : ∃ l', Run h start (ops.take n) (answers.take n) l' := by
  induction run with
  | start ok fits =>
    obtain rfl := Nat.le_zero.mp le
    exact ⟨_, .start ok fits⟩
  | @step ops answers _ _ _ before ok fits ih =>
    have same : answers.length = ops.length := before.length_answers
    rw [List.length_append, List.length_singleton] at le
    rcases Nat.le_succ_iff.mp le with le | rfl
    · rw [List.take_append_of_le_length le, List.take_append_of_le_length (same ▸ le)]
      exact ih le
    · rw [List.take_of_length_le (by simp), List.take_of_length_le (by simp [same])]
      exact ⟨_, before.step ok fits⟩

/-- **The verdict across time**: a proof of any key, taken at one moment of a run, is stale for the
confirmation of another moment exactly when some operation from the first moment up to the second
has changed the set; otherwise it is correct if the root digests of the two moments are equal, and
incorrect if not. The moments are counted in operations done, in either order. -/
theorem verdict_across_time {h : Hasher} (comm : h.Commutative) {start : Start}
    {ops : List Operation} {s t : Nat} {answers answers' : List Bool} {l l' : SkipList}
    (run : Run (fun _ => h) start (ops.take s) answers l)
    (run' : Run (fun _ => h) start (ops.take t) answers' l')
    (few : answers.count true < 18446744073709551616)
    (few' : answers'.count true < 18446744073709551616) :
    ∃ c c', l.confirmation = .ok c ∧ l'.confirmation = .ok c' ∧ ∀ k, ∃ p, l.prove h k = .ok p ∧
      (c'.pathVerdict p h = .stale ↔ ∃ i, s ≤ i ∧ i < t ∧
        start.keysAfter (ops.take (i + 1)) ≠ start.keysAfter (ops.take i)) ∧
      (c'.pathVerdict p h ≠ .stale → c'.pathVerdict p h =
        if c.digest = c'.digest then .correct else .incorrect) := by
  obtain ⟨c, confirmed, -, proofs⟩ := run.reachable.prove_leads_to_root comm
  obtain ⟨c', confirmed', version', -⟩ := run'.reachable.prove_leads_to_root comm
  refine ⟨c, c', confirmed, confirmed', fun k => ?_⟩
  obtain ⟨p, proved, version, root⟩ := proofs k
  obtain ⟨-, -, -, answered, -⟩ := run.exists_layout
  obtain ⟨-, -, -, answered', -⟩ := run'.exists_layout
  have older : p.version < c'.version ↔ ∃ i, s ≤ i ∧ i < t ∧
      start.keysAfter (ops.take (i + 1)) ≠ start.keysAfter (ops.take i) := by
    rw [version, version', UInt64.lt_iff_toNat_lt, run.version_toNat few, run'.version_toNat few',
      answered, answered', Operation.answers_take, Operation.answers_take, count_take_lt_iff]
    simp only [start.change_iff_answer]
  refine ⟨p, proved, Confirmation.pathVerdict_eq_stale_iff.trans older, fun fresh => ?_⟩
  rw [Confirmation.pathVerdict_of_root root,
    if_neg (mt Confirmation.pathVerdict_eq_stale_iff.mpr fresh)]

/-- A proof from before two changes is stale afterwards; one from before an insertion that finds its
key is not, nor is one that is newer than the confirmation. -/
theorem verdict_across_time_sample :
    Hasher.byteSum.Commutative ∧
      Run (fun _ => .byteSum) .empty sampleOps [true, true, true, false] sample ∧
      ∃ l1 l3 p1 p3 p c1 c, Run (fun _ => .byteSum) .empty (sampleOps.take 1) [true] l1 ∧
        Run (fun _ => .byteSum) .empty (sampleOps.take 3) [true, true, true] l3 ∧
        l1.prove .byteSum 5 = .ok p1 ∧ l3.prove .byteSum 5 = .ok p3 ∧
        sample.prove .byteSum 5 = .ok p ∧ l1.confirmation = .ok c1 ∧ sample.confirmation = .ok c ∧
        c.pathVerdict p1 .byteSum = .stale ∧ c.pathVerdict p3 .byteSum ≠ .stale ∧
        c1.pathVerdict p .byteSum ≠ .stale := by
  have comm := Hasher.byteSum_commutative
  obtain ⟨l1, run1⟩ := run_sample.exists_moment (n := 1) (by decide)
  obtain ⟨l3, run3⟩ := run_sample.exists_moment (n := 3) (by decide)
  have run4 : Run (fun _ => .byteSum) .empty (sampleOps.take 4) _ sample := run_sample
  obtain ⟨c1, c, confirmed1, confirmed, verdict1⟩ :=
    verdict_across_time comm run1 run4 (by decide) (by decide)
  obtain ⟨c3, c', confirmed3, confirmed', verdict3⟩ :=
    verdict_across_time comm run3 run4 (by decide) (by decide)
  obtain ⟨c'', c1', confirmed'', confirmed1', verdict4⟩ :=
    verdict_across_time comm run4 run1 (by decide) (by decide)
  obtain rfl := Except.ok.inj (confirmed.symm.trans confirmed')
  obtain rfl := Except.ok.inj (confirmed1.symm.trans confirmed1')
  obtain ⟨p1, proved1, stale1, -⟩ := verdict1 5
  obtain ⟨p3, proved3, stale3, -⟩ := verdict3 5
  obtain ⟨p, proved, stale4, -⟩ := verdict4 5
  refine ⟨comm, run_sample, l1, l3, p1, p3, p, c1, c, run1, run3, proved1, proved3, proved,
    confirmed1, confirmed, ?_, ?_, ?_⟩
  · exact stale1.mpr ⟨2, by decide, by decide, by decide⟩
  · rw [Ne, stale3]
    rintro ⟨i, from', upto, change⟩
    obtain rfl : i = 3 := by omega
    exact change (by decide)
  · rw [Ne, stale4]
    rintro ⟨i, from', upto, -⟩
    omega

end AuthenticatedSet
