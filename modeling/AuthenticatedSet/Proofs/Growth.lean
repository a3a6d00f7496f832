import AuthenticatedSet.Proofs.Coins
import AuthenticatedSet.Proofs.Line
import AuthenticatedSet.Proofs.Run

/-!
# How a list grows

Along a run the coins are drawn from one stream. An insertion that finds something to do takes the
heads in front and the tail behind them, and their number is the height of the tower that it leaves;
building does the same for each of its keys, in ascending order; nothing else takes a coin. A tower
stands as it was put up until its key is taken off, and the list has as many levels as the highest
tower ever drawn has needed.

* `Start.towers`, `.Raised`    -- the towers on record
* `Start.drawn`                -- the heights on record, in the order in which they were drawn
* `Run.exists_layout_growth`   -- the layout of a list has the towers and levels on record
* `StreamRun`                  -- the runs whose draws all come from one stream
* `coins_settle_towers`        -- the whole statement
-/

namespace AuthenticatedSet

/-! ## 1. What is on record -/

namespace Start

/-- The towers at the start: each key with the height that it has drawn, in ascending order. -/
def towers : Start → List (Key × Nat)
  | empty => []
  | ofKeys keys coins => (ascending keys).zip (Layout.heights keys coins)

/-- The key has got a tower of this height, and has not been taken off since: by an insertion with
something to do, or at the start. -/
def Raised (start : Start) (record : List (Operation × Bool)) (k : Key) (t : Nat) : Prop :=
  (∃ before coins coins' after, record = before ++ (.insert k coins, true) :: after ∧
    coins.Flips t coins' ∧ ∀ answer, (.erase k, answer) ∉ after) ∨
  ((k, t) ∈ start.towers ∧ ∀ answer, (.erase k, answer) ∉ record)

end Start

/-- The height that an operation with this answer has drawn, if it has drawn one. -/
def Operation.drew : Operation × Bool → Option Nat
  | (.insert _ coins, true) => some coins.draw.1
  | (.insert _ _, false) | (.erase _, _) => none

/-- The heights that have been drawn, in this order. -/
def Start.drawn (start : Start) (record : List (Operation × Bool)) : List Nat :=
  start.towers.map Prod.snd ++ record.filterMap Operation.drew

section Record

variable {start : Start} {record : List (Operation × Bool)} {op : Operation} {answer : Bool}
  {k : Key} {t : Nat}

/-- What is on record about a key after one operation more. -/
theorem Start.Raised.of_concat (raised : start.Raised (record ++ [(op, answer)]) k t) :
    (∃ coins coins', op = .insert k coins ∧ answer = true ∧ coins.Flips t coins') ∨
      (start.Raised record k t ∧ op ≠ .erase k) := by
  rcases raised with ⟨before, coins, coins', after, split, flips, none⟩ | ⟨first, none⟩
  · rcases List.eq_nil_or_concat after with rfl | ⟨after, last, rfl⟩
    · obtain ⟨-, same⟩ := List.append_inj' split rfl
      obtain ⟨rfl, rfl⟩ := Prod.mk.inj (List.cons.inj same).1
      exact .inl ⟨coins, coins', rfl, rfl, flips⟩
    · rw [List.concat_eq_append] at split none
      have split' : record ++ [(op, answer)] =
          (before ++ (.insert k coins, true) :: after) ++ [last] := by
        simpa using split
      obtain ⟨rfl, same⟩ := List.append_inj' split' rfl
      obtain rfl := (List.cons.inj same).1
      refine .inr ⟨.inl ⟨before, coins, coins', after, rfl, flips, fun answer' mem => ?_⟩, ?_⟩
      · exact none answer' (List.mem_append_left _ mem)
      · rintro rfl
        exact none answer (by simp)
  · refine .inr ⟨.inr ⟨first, fun answer' mem => none answer' (List.mem_append_left _ mem)⟩, ?_⟩
    rintro rfl
    exact none answer (by simp)

theorem Start.drawn_concat : start.drawn (record ++ [(op, answer)]) =
    start.drawn record ++ (Operation.drew (op, answer)).toList := by
  rw [drawn, drawn, List.filterMap_append, List.append_assoc]
  congr 2

end Record

/-! ## 2. What a layout keeps of it -/

namespace Layout

/-- The layout of a list with so many levels has the towers and levels that are on record. -/
structure Grows (y : Layout) (height : Nat) (start : Start) (record : List (Operation × Bool)) :
    Prop where
  height : height = (start.drawn record).foldl max 0 + 1
  towers : ∀ {k t}, start.Raised record k t → ∀ m, .key k ∈ y.row m ↔ m ≤ t

variable {y y' : Layout} {l : SkipList} {h : Hasher} {keys : List Key} {coins coins' : Coins}
  {k : Key} {t m : Nat} {start : Start} {record : List (Operation × Bool)} {change : Change}

/-- No key has two heights at the start. -/
theorem zip_heights_inj (hk : (k, t) ∈ (ascending keys).zip (heights keys coins))
    {t' : Nat} (hk' : (k, t') ∈ (ascending keys).zip (heights keys coins)) : t = t' := by
  have nodup : (((ascending keys).zip (heights keys coins)).map Prod.fst).Nodup := by
    rw [List.map_fst_zip (length_heights keys coins).ge]
    exact (ascending_sorted keys).imp Int64.ne_of_lt
  exact (Prod.mk.inj (List.inj_on_of_nodup_map nodup hk hk' rfl)).2

/-- What is built has the towers that its keys have drawn. -/
theorem Builds.grows (builds : y.Builds h l keys coins)
    (towers : start.towers = (ascending keys).zip (heights keys coins)) :
    y.Grows l.height start [] where
  height := by
    rw [builds.height, Start.drawn, towers, List.map_snd_zip (length_heights keys coins).le]
    simp
  towers {k t} raised m := by
    have first : (k, t) ∈ (ascending keys).zip (heights keys coins) := by
      rcases raised with ⟨before, _, _, after, split, -⟩ | ⟨first, -⟩
      · simp at split
      · exact towers ▸ first
    rw [builds.towers, startColumns_eq]
    constructor
    · rintro ⟨column, mem, rfl, le⟩
      obtain ⟨⟨k', t'⟩, tower, rfl⟩ := List.mem_map.mp mem
      rwa [zip_heights_inj first tower]
    · intro le
      exact ⟨_, List.mem_map_of_mem first, rfl, le⟩

/-- The operations keep it, each in its own way: an insertion adds the tower that it has drawn. -/
theorem Grows.insert (grows : y.Grows l.height start record) (hl : y.Of l)
    (ins : y.Inserts y' h l k coins coins' change) :
    y'.Grows change.list.height start (record ++ [(.insert k coins, change.changed)]) := by
  by_cases hk : .key k ∈ y.row 0
  · obtain ⟨rfl, rfl, -⟩ := ins.present hk
    refine ⟨?_, fun raised => ?_⟩
    · rw [Start.drawn_concat, grows.height]
      simp [Operation.drew]
    · rcases raised.of_concat with ⟨_, _, -, no, -⟩ | ⟨raised, -⟩
      · cases no
      · exact grows.towers raised
  · obtain ⟨places, -⟩ := ins.absent hk
    refine ⟨?_, fun {k' t} raised m => ?_⟩
    · rw [Start.drawn_concat, places.changed, places.height, grows.height]
      simp [Operation.drew]
    · have row : .key k' ∈ y'.row m ↔ .key k' ∈ y.row m ∨ (m ≤ coins.draw.1 ∧ k' = k) := by
        rw [places.inserted.mem]
        simp
      rw [row]
      rcases raised.of_concat with ⟨_, _, same, -, flips⟩ | ⟨raised, -⟩
      · obtain ⟨rfl, rfl⟩ := Operation.insert.inj same
        have none : .key k ∉ y.row m := fun mem => hk (hl.shaped.nested_le mem (Nat.zero_le m))
        rw [flips.unique coins.flips_draw]
        simp [none]
      · have stands := grows.towers raised
        have other : k' ≠ k := by
          rintro rfl
          exact hk ((stands 0).mpr (Nat.zero_le t))
        rw [stands m]
        simp [other]

/-- An erasure takes its own key off and leaves the other towers and all levels. -/
theorem Grows.erase (grows : y.Grows l.height start record)
    (erases : y.Erases y' h l k change) :
    y'.Grows change.list.height start (record ++ [(.erase k, change.changed)]) where
  height := by
    rw [Start.drawn_concat, erases.height, grows.height]
    simp [Operation.drew]
  towers {k' t} raised m := by
    rcases raised.of_concat with ⟨_, _, same, -, -⟩ | ⟨raised, other⟩
    · cases same
    · have ne : k' ≠ k := by
        rintro rfl
        exact other rfl
      rw [erases.erased.mem, grows.towers raised m]
      simp [ne]

end Layout

/-! ## 3. Runs -/

section Runs

open Layout

variable {h : Nat → Hasher} {start : Start} {ops : List Operation} {answers : List Bool}
  {l : SkipList} {first coins coins' : Coins} {k : Key}

/-- A list that is started with is what is built from the keys of its towers. -/
theorem exists_builds_of_start {h : Hasher} (ok : start.list h = .ok l) (fits : l.store.Fits) :
    ∃ (y : Layout) (keys : List Key) (coins : Coins), y.Builds h l keys coins ∧
      start.towers = (ascending keys).zip (heights keys coins) := by
  cases start with
  | empty =>
    cases ok
    obtain ⟨y, builds⟩ := exists_empty h (.ofWords [])
    exact ⟨y, [], _, builds, rfl⟩
  | ofKeys keys coins =>
    obtain ⟨coins', events, ok⟩ := Start.list_ofKeys_eq_ok_iff.mp ok
    obtain ⟨y, builds⟩ := exists_of_ofKeys ok fits
    exact ⟨y, keys, coins, builds, rfl⟩

/-- **All steps**: after any run the layout of the list has the towers and levels on record. -/
theorem Run.exists_layout_growth (run : Run h start ops answers l) :
    ∃ y : Layout, y.Of l ∧ y.Grows l.height start (ops.zip answers) := by
  induction run with
  | start ok fits =>
    obtain ⟨y, keys, coins, builds, towers⟩ := exists_builds_of_start ok fits
    exact ⟨y, builds.list, builds.grows towers⟩
  | @step ops answers l op change before ok fits ih =>
    obtain ⟨y, hl, grows⟩ := ih
    rw [List.zip_append before.length_answers.symm]
    cases op with
    | insert k coins =>
      obtain ⟨coins', ok⟩ := SkipList.perform_insert_eq_ok_iff.mp ok
      obtain ⟨y', ins⟩ := hl.exists_of_insert ok fits
      exact ⟨y', ins.list, grows.insert hl ins⟩
    | erase k =>
      obtain ⟨y', erases⟩ := hl.exists_of_erase ok
      exact ⟨y', erases.list, grows.erase erases⟩

/-- The runs whose draws all come from one stream: each operation that draws gets the coins as they
have been left to it. The last two are the list and the coins that the run has led to. -/
inductive StreamRun (h : Nat → Hasher) (first : Coins) :
    Start → List Operation → List Bool → SkipList → Coins → Prop
  | empty : StreamRun h first .empty [] [] (.empty (h 0)) first
  | ofKeys {keys : List Key} {l : SkipList} {coins : Coins} {events : List Event}
      (ok : SkipList.ofKeys (h 0) keys first = .ok (l, coins, events)) (fits : l.store.Fits) :
      StreamRun h first (.ofKeys keys first) [] [] l coins
  | insert {start : Start} {ops : List Operation} {answers : List Bool} {l : SkipList}
      {coins coins' : Coins} {k : Key} {change : Change}
      (before : StreamRun h first start ops answers l coins)
      (ok : l.insert (h (ops.length + 1)) k coins = .ok (change, coins'))
      (fits : change.list.store.Fits) :
      StreamRun h first start (ops ++ [.insert k coins]) (answers ++ [change.changed]) change.list
        coins'
  | erase {start : Start} {ops : List Operation} {answers : List Bool} {l : SkipList}
      {coins : Coins} {k : Key} {change : Change}
      (before : StreamRun h first start ops answers l coins)
      (ok : l.erase (h (ops.length + 1)) k = .ok change) (fits : change.list.store.Fits) :
      StreamRun h first start (ops ++ [.erase k]) (answers ++ [change.changed]) change.list coins

namespace StreamRun

theorem run (run : StreamRun h first start ops answers l coins) : Run h start ops answers l := by
  induction run with
  | empty => exact .start rfl (fits_empty _)
  | ofKeys ok fits => exact .start (Start.list_ofKeys_eq_ok_iff.mpr ⟨_, _, ok⟩) fits
  | insert _ ok fits ih => exact ih.step (SkipList.perform_insert_eq_ok_iff.mpr ⟨_, ok⟩) fits
  | erase _ ok fits ih => exact ih.step ok fits

/-- **What a run takes off the stream** are the draws on record, in this order. -/
theorem flipsAll (run : StreamRun h first start ops answers l coins) :
    first.FlipsAll (start.drawn (ops.zip answers)) coins := by
  induction run with
  | empty => exact .nil first
  | @ofKeys keys l coins events ok fits =>
    obtain ⟨l', y, ok', -⟩ := exists_ofKeys (h 0) keys first (builtNodes_lt_of_ofKeys ok fits)
    rw [ok] at ok'
    cases ok'
    have drawn : (Start.ofKeys keys first).drawn [] = heights keys first := by
      rw [Start.drawn, Start.towers, List.map_snd_zip (length_heights keys first).le]
      simp
    exact drawn ▸ Coins.flipsAll_draws _ first
  | @insert start ops answers l coins coins' k change before ok fits ih =>
    rw [List.zip_append before.run.length_answers.symm, List.zip_cons_cons, List.zip_nil_left,
      Start.drawn_concat]
    obtain ⟨y, hl, -⟩ := before.run.exists_layout
    obtain ⟨y', ins⟩ := hl.exists_of_insert ok fits
    refine ih.append ?_
    by_cases hk : .key k ∈ y.row 0
    · obtain ⟨rfl, -, rfl⟩ := ins.present hk
      exact .nil coins'
    · obtain ⟨places, rfl⟩ := ins.absent hk
      rw [places.changed]
      exact .cons coins.flips_draw (.nil _)
  | @erase start ops answers l coins k change before ok fits ih =>
    rw [List.zip_append before.run.length_answers.symm, List.zip_cons_cons, List.zip_nil_left,
      Start.drawn_concat]
    exact ih.append (.nil coins)

end StreamRun

end Runs

/-! ## 4. The statement -/

open Layout in
/-- **Coins settle towers and levels.** Let a run draw all its coins from one stream, starting with
the empty list or with one built from any keys that there is room for. What it has taken off the
stream is the draws on record, in this order: one for each key at the start, ascending, and one for
each insertion that has found something to do. The list has one level more than the greatest height
drawn, or one level if none was. A key that has got a tower of some height is on the levels up to
that one, and on no other, until it is taken off. From there the run goes on with any operation: an
insertion of a key that is there leaves list and coins as they are, one of a key that is not there
takes the heads in front and the tail behind them, and an erasure takes no coin. -/
theorem coins_settle_towers (h : Nat → Hasher) (first : Coins) :
    (∀ keys, builtNodes keys first < 4294967295 →
      ∃ l coins, StreamRun h first (.ofKeys keys first) [] [] l coins) ∧
    ∀ start ops answers l coins, StreamRun h first start ops answers l coins →
      first.FlipsAll (start.drawn (ops.zip answers)) coins ∧
      l.height = (start.drawn (ops.zip answers)).foldl max 0 + 1 ∧
      (∀ k t, start.Raised (ops.zip answers) k t → ∀ m, l.HasOn m k ↔ m ≤ t) ∧
      (∀ k ∈ start.keysAfter ops,
        StreamRun h first start (ops ++ [.insert k coins]) (answers ++ [false]) l coins) ∧
      (∀ k ∉ start.keysAfter ops, l.store.HasRoom (l.towerNodes coins.draw.1) →
        ∃ t l' coins', coins.Flips t coins' ∧
          StreamRun h first start (ops ++ [.insert k coins]) (answers ++ [true]) l' coins') ∧
      ∀ k, ∃ l', StreamRun h first start (ops ++ [.erase k])
        (answers ++ [decide (k ∈ start.keysAfter ops)]) l' coins := by
  refine ⟨fun keys room => ?_, fun start ops answers l coins run => ⟨run.flipsAll, ?_⟩⟩
  · obtain ⟨l, y, ok, builds⟩ := exists_ofKeys (h 0) keys first room
    exact ⟨l, _, .ofKeys ok builds.list.describes.sound.fits⟩
  obtain ⟨y, hl, grows⟩ := run.run.exists_layout_growth
  refine ⟨grows.height, fun k t raised m => hl.hasOn_iff.trans (grows.towers raised m), ?_⟩
  obtain ⟨y, hl, holds, -⟩ := run.run.exists_layout
  refine ⟨fun k old => ?_, fun k new room => ?_, fun k => ?_⟩
  · have old : .key k ∈ y.row 0 := (holds k).mpr old
    obtain ⟨change, coins', y', ok, ins⟩ :=
      hl.insert k coins (fun new => absurd old new) (h (ops.length + 1))
    obtain ⟨rfl, -, rfl⟩ := ins.present old
    exact run.insert ok hl.describes.sound.fits
  · have new : .key k ∉ y.row 0 := mt (holds k).mp new
    obtain ⟨change, coins', y', ok, ins⟩ := hl.insert k coins (fun _ => room) (h (ops.length + 1))
    obtain ⟨places, rfl⟩ := ins.absent new
    refine ⟨_, change.list, _, coins.flips_draw, ?_⟩
    exact places.changed ▸ run.insert ok ins.list.describes.sound.fits
  · obtain ⟨change, ok, fits, changed, -⟩ := (hl.follows holds).erase (h (ops.length + 1)) k
    have answer : change.changed = decide (k ∈ start.keysAfter ops) := by
      rw [Bool.eq_iff_iff, changed, decide_eq_true_iff]
    exact ⟨change.list, answer ▸ run.erase ok fits⟩

/-- On coins with one head in front the key 5 gets a tower of two levels; it is taken off, and the
levels stay. Built from 3, 1 and 3 again, the key 1 gets that tower. -/
theorem coins_settle_towers_sample :
    (∃ l l' coins, StreamRun (fun _ => .byteSum) (.ofWords [1]) .empty
        [.insert 5 (.ofWords [1])] [true] l coins ∧ (∀ m, l.HasOn m 5 ↔ m ≤ 1) ∧
      StreamRun (fun _ => .byteSum) (.ofWords [1]) .empty
        [.insert 5 (.ofWords [1]), .erase 5] [true, true] l' coins ∧
      l'.height = 2 ∧ Coins.FlipsAll (.ofWords [1]) [1] coins) ∧
    Layout.builtNodes [3, 1, 3] (.ofWords [1]) < 4294967295 ∧
    ∃ l coins, StreamRun (fun _ => .byteSum) (.ofWords [1]) (.ofKeys [3, 1, 3] (.ofWords [1])) [] []
        l coins ∧ l.height = 2 ∧ (∀ m, l.HasOn m 1 ↔ m ≤ 1) ∧ ∀ m, l.HasOn m 3 ↔ m ≤ 0 := by
  obtain ⟨build, law⟩ := coins_settle_towers (fun _ => .byteSum) (.ofWords [1])
  constructor
  · have room : (SkipList.empty .byteSum).store.HasRoom
        ((SkipList.empty .byteSum).towerNodes (Coins.ofWords [1]).draw.1) := by
      unfold Store.HasRoom
      decide
    obtain ⟨-, -, -, -, insert, -⟩ := law _ _ _ _ _ .empty
    obtain ⟨t, l, coins, flips, run⟩ := insert 5 (by decide) room
    obtain rfl : t = 1 := flips.unique (Coins.flips_draw _)
    obtain ⟨-, -, towers, -, -, erase⟩ := law _ _ _ _ _ run
    obtain ⟨l', run'⟩ := erase 5
    obtain ⟨all, height, -⟩ := law _ _ _ _ _ run'
    have raised : Start.empty.Raised [(.insert 5 (.ofWords [1]), true)] 5 1 :=
      .inl ⟨[], _, _, [], rfl, flips, nofun⟩
    exact ⟨l, l', coins, run, towers 5 1 raised, run', height, all⟩
  · have room : Layout.builtNodes [3, 1, 3] (.ofWords [1]) < 4294967295 := by decide
    obtain ⟨l, coins, run⟩ := build [3, 1, 3] room
    obtain ⟨-, height, towers, -⟩ := law _ _ _ _ _ run
    exact ⟨room, l, coins, run, height, towers 1 1 (.inr ⟨by decide, nofun⟩),
      towers 3 0 (.inr ⟨by decide, nofun⟩)⟩

end AuthenticatedSet
