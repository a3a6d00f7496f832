import AuthenticatedSet.Proofs.Build
import AuthenticatedSet.Proofs.Erase
import AuthenticatedSet.Hasher.Transparent

/-!
# Reachable lists

A list is reachable when it is empty or built from keys at once, and then changed by insertions and
erasures, its store staying below the limit of slot numbers all along. Every reachable list has a
layout, with digests that are current.

* `Reachable`               -- the lists of all runs
* `Reachable.exists_layout` -- the invariant of all runs
* `sample`                  -- what one short run leaves, with two free slots
-/

namespace AuthenticatedSet

/-- The lists that a run leads to: a start, then any operations that go through. The hasher stays the
same; keys, coins and the order of operations are arbitrary. -/
inductive Reachable (h : Hasher) : SkipList → Prop
  | empty : Reachable h (.empty h)
  | ofKeys {keys : List Key} {coins coins' : Coins} {l : SkipList} {events : List Event}
      (ok : SkipList.ofKeys h keys coins = .ok (l, coins', events)) (fits : l.store.Fits) :
      Reachable h l
  | insert {l : SkipList} {k : Key} {coins coins' : Coins} {change : Change}
      (before : Reachable h l) (ok : l.insert h k coins = .ok (change, coins'))
      (fits : change.list.store.Fits) : Reachable h change.list
  | erase {l : SkipList} {k : Key} {change : Change} (before : Reachable h l)
      (ok : l.erase h k = .ok change) : Reachable h change.list

namespace Layout

variable {h : Hasher} {l : SkipList}

/-- A list of no keys that is built is the empty one. -/
theorem ofKeys_nil (h : Hasher) (coins : Coins) :
    SkipList.ofKeys h [] coins = .ok (.empty h, coins, [.built 0 1]) := rfl

/-- The empty list is what is built from no keys, whatever the coins. -/
theorem exists_empty (h : Hasher) (coins : Coins) :
    ∃ y : Layout, y.Builds h (.empty h) [] coins := by
  obtain ⟨l, y, ok, built⟩ := exists_ofKeys h [] coins
    (by simp [builtNodes, heights, AuthenticatedSet.ascending, Coins.draws, Column.towerNodes])
  rw [ofKeys_nil] at ok
  obtain ⟨rfl, -⟩ := Prod.mk.inj (Except.ok.inj ok)
  exact ⟨y, built⟩

theorem exists_of_ofKeys {keys : List Key} {coins coins' : Coins} {events : List Event}
    (ok : SkipList.ofKeys h keys coins = .ok (l, coins', events)) (fits : l.store.Fits) :
    ∃ y : Layout, y.Builds h l keys coins := by
  obtain ⟨l', y, ok', built⟩ := exists_ofKeys h keys coins (builtNodes_lt_of_ofKeys ok fits)
  rw [ok] at ok'
  obtain ⟨rfl, -⟩ := Prod.mk.inj (Except.ok.inj ok')
  exact ⟨y, built⟩

variable {y : Layout} {k : Key} {coins coins' : Coins} {change : Change}

theorem Of.exists_of_insert (hl : y.Of l) (ok : l.insert h k coins = .ok (change, coins'))
    (fits : change.list.store.Fits) : ∃ y', y.Inserts y' h l k coins coins' change := by
  obtain ⟨change', coins'', y', ok', inserts⟩ := hl.insert k coins
    (fun new => hl.hasRoom_of_insert new ok fits) h
  rw [ok] at ok'
  obtain ⟨rfl, rfl⟩ := Prod.mk.inj (Except.ok.inj ok')
  exact ⟨y', inserts⟩

theorem Of.exists_of_erase (hl : y.Of l) (ok : l.erase h k = .ok change) :
    ∃ y', y.Erases y' h l k change := by
  obtain ⟨change', y', ok', erases⟩ := hl.erase h k
  rw [ok] at ok'
  cases ok'
  exact ⟨y', erases⟩

end Layout

open Layout in
/-- **The invariant of all runs**: a reachable list has a layout whose digests are all current. -/
theorem Reachable.exists_layout {h : Hasher} {l : SkipList} (reach : Reachable h l) :
    ∃ y : Layout, y.Of l ∧ y.Current h := by
  induction reach with
  | empty =>
    obtain ⟨y, built⟩ := exists_empty h (.ofWords [])
    exact ⟨y, built.list, built.current⟩
  | ofKeys ok fits =>
    obtain ⟨y, built⟩ := exists_of_ofKeys ok fits
    exact ⟨y, built.list, built.current⟩
  | insert _ ok fits ih =>
    obtain ⟨y, hl, current⟩ := ih
    obtain ⟨y', inserts⟩ := hl.exists_of_insert ok fits
    exact ⟨y', inserts.list, inserts.current current⟩
  | erase _ ok ih =>
    obtain ⟨y, hl, current⟩ := ih
    obtain ⟨y', erases⟩ := hl.exists_of_erase ok
    exact ⟨y', erases.list, erases.current current⟩

/-! ## A run -/

/-- The list of the key 3 alone on two levels, where the key 5 has been put on both and taken off. -/
def sample : SkipList where
  store :=
    { nodes := #[
        ⟨.upper, .nil, .nil, true, ⟨[]⟩⟩, ⟨.lower, ⟨6⟩, .nil, true, ⟨[5]⟩⟩,
        ⟨.key 5, .nil, .nil, true, ⟨[]⟩⟩, ⟨.upper, .nil, ⟨0⟩, false, ⟨[]⟩⟩,
        ⟨.lower, ⟨3⟩, ⟨1⟩, false, ⟨[5]⟩⟩, ⟨.key 5, .nil, .nil, false, ⟨[]⟩⟩,
        ⟨.key 3, ⟨0⟩, .nil, false, ⟨[4]⟩⟩]
      free := [⟨5⟩, ⟨2⟩] }
  top := ⟨⟨4⟩, ⟨3⟩⟩
  height := 2
  size := 1
  version := 3

theorem reachable_sample : Reachable .byteSum sample := by
  have run : (do
      let (first, _) ← (SkipList.empty .byteSum).insert .byteSum 5 (.ofWords [1])
      let (second, _) ← first.list.insert .byteSum 3 (.ofWords [])
      let third ← second.list.erase .byteSum 5
      return (first.list.store.nodes.size, second.list.store.nodes.size, third.list)) =
        .ok (6, 7, sample) := by decide +kernel
  obtain ⟨⟨first, _⟩, ok1, run⟩ := bind_eq_ok_iff.mp run
  obtain ⟨⟨second, _⟩, ok2, run⟩ := bind_eq_ok_iff.mp run
  obtain ⟨third, ok3, run⟩ := bind_eq_ok_iff.mp run
  obtain ⟨size1, size2, last⟩ : first.list.store.nodes.size = 6 ∧
      second.list.store.nodes.size = 7 ∧ third.list = sample := by
    simpa using run
  have reach1 : Reachable .byteSum first.list := .insert .empty ok1 (by unfold Store.Fits; omega)
  have reach2 : Reachable .byteSum second.list := .insert reach1 ok2 (by unfold Store.Fits; omega)
  exact last ▸ .erase reach2 ok3

end AuthenticatedSet
