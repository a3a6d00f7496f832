import AuthenticatedSet.Proofs.Alike
import AuthenticatedSet.Proofs.Audit
import AuthenticatedSet.Proofs.Completeness

/-!
# No run meets a fault

Every reachable list has a layout, and on a list with a layout every operation goes through. Nor does
an operation look at what a node has left behind in a slot that is free again: on two lists that
differ at most in such remains every operation has the same answer, and the lists that it leaves
differ at most in such remains again.

* `SkipList.SameInUse`  -- two lists that differ at most in what stands in free slots
* `SkipList.Serves`     -- every operation goes through
* `SkipList.Agrees`     -- every operation has the same answer on two lists
* `Of.serves`, `Of.agrees` -- a list with a layout and current digests serves, and agrees with such
  another list
* `integrity_of_runs`   -- the structure of all reachable lists, that they serve and agree
-/

namespace AuthenticatedSet

/-- The two lists differ at most in what stands in free slots. -/
structure SkipList.SameInUse (l l' : SkipList) : Prop where
  store : l.store.Alike l'.store
  top : l'.top = l.top
  height : l'.height = l.height
  size : l'.size = l.size
  version : l'.version = l.version

theorem SkipList.SameInUse.eq {l l' : SkipList} (same : l.SameInUse l') :
    l' = { l with store := l'.store } := by
  obtain ⟨-, top, height, size, version⟩ := same
  cases l'
  simp_all

theorem Store.Alike.sameInUse {l : SkipList} {t : Store} (same : l.store.Alike t) :
    l.SameInUse { l with store := t } := ⟨same, rfl, rfl, rfl, rfl⟩

/-- The same has been done and reported, to lists that differ at most in what stands in free slots. -/
structure Change.SameInUse (change change' : Change) : Prop where
  changed : change'.changed = change.changed
  events : change'.events = change.events
  list : change.list.SameInUse change'.list

/-- Every operation on the list goes through: none meets a link that leads nowhere, a level below the
bottom one, a count below zero or links in a circle. A key that is not there can be put in as long as
the store, with its tower, stays below the limit of slot numbers. -/
structure SkipList.Serves (l : SkipList) (h : Hasher) : Prop where
  audit : (l.audit h).Passes ()
  contains : ∀ k, ∃ found, l.contains k = .ok found
  keys : ∃ keys, l.keys = .ok keys
  confirmation : ∃ c, l.confirmation = .ok c
  render : ∃ text, l.render = .ok text
  prove : ∀ k, ∃ p, l.prove h k = .ok p
  insert : ∀ k coins, l.contains k = .ok true ∨ l.store.HasRoom (l.towerNodes coins.draw.1) →
    ∃ change coins', l.insert h k coins = .ok (change, coins') ∧ change.list.store.Fits
  erase : ∀ k, ∃ change, l.erase h k = .ok change ∧ change.list.store.Fits

/-- Whatever is asked about the two lists has one answer, and whatever is done to the first one can be
done to the other, with the same answer, the same reports and the same coins left, and leaves lists
that differ at most in what stands in free slots. -/
structure SkipList.Agrees (l l' : SkipList) (h : Hasher) : Prop where
  audit : l'.audit h = l.audit h
  contains : ∀ k, l'.contains k = l.contains k
  keys : l'.keys = l.keys
  confirmation : l'.confirmation = l.confirmation
  render : l'.render = l.render
  prove : ∀ k, l'.prove h k = l.prove h k
  insert : ∀ {k coins change coins'}, l.insert h k coins = .ok (change, coins') →
    change.list.store.Fits →
    ∃ change', l'.insert h k coins = .ok (change', coins') ∧ change.SameInUse change'
  erase : ∀ {k change}, l.erase h k = .ok change →
    ∃ change', l'.erase h k = .ok change' ∧ change.SameInUse change'

namespace Layout

variable {y : Layout} {l l' : SkipList} {h : Hasher}

theorem Of.of_sameInUse (hl : y.Of l) (same : l.SameInUse l') : y.Of l' :=
  same.eq ▸ hl.of_alike same.store

/-- **A list with a layout serves.** -/
theorem Of.serves (hl : y.Of l) (current : y.Current h) : l.Serves h where
  audit := hl.audit current
  contains k := ⟨_, hl.contains k⟩
  keys := ⟨_, hl.keys⟩
  confirmation := ⟨_, hl.confirmation⟩
  render := by
    rw [SkipList.render, hl.rootDigest]
    exact ⟨_, rfl⟩
  prove k := ⟨_, hl.prove h k⟩
  insert k coins room := by
    have room' : .key k ∉ y.row 0 → l.store.HasRoom (l.towerNodes coins.draw.1) := by
      intro absent
      refine room.resolve_left fun found => absent ?_
      rw [hl.contains] at found
      simpa using found
    obtain ⟨change, coins', y', ok, inserts⟩ := hl.insert k coins room' h
    exact ⟨change, coins', ok, inserts.list.describes.sound.fits⟩
  erase k := by
    obtain ⟨change, y', ok, erases⟩ := hl.erase h k
    exact ⟨change, ok, erases.list.describes.sound.fits⟩

/-- **What stands in free slots does not matter.** -/
theorem Of.agrees (hl : y.Of l) (hl' : y.Of l') (current : y.Current h) (same : l.SameInUse l') :
    l.Agrees l' h where
  audit := (hl'.audit current).trans (hl.audit current).symm
  contains k := by rw [hl'.contains, hl.contains]
  keys := by rw [hl'.keys, hl.keys]
  confirmation := by rw [hl'.confirmation, hl.confirmation, same.height, same.version]
  render := by
    rw [SkipList.render, SkipList.render, hl'.rootDigest, hl.rootDigest, same.height, same.size,
      same.version]
  prove k := by rw [hl'.prove, hl.prove, same.height, same.version]
  insert ok fits := by
    obtain ⟨t, ok', same'⟩ := hl.insert_alike same.store ok fits
    rw [← same.eq] at ok'
    exact ⟨_, ok', rfl, rfl, same'.sameInUse⟩
  erase ok := by
    obtain ⟨t, ok', same'⟩ := hl.erase_alike same.store ok
    rw [← same.eq] at ok'
    exact ⟨_, ok', rfl, rfl, same'.sameInUse⟩

end Layout

/-- **The structure of all reachable lists**: building goes through as long as the store stays below
the limit of slot numbers, and every reachable list has a layout. It has just the levels that it
counts, each a strictly ascending run from the left end to the right end; a bound of a level is on
the one below too, its node links down to that one, and a node is marked when its bound goes on; the
ends of the top level and the number of keys are those of the list. So the audit passes, and every
operation goes through. Nothing of this depends on what stands in free slots: on another list that
differs in nothing else every operation has the same answer, and leaves lists that differ in nothing
else again. -/
theorem integrity_of_runs (h : Hasher) :
    (∀ keys coins, Layout.builtNodes keys coins < 4294967295 →
      ∃ l coins' events, SkipList.ofKeys h keys coins = .ok (l, coins', events) ∧ l.store.Fits) ∧
    ∀ l, Reachable h l → ∃ y : Layout, y.Of l ∧ ∀ l', l.SameInUse l' →
      y.Of l' ∧ l'.Serves h ∧ l.Agrees l' h := by
  constructor
  · intro keys coins room
    obtain ⟨l, y, ok, built⟩ := Layout.exists_ofKeys h keys coins room
    exact ⟨l, _, _, ok, built.list.describes.sound.fits⟩
  · intro l reach
    obtain ⟨y, hl, current⟩ := reach.exists_layout
    refine ⟨y, hl, fun l' same => ?_⟩
    have hl' := hl.of_sameInUse same
    exact ⟨hl', hl'.serves current, hl.agrees hl' current same⟩

/-- The free slot in front may hold a node of another key with links that lead nowhere: also then the
key 3 can be taken out, and its slot is the next one in front. -/
theorem integrity_of_runs_sample :
    (∃ l coins' events, SkipList.ofKeys .byteSum [3, 1, 3] (.ofWords [1]) =
        .ok (l, coins', events) ∧ l.store.Fits) ∧
      Reachable .byteSum sample ∧
      ∃ s', sample.store.update ⟨5⟩ (fun _ => ⟨.key 4, ⟨70⟩, ⟨80⟩, true, ⟨[9]⟩⟩) = .ok s' ∧
        ∃ y : Layout, y.Of sample ∧ y.Of { sample with store := s' } ∧
          SkipList.Serves { sample with store := s' } .byteSum ∧
          ∃ change change', sample.erase .byteSum 3 = .ok change ∧
            SkipList.erase { sample with store := s' } .byteSum 3 = .ok change' ∧
            change.SameInUse change' ∧ change.list.store.free = [⟨6⟩, ⟨5⟩, ⟨2⟩] := by
  obtain ⟨build, serve⟩ := integrity_of_runs .byteSum
  obtain ⟨y, hl, others⟩ := serve sample reachable_sample
  obtain ⟨s', ok, -, kept, slots, free⟩ := Store.update_spec (s := sample.store) (i := ⟨5⟩)
    (fun _ => ⟨.key 4, ⟨70⟩, ⟨80⟩, true, ⟨[9]⟩⟩) rfl
  have same : sample.store.Alike s' :=
    ⟨slots, free, fun i use => kept i fun five => use.2 (five ▸ by decide)⟩
  obtain ⟨hl', serves, agrees⟩ := others _ same.sameInUse
  have taken : (do
      let change ← sample.erase .byteSum 3
      return change.list.store.free) = .ok [⟨6⟩, ⟨5⟩, ⟨2⟩] := by decide +kernel
  obtain ⟨change, erased, front⟩ := bind_eq_ok_iff.mp taken
  obtain ⟨change', erased', same'⟩ := agrees.erase erased
  exact ⟨build _ _ (by decide), reachable_sample, s', ok, y, hl, hl', serves, change, change', erased,
    erased', same', Except.ok.inj front⟩

end AuthenticatedSet
