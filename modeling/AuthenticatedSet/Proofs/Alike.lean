import AuthenticatedSet.Proofs.Erase

/-!
# What stands in free slots

A node that has been taken out leaves its bound and its mark behind in its slot. Two stores are alike
when they differ at most in such remains: they have the same slots in use, with the same nodes in
them, and the same slots free in the same order. On alike stores a list has the same layout, and an
operation that goes through on the one goes through on the other, with the same answer, and leaves
stores that are alike again. So no operation looks at what it finds in a free slot.

* `Store.Alike`         -- the stores differ at most in what stands in free slots
* `Alike.update`, `.add` -- the same write to both
* `Describes.of_alike`  -- a layout of the one is a layout of the other
* `Trails.unique`       -- a search leaves the same trail
* `raise_alike`         -- a tower put in, on both
* `Of.insert_alike`, `Of.erase_alike` -- the two operations

For a tower put in, the slots that are read have to be in use at that moment: they are those of the
predecessors, and of the new left ends. For the rest both stores are described by one layout.
-/

namespace AuthenticatedSet

/-! ## 1. Alike stores -/

namespace Store

/-- The stores differ at most in what stands in free slots. -/
structure Alike (s t : Store) : Prop where
  slots : t.nodes.size = s.nodes.size
  free : t.free = s.free
  get : ∀ i, s.InUse i → t.get i = s.get i

namespace Alike

variable {s s' t : Store} {i j : Slot} {node : Node} {f : Node → Node}

theorem inUse (same : s.Alike t) (i : Slot) : t.InUse i ↔ s.InUse i :=
  inUse_of_sizes same.slots same.free i

theorem update (same : s.Alike t) (ok : s.update i f = .ok s') :
    ∃ t', t.update i f = .ok t' ∧ s'.Alike t' := by
  obtain ⟨bound, -⟩ := update_eq_ok_iff.mp ok
  obtain ⟨size, free⟩ := update_sizes ok
  obtain ⟨old, hold⟩ := exists_get bound
  obtain ⟨old', hold'⟩ := exists_get (same.slots.symm ▸ bound)
  obtain ⟨t', ok', here', elsewhere', size', free'⟩ := update_spec f hold'
  refine ⟨t', ok', size'.trans (same.slots.trans size.symm), free'.trans (same.free.trans free.symm),
    fun j use => ?_⟩
  have use : s.InUse j := (inUse_of_sizes size free j).mp use
  by_cases here : j = i
  · subst here
    have node := same.get j use
    rw [hold, hold'] at node
    rw [here', get_update_same hold ok, Except.ok.inj node]
  · rw [elsewhere' j here, get_update_other ok (Ne.symm here), same.get j use]

/-- A node put into both stores goes into the same slot. -/
theorem add (same : s.Alike t) (sound : s.Sound) (ok : s.add node = .ok (i, s')) (fits : s'.Fits) :
    ∃ t', t.add node = .ok (i, t') ∧ s'.Alike t' := by
  have room : s.HasRoom 1 := (takes_add ok).hasRoom_of_fits fits
  have room' : t.HasRoom 1 := by
    unfold HasRoom at *
    rwa [same.slots, same.free]
  obtain ⟨-, use, here, kept⟩ := sound.of_add ok fits
  obtain ⟨i', t', ok', -, -, -, here', kept'⟩ :=
    add_spec (sound.of_sizes same.slots same.free) room' node
  obtain ⟨rfl, size, free⟩ : i' = i ∧ t'.nodes.size = s'.nodes.size ∧ t'.free = s'.free := by
    have sizes := add_sizes ok
    have sizes' := add_sizes ok'
    rw [same.free, same.slots] at sizes'
    grind
  refine ⟨t', ok', size, free, fun j hj => ?_⟩
  by_cases new : j = i'
  · rw [new, here, here']
  · have old : s.InUse j := ((use j).mp hj).resolve_right new
    rw [kept j new old, kept' j new ((same.inUse j).mpr old), same.get j old]

end Alike

end Store

namespace Layout

variable {y : Layout} {s t : Store} {l l' : SkipList} {h : Hasher} {k : Key} {trail trail' : Trail}
  {p : Bound → Bool} {height level levels : Nat} {coins coins' : Coins} {change : Change}
  {sites : List Site}

/-! ## 2. Alike stores have the same layouts -/

theorem Describes.of_alike (hs : y.Describes s) (same : s.Alike t) : y.Describes t where
  sound := hs.sound.of_sizes same.slots same.free
  inUse i := (same.inUse i).trans (hs.inUse i)
  get hb := (same.get _ (hs.slot_inUse hb)).trans (hs.get hb)
  apart := hs.apart

/-- Stores of one layout are alike if they have the same slots free. -/
theorem Describes.alike (hs : y.Describes s) (ht : y.Describes t)
    (slots : t.nodes.size = s.nodes.size) (free : t.free = s.free) : s.Alike t where
  slots := slots
  free := free
  get i use := by
    obtain ⟨level, b, hb, rfl⟩ := (hs.inUse i).mp use
    rw [hs.get hb, ht.get hb]

theorem Carries.of_alike (hl : y.Carries l) (same : l.store.Alike t) :
    y.Carries { l with store := t } :=
  ⟨hl.describes.of_alike same, hl.shaped, hl.lower, hl.upper⟩

theorem Of.of_alike (hl : y.Of l) (same : l.store.Alike t) : y.Of { l with store := t } :=
  ⟨hl.toCarries.of_alike same, hl.size⟩

/-- Digests computed anew in alike stores. -/
theorem Describes.refresh_alike (hs : y.Describes s) (same : s.Alike t)
    (supported : ∀ site ∈ sites, y.Supported site) {s' : Store}
    (ok : s.refresh h (y.slots sites) = .ok s') :
    ∃ t', t.refresh h (y.slots sites) = .ok t' ∧ s'.Alike t' := by
  obtain ⟨_, ok1, hs'⟩ := hs.refresh h supported
  obtain rfl := Except.ok.inj (ok1.symm.trans ok)
  obtain ⟨t', ok', ht'⟩ := (hs.of_alike same).refresh h supported
  obtain ⟨size, free⟩ := refresh_sizes ok
  obtain ⟨size', free'⟩ := refresh_sizes ok'
  exact ⟨t', ok', hs'.alike ht' (size'.trans (same.slots.trans size.symm))
    (free'.trans (same.free.trans free.symm))⟩

/-- **A search leaves one trail**: the places that it rests on follow from the layout. -/
theorem Trails.unique (ht : y.Trails p height trail) (ht' : y.Trails p height trail') :
    trail = trail' := by
  have slots : Function.Injective Stretch.slots := by
    intro st st' same
    obtain ⟨last, earlier⟩ := List.cons.inj same
    cases st; cases st'
    exact congrArg₂ Stretch.mk last earlier
  have stretches : trail.stretches = trail'.stretches :=
    List.map_injective_iff.mpr slots (ht.trans ht'.symm)
  obtain ⟨bottom, above⟩ := List.cons.inj stretches
  cases trail; cases trail'
  exact congrArg₂ Trail.mk bottom above

theorem Carries.search_alike (hl : y.Carries l) (same : l.store.Alike t) {reach : Reach}
    (found : l.search reach k = .ok trail) :
    ({ l with store := t } : SkipList).search reach k = .ok trail := by
  obtain ⟨_, found1, ht⟩ := hl.search reach k
  obtain rfl := Except.ok.inj (found1.symm.trans found)
  obtain ⟨_, found', ht'⟩ := (hl.of_alike same).search reach k
  rwa [ht'.unique ht] at found'

/-! ## 3. A tower put in -/

section Tower

variable {l1 : SkipList} {i left below : Slot}

theorem linkRight_alike {s' : Store} {down : Slot} (same : s.Alike t) (sound : s.Sound)
    (use : s.InUse left) (ok : s.linkRight left k down = .ok (i, s')) (fits : s'.Fits) :
    ∃ t', t.linkRight left k down = .ok (i, t') ∧ s'.Alike t' := by
  obtain ⟨node, here, ok⟩ := bind_eq_ok_iff.mp ok
  obtain ⟨⟨i, s1⟩, added, ok⟩ := bind_eq_ok_iff.mp ok
  obtain ⟨s2, linked, ok⟩ := bind_eq_ok_iff.mp ok
  cases ok
  obtain ⟨t1, added', same1⟩ := same.add sound added ((Store.takes_update linked).fits fits)
  obtain ⟨t', linked', same'⟩ := same1.update linked
  refine ⟨t', ?_, same'⟩
  rw [Store.linkRight, same.get left use, here, ok_bind, added', ok_bind]
  show (t1.update left _ >>= _) = _
  rw [linked']
  rfl

theorem stack_alike (same : l.store.Alike t) (sound : l.store.Sound) (use : l.store.InUse left)
    (ok : l.stack k left below = .ok (i, l1)) (fits : l1.store.Fits) :
    ∃ t1, ({ l with store := t } : SkipList).stack k left below = .ok (i, { l1 with store := t1 }) ∧
      l1.store.Alike t1 := by
  obtain ⟨s1, marked, ok⟩ := bind_eq_ok_iff.mp ok
  obtain ⟨⟨i, s2⟩, linked, ok⟩ := bind_eq_ok_iff.mp ok
  cases ok
  have taken := Store.takes_update marked
  obtain ⟨t1, marked', same1⟩ := same.update marked
  obtain ⟨t2, linked', same2⟩ := linkRight_alike same1
    (taken.sound sound ((takes_linkRight linked).fits fits)) (taken.inUse use) linked fits
  refine ⟨t2, ?_, same2⟩
  show (t.markContinued below >>= _) = _
  rw [Store.markContinued, marked', ok_bind]
  show (t1.linkRight left k below >>= _) = _
  rw [linked']
  rfl

/-- An empty level on top of both. Its left end is in use, so that a key can go behind it. -/
theorem addLevel_alike (same : l.store.Alike t) (sound : l.store.Sound)
    (ok : l.addLevel = .ok l1) (fits : l1.store.Fits) :
    l1.store.InUse l1.top.lower ∧
      ∃ t1, ({ l with store := t } : SkipList).addLevel = .ok { l1 with store := t1 } ∧
        l1.store.Alike t1 := by
  obtain ⟨s1, mark1, ok⟩ := bind_eq_ok_iff.mp ok
  obtain ⟨s2, mark2, ok⟩ := bind_eq_ok_iff.mp ok
  obtain ⟨⟨upper, s3⟩, add1, ok⟩ := bind_eq_ok_iff.mp ok
  obtain ⟨⟨lower, s4⟩, add2, ok⟩ := bind_eq_ok_iff.mp ok
  cases ok
  have marks := (Store.takes_update mark1).trans (Store.takes_update mark2)
  have fits3 : s3.Fits := (Store.takes_add add2).fits fits
  have sound2 : s2.Sound := marks.sound sound ((Store.takes_add add1).fits fits3)
  have sound3 : s3.Sound := (Store.takes_add add1).sound sound2 fits3
  obtain ⟨-, use, -⟩ := sound3.of_add add2 fits
  refine ⟨(use lower).mpr (.inr rfl), ?_⟩
  obtain ⟨t1, mark1', same1⟩ := same.update mark1
  obtain ⟨t2, mark2', same2⟩ := same1.update mark2
  obtain ⟨t3, add1', same3⟩ := same2.add sound2 add1 fits3
  obtain ⟨t4, add2', same4⟩ := same3.add sound3 add2 fits
  refine ⟨t4, ?_, same4⟩
  show (t.markContinued l.top.lower >>= _) = _
  rw [Store.markContinued, mark1', ok_bind]
  show (t1.markContinued l.top.upper >>= _) = _
  rw [Store.markContinued, mark2', ok_bind]
  show (t2.add _ >>= _) = _
  rw [add1', ok_bind]
  show (t3.add _ >>= _) = _
  rw [add2']
  rfl

/-- **A tower raised on alike stores**, behind slots that are in use. -/
theorem raise_alike {left : List Slot} {raised : Raised} (same : l.store.Alike t)
    (sound : l.store.Sound) (use : ∀ i ∈ left, l.store.InUse i)
    (ok : l.raise k levels left below = .ok raised) (fits : raised.list.store.Fits) :
    ∃ t', ({ l with store := t } : SkipList).raise k levels left below =
        .ok { raised with list := { raised.list with store := t' } } ∧
      raised.list.store.Alike t' := by
  induction levels generalizing l t left below raised with
  | zero =>
    cases ok
    exact ⟨t, rfl, same⟩
  | succ levels ih =>
    cases left with
    | cons first left =>
      obtain ⟨⟨i, l1⟩, stacked, ok⟩ := bind_eq_ok_iff.mp ok
      obtain ⟨rest, raises, ok⟩ := bind_eq_ok_iff.mp ok
      cases ok
      have taken := takes_stack stacked
      have fits1 : l1.store.Fits := (takes_raise raises).fits fits
      obtain ⟨t1, stacked', same1⟩ :=
        stack_alike same sound (use first List.mem_cons_self) stacked fits1
      obtain ⟨t', raises', same'⟩ := ih same1 (taken.sound sound fits1)
        (fun j hj => taken.inUse (use j (List.mem_cons_of_mem _ hj))) raises fits
      refine ⟨t', ?_, same'⟩
      rw [SkipList.raise, stacked', ok_bind]
      show (SkipList.raise _ k levels left i >>= _) = _
      rw [raises']
      rfl
    | nil =>
      obtain ⟨l1, added, ok⟩ := bind_eq_ok_iff.mp ok
      obtain ⟨⟨i, l2⟩, stacked, ok⟩ := bind_eq_ok_iff.mp ok
      obtain ⟨rest, raises, ok⟩ := bind_eq_ok_iff.mp ok
      cases ok
      have fits2 : l2.store.Fits := (takes_raise raises).fits fits
      have fits1 : l1.store.Fits := (takes_stack stacked).fits fits2
      have sound1 := (takes_addLevel added).sound sound fits1
      obtain ⟨leftEnd, t1, added', same1⟩ := addLevel_alike same sound added fits1
      obtain ⟨t2, stacked', same2⟩ := stack_alike same1 sound1 leftEnd stacked fits2
      obtain ⟨t', raises', same'⟩ :=
        ih same2 ((takes_stack stacked).sound sound1 fits2) (by simp) raises fits
      refine ⟨t', ?_, same'⟩
      rw [SkipList.raise, added', ok_bind]
      show (SkipList.stack _ k l1.top.lower below >>= _) = _
      rw [stacked', ok_bind]
      show (SkipList.raise _ k levels [] i >>= _) = _
      rw [raises']
      rfl

end Tower

/-! ## 4. The operations -/

theorem Of.place_alike (hl : y.Of l) (same : l.store.Alike t)
    (ht : y.Trails (Reach.below.passes k) l.height trail) (new : .key k ∉ y.row 0)
    (room : l.store.HasRoom (l.towerNodes levels)) (ok : l.place h k trail levels = .ok change)
    (fits : change.list.store.Fits) :
    ∃ t', ({ l with store := t } : SkipList).place h k trail levels =
        .ok { change with list := { change.list with store := t' } } ∧
      change.list.store.Alike t' := by
  obtain ⟨bottom, s1, raised, y1, linked, raises, h1, wider, order, height⟩ :=
    hl.raiseTower ht new room
  rw [SkipList.place, linked, ok_bind] at ok
  obtain ⟨_, raises1, ok⟩ := bind_eq_ok_iff.mp ok
  obtain rfl := Except.ok.inj (raises.symm.trans raises1)
  obtain ⟨s', refreshed, ok⟩ := bind_eq_ok_iff.mp ok
  cases ok
  have fits2 : raised.list.store.Fits := (takes_refresh refreshed).fits fits
  have fits1 : s1.Fits := (takes_raise raises).fits fits2
  have sound := hl.describes.sound
  have taken := takes_linkRight linked
  have use : ∀ i ∈ trail.predecessors, l.store.InUse i := by
    intro i hi
    rw [ht.predecessors hl.shaped (Reach.below.passes_downward k)] at hi
    obtain ⟨m, hm, rfl⟩ := List.mem_map.mp hi
    exact hl.describes.slot_inUse (hl.shaped.reached_mem (List.mem_range.mp hm))
  obtain ⟨t1, linked', same1⟩ := linkRight_alike same sound (use _ List.mem_cons_self) linked fits1
  obtain ⟨t2, raises', same2⟩ := raise_alike (l := { l with store := s1 }) same1
    (taken.sound sound fits1) (fun i hi => taken.inUse (use i (List.mem_cons_of_mem _ hi))) raises
    fits2
  have shaped1 : y1.Shaped (l.height + (levels + 1 - l.height)) := height ▸ h1.shaped
  rw [order] at refreshed
  obtain ⟨t', refreshed', same'⟩ :=
    h1.describes.refresh_alike same2 (wider.insertOrder_supported shaped1) refreshed
  rw [← order] at refreshed'
  refine ⟨t', ?_, same'⟩
  rw [SkipList.place, linked', ok_bind]
  show (SkipList.raise _ k levels _ bottom >>= _) = _
  rw [raises', ok_bind]
  show (t2.refresh h (bottom :: raised.tower ++ _ ++ raised.lefts) >>= _) = _
  rw [refreshed']
  rfl

/-- **A key put in on alike stores**. -/
theorem Of.insert_alike (hl : y.Of l) (same : l.store.Alike t)
    (ok : l.insert h k coins = .ok (change, coins')) (fits : change.list.store.Fits) :
    ∃ t', ({ l with store := t } : SkipList).insert h k coins =
        .ok ({ change with list := { change.list with store := t' } }, coins') ∧
      change.list.store.Alike t' := by
  have hl' := hl.of_alike same
  obtain ⟨trail, found, ht⟩ := hl.search .below k
  have found' := hl.search_alike same found
  have ok1 := ok
  rw [SkipList.insert, found, ok_bind, hl.precedes ht, ok_bind] at ok
  rw [SkipList.insert, found', ok_bind, hl'.precedes ht, ok_bind]
  by_cases hk : .key k ∈ y.row 0
  · rw [if_pos (decide_eq_true hk)] at ok ⊢
    cases ok
    exact ⟨t, rfl, same⟩
  · rw [if_neg (by simpa using hk)] at ok ⊢
    obtain ⟨change1, placed, last⟩ := bind_eq_ok_iff.mp ok
    obtain ⟨rfl, rfl⟩ := Prod.mk.inj (Except.ok.inj last)
    obtain ⟨t', placed', same'⟩ := hl.place_alike same ht hk (hl.hasRoom_of_insert hk ok1 fits)
      placed fits
    refine ⟨t', ?_, same'⟩
    show (SkipList.place _ h k trail coins.draw.1 >>= _) = _
    rw [placed']
    rfl

/-- **A key taken out on alike stores**. -/
theorem Of.erase_alike (hl : y.Of l) (same : l.store.Alike t) (ok : l.erase h k = .ok change) :
    ∃ t', ({ l with store := t } : SkipList).erase h k =
        .ok { change with list := { change.list with store := t' } } ∧
      change.list.store.Alike t' := by
  have hl' := hl.of_alike same
  obtain ⟨trail, found, ht⟩ := hl.search .below k
  have found' := hl.search_alike same found
  rw [SkipList.erase, found, ok_bind, hl.precedes ht, ok_bind] at ok
  rw [SkipList.erase, found', ok_bind, hl'.precedes ht, ok_bind]
  by_cases hk : .key k ∈ y.row 0
  · rw [if_pos (decide_eq_true hk)] at ok ⊢
    obtain ⟨s1, s', unlinked, refreshed, h', size, free⟩ := hl.unlink ht h
    obtain ⟨t1, t', unlinked', refreshed', h'', size', free'⟩ := hl'.unlink ht h
    have same' : s'.Alike t' := h'.describes.alike h''.describes
      (size'.trans (same.slots.trans size.symm)) (by rw [free', free, ← same.free])
    rw [unlinked, ok_bind, refreshed, ok_bind] at ok
    rw [unlinked', ok_bind, refreshed', ok_bind]
    dsimp only at ok ⊢
    split at ok
    · cases ok
    · cases ok
      exact ⟨t', rfl, same'⟩
  · rw [if_neg (by simpa using hk)] at ok ⊢
    cases ok
    exact ⟨t, rfl, same⟩

end Layout

end AuthenticatedSet
