import AuthenticatedSet.SkipList.Store
import Mathlib.Data.List.Nodup
import Mathlib.Data.List.Perm.Subperm
import Mathlib.Order.Nat

/-!
# Stores: slots in use, slots free

What the four ways to touch a store do to the slots in use, to the nodes in them and to the number
of slots.

* `Store.Sound`   -- below the limit of slot numbers, with a free list of different, existing slots
* `Store.InUse`   -- a slot that exists and is not free
* `Store.HasRoom` -- so many nodes more stay below the limit
* `Store.Takes`   -- so many nodes have been put in and none has been taken out; this needs no
  soundness and so bounds whatever has gone through

Every operation on a sound store with room goes through and leaves a sound store: this is where the
slot numbers being 32-bit words matters, and no later file looks at them again.
-/

namespace AuthenticatedSet

/-! ## 1. Computations that go through -/

section Except

variable {ε α β : Type}

@[simp] theorem ok_bind (a : α) (f : α → Except ε β) : (Except.ok a >>= f) = f a := rfl

@[simp] theorem pure_eq_ok (a : α) : (pure a : Except ε α) = .ok a := rfl

theorem bind_eq_ok_iff {x : Except ε α} {f : α → Except ε β} {b : β} :
    (x >>= f) = .ok b ↔ ∃ a, x = .ok a ∧ f a = .ok b := by
  cases x with
  | error e => exact ⟨(nomatch ·), fun ⟨_, h, _⟩ => nomatch h⟩
  | ok a => exact ⟨fun h => ⟨a, rfl, h⟩, fun ⟨_, h, h'⟩ => by cases h; exact h'⟩

end Except

theorem Slot.ext_toNat {i j : Slot} (h : i.index.toNat = j.index.toNat) : i = j := by
  cases i; cases j
  exact congrArg Slot.mk (UInt32.toNat_inj.mp h)

namespace Store

variable {s s' : Store} {i j : Slot} {node : Node} {f : Node → Node} {n m : Nat}

/-! ## 2. Soundness and room -/

/-- Slot numbers name slots: there are fewer than the word for "no slot" says. -/
def Fits (s : Store) : Prop := s.nodes.size < 4294967295

/-- A store as the operations keep it. -/
structure Sound (s : Store) : Prop where
  fits : s.Fits
  free_lt : ∀ i ∈ s.free, i.index.toNat < s.nodes.size
  free_nodup : s.free.Nodup

/-- The slot exists and is not free. -/
def InUse (s : Store) (i : Slot) : Prop := i.index.toNat < s.nodes.size ∧ i ∉ s.free

/-- With `n` more nodes in use the store still fits. -/
def HasRoom (s : Store) (n : Nat) : Prop := s.nodes.size + n < 4294967295 + s.free.length

/-- `n` nodes have been put in, and no slot has been set free. -/
structure Takes (s s' : Store) (n : Nat) : Prop where
  count : s'.nodes.size + s.free.length = s.nodes.size + n + s'.free.length
  size_le : s.nodes.size ≤ s'.nodes.size
  /-- Free slots are given out from the front. -/
  free_suffix : s'.free <:+ s.free
  /-- A store gets longer only when no slot is free. -/
  size_eq_or_free_eq_nil : s'.nodes.size = s.nodes.size ∨ s'.free = []

namespace Takes

variable {s'' : Store}

theorem refl (s : Store) : s.Takes s 0 := ⟨rfl, le_rfl, List.suffix_rfl, .inl rfl⟩

theorem trans (h : s.Takes s' n) (h' : s'.Takes s'' m) : s.Takes s'' (n + m) where
  count := by
    have := h.count
    have := h'.count
    omega
  size_le := h.size_le.trans h'.size_le
  free_suffix := h'.free_suffix.trans h.free_suffix
  size_eq_or_free_eq_nil := by
    rcases h.size_eq_or_free_eq_nil with same | none
    · rw [← same]
      exact h'.size_eq_or_free_eq_nil
    · exact .inr (List.suffix_nil.mp (none ▸ h'.free_suffix))

theorem hasRoom (h : s.Takes s' n) (room : s.HasRoom (n + m)) : s'.HasRoom m := by
  have := h.count
  unfold HasRoom at *
  omega

theorem fits (h : s.Takes s' n) (fits : s'.Fits) : s.Fits := h.size_le.trans_lt fits

/-- What has gone through and fits had the room it took. -/
theorem hasRoom_of_fits (h : s.Takes s' n) (fits : s'.Fits) : s.HasRoom n := by
  have := h.count
  unfold HasRoom
  unfold Fits at fits
  omega

theorem sound (h : s.Takes s' n) (hs : s.Sound) (fits : s'.Fits) : s'.Sound where
  fits := fits
  free_lt i hi := (hs.free_lt i (h.free_suffix.mem hi)).trans_le h.size_le
  free_nodup := h.free_suffix.sublist.nodup hs.free_nodup

theorem inUse (h : s.Takes s' n) (use : s.InUse i) : s'.InUse i :=
  ⟨use.1.trans_le h.size_le, fun free => use.2 (h.free_suffix.mem free)⟩

end Takes

theorem HasRoom.mono (h : s.HasRoom n) (le : m ≤ n) : s.HasRoom m := by
  unfold HasRoom at *
  omega

theorem lt_size_of_get (h : s.get i = .ok node) : i.index.toNat < s.nodes.size := by
  rw [get_eq_ok_iff] at h
  exact (Array.getElem?_eq_some_iff.mp h).1

theorem exists_get (h : i.index.toNat < s.nodes.size) : ∃ node, s.get i = .ok node :=
  ⟨s.nodes[i.index.toNat], get_eq_ok_iff.mpr (Array.getElem?_eq_getElem h)⟩

/-- There are no more different slots than the store has. -/
theorem length_le {slots : List Slot} (nodup : slots.Nodup)
    (exist : ∀ i ∈ slots, i.index.toNat < s.nodes.size) : slots.length ≤ s.nodes.size := by
  have numbers : (slots.map fun i => i.index.toNat).Nodup :=
    List.Nodup.map (fun _ _ same => Slot.ext_toNat same) nodup
  have subset : (slots.map fun i => i.index.toNat) ⊆ List.range s.nodes.size := by
    intro n hn
    obtain ⟨i, hi, rfl⟩ := List.mem_map.mp hn
    exact List.mem_range.mpr (exist i hi)
  simpa using (numbers.subperm subset).length_le

/-- A slot with a node is not the word for "no slot". -/
theorem Fits.ne_nil (fits : s.Fits) (h : s.get i = .ok node) : i ≠ .nil := by
  intro same
  subst same
  have : Slot.nil.index.toNat < s.nodes.size := lt_size_of_get h
  have : Slot.nil.index.toNat = 4294967295 := rfl
  unfold Fits at fits
  omega

/-! ## 3. A node changed -/

theorem update_spec (f : Node → Node) (h : s.get i = .ok node) :
    ∃ s', s.update i f = .ok s' ∧ s'.get i = .ok (f node) ∧ (∀ j ≠ i, s'.get j = s.get j) ∧
      s'.nodes.size = s.nodes.size ∧ s'.free = s.free := by
  have bound := lt_size_of_get h
  have ok := update_eq_ok_iff (f := f).mpr ⟨bound, rfl⟩
  exact ⟨_, ok, get_update_same h ok, fun j ne => get_update_other ok ne.symm, by simp, rfl⟩

theorem update_sizes (h : s.update i f = .ok s') :
    s'.nodes.size = s.nodes.size ∧ s'.free = s.free := by
  obtain ⟨bound, rfl⟩ := update_eq_ok_iff.mp h
  simp

theorem takes_of_sizes (size : s'.nodes.size = s.nodes.size) (free : s'.free = s.free) :
    s.Takes s' 0 :=
  ⟨by rw [size, free]; rfl, size.ge, free ▸ List.suffix_rfl, .inl size⟩

theorem takes_update (h : s.update i f = .ok s') : s.Takes s' 0 :=
  takes_of_sizes (update_sizes h).1 (update_sizes h).2

theorem Sound.of_sizes (hs : s.Sound) (size : s'.nodes.size = s.nodes.size)
    (free : s'.free = s.free) : s'.Sound where
  fits := by
    have := hs.fits
    unfold Fits at *
    omega
  free_lt i hi := by
    rw [free] at hi
    rw [size]
    exact hs.free_lt i hi
  free_nodup := free ▸ hs.free_nodup

theorem inUse_of_sizes (size : s'.nodes.size = s.nodes.size) (free : s'.free = s.free) (i : Slot) :
    s'.InUse i ↔ s.InUse i := by
  unfold InUse
  rw [size, free]

/-! ## 4. A node added -/

/-- A node goes to the free slot in front and leaves the others free, or it makes the store longer
by one. -/
theorem add_sizes (h : s.add node = .ok (i, s')) :
    (s.free = i :: s'.free ∧ s'.nodes.size = s.nodes.size) ∨
      (s.free = [] ∧ s'.free = [] ∧ s'.nodes.size = s.nodes.size + 1 ∧
        i = ⟨s.nodes.size.toUInt32⟩) := by
  unfold add at h
  split at h
  · rename_i first free hfree
    obtain ⟨s1, updated, h⟩ := bind_eq_ok_iff.mp h
    cases h
    obtain ⟨size, hfree'⟩ := update_sizes updated
    exact .inl ⟨hfree' ▸ hfree, size⟩
  · rename_i hfree
    cases h
    exact .inr ⟨hfree, hfree, Array.size_push _, rfl⟩

theorem takes_add (h : s.add node = .ok (i, s')) : s.Takes s' 1 := by
  rcases add_sizes h with ⟨front, size⟩ | ⟨none, none', size, -⟩
  · refine ⟨?_, size.ge, front ▸ List.suffix_cons i s'.free, .inl size⟩
    rw [front, List.length_cons]
    omega
  · refine ⟨?_, by omega, none' ▸ List.nil_suffix, .inr none'⟩
    rw [none, none']
    exact size

/-- **A node added**: it goes into a slot that was not in use, and nothing else changes. -/
theorem add_spec (hs : s.Sound) (room : s.HasRoom 1) (node : Node) :
    ∃ i s', s.add node = .ok (i, s') ∧ s'.Sound ∧ ¬ s.InUse i ∧
      (∀ j, s'.InUse j ↔ s.InUse j ∨ j = i) ∧ s'.get i = .ok node ∧
      (∀ j ≠ i, s.InUse j → s'.get j = s.get j) := by
  unfold add
  split
  · -- the free slot in front
    rename_i i free hfree
    have hi : i ∈ s.free := hfree ▸ List.mem_cons_self
    have nodup : i ∉ free ∧ free.Nodup := List.nodup_cons.mp (hfree ▸ hs.free_nodup)
    obtain ⟨old, hold⟩ := exists_get (s := { s with free }) (hs.free_lt i hi)
    obtain ⟨s', ok, here, elsewhere, size, free'⟩ := update_spec (fun _ => node) hold
    refine ⟨i, s', by rw [ok]; rfl, ⟨?_, fun j hj => ?_, ?_⟩, fun h => h.2 hi, fun j => ?_, here,
      fun j ne _ => elsewhere j ne⟩
    · have := hs.fits
      unfold Fits at *
      rwa [size]
    · rw [free'] at hj
      rw [size]
      exact hs.free_lt j (hfree ▸ List.mem_cons_of_mem _ hj)
    · rw [free']
      exact nodup.2
    · have hlt := hs.free_lt i hi
      unfold InUse
      rw [size, free', hfree, List.mem_cons]
      by_cases same : j = i
      · subst same
        simp [hlt, nodup.1]
      · simp [same]
  · -- one more slot
    rename_i hfree
    have fits : s.nodes.size + 1 < 4294967295 := by
      unfold HasRoom at room
      rw [hfree] at room
      simpa using room
    have index : s.nodes.size.toUInt32.toNat = s.nodes.size := by
      rw [Nat.toUInt32_eq]
      exact UInt32.toNat_ofNat_of_lt' (by simp only [UInt32.size]; omega)
    refine ⟨_, _, rfl, ⟨?_, fun j hj => ?_, ?_⟩, fun h => ?_, fun j => ?_, ?_, fun j ne use => ?_⟩
    · simpa [Fits] using fits
    · simp [hfree] at hj
    · simp [hfree]
    · have := h.1
      simp only [index] at this
      omega
    · unfold InUse
      simp only [Array.size_push, hfree, List.not_mem_nil, not_false_eq_true, and_true]
      constructor
      · intro h
        by_cases last : j.index.toNat = s.nodes.size
        · exact .inr (Slot.ext_toNat (by rw [last, index]))
        · exact .inl (by omega)
      · intro h
        rcases h with h | rfl
        · omega
        · simp [index]
    · rw [get_eq_ok_iff]
      simp [index]
    · have := use.1
      unfold get
      rw [Array.getElem?_push_lt this, Array.getElem?_eq_getElem this]

/-- The same of an addition that has gone through, and has left the store below the limit. -/
theorem Sound.of_add (hs : s.Sound) (ok : s.add node = .ok (i, s')) (fits : s'.Fits) :
    ¬ s.InUse i ∧ (∀ j, s'.InUse j ↔ s.InUse j ∨ j = i) ∧ s'.get i = .ok node ∧
      ∀ j ≠ i, s.InUse j → s'.get j = s.get j := by
  obtain ⟨_, _, ok', -, spec⟩ := add_spec hs ((takes_add ok).hasRoom_of_fits fits) node
  obtain ⟨rfl, rfl⟩ := Prod.mk.inj (Except.ok.inj (ok'.symm.trans ok))
  exact spec

/-! ## 5. A slot set free -/

theorem discard_sizes (h : s.discard i = .ok s') :
    s'.nodes.size = s.nodes.size ∧ s'.free = i :: s.free := by
  obtain ⟨s1, updated, h⟩ := bind_eq_ok_iff.mp h
  cases h
  obtain ⟨size, free⟩ := update_sizes updated
  exact ⟨size, congrArg (i :: ·) free⟩

/-- **A slot set free**: it is in use no more, and nothing else changes. -/
theorem discard_spec (hs : s.Sound) (use : s.InUse i) :
    ∃ s', s.discard i = .ok s' ∧ s'.Sound ∧ (∀ j, s'.InUse j ↔ s.InUse j ∧ j ≠ i) ∧
      (∀ j ≠ i, s'.get j = s.get j) := by
  obtain ⟨old, hold⟩ := exists_get use.1
  obtain ⟨s', ok, -, elsewhere, size, free⟩ :=
    update_spec (fun node => { node with right := .nil, down := .nil, digest := .empty }) hold
  refine ⟨{ s' with free := i :: s'.free }, by rw [discard, ok]; rfl, ⟨?_, fun j hj => ?_, ?_⟩,
    fun j => ?_, elsewhere⟩
  · have := hs.fits
    unfold Fits at *
    rwa [size]
  · rw [size]
    rcases List.mem_cons.mp hj with rfl | hj
    · exact use.1
    · exact hs.free_lt j (free ▸ hj)
  · exact List.nodup_cons.mpr ⟨free ▸ use.2, free ▸ hs.free_nodup⟩
  · unfold InUse
    simp only [size, free, List.mem_cons, not_or]
    tauto

end Store

end AuthenticatedSet
