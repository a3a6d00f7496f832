import AuthenticatedSet.Proofs.Layout.Link

/-!
# Layouts: a tower put in

A key that is on the bottom level is put on further levels one by one, and where the levels run out
an empty one is put on top first. Each step leaves a layout of the right shape, and all a step does
to the rest of the layout is to add places.

* `Layout.Extends`   -- new places, the old ones with the slots and digests they had
* `Layout.Preceded`  -- slots of the predecessors of a key, upward from a level
* `Carries.stack`    -- one level more for a key
* `Carries.addLevel` -- an empty level on top, and `Carries.addLevel_stack` a key on it
* `Carries.raise`    -- a whole tower, on top of its bottom node
-/

namespace AuthenticatedSet.Layout

variable {y y' y'' : Layout} {s : Store} {l : SkipList} {level m height : Nat} {b c p : Bound}
  {i j : Slot} {k : Key} {new new' : List Site}

/-! ## 1. New places -/

/-- `y'` has the places of `y`, with their slots and digests, and these new ones, which
have no digest yet. -/
structure Extends (y y' : Layout) (new : List Site) : Prop where
  mem : ∀ {m c}, c ∈ y'.row m ↔ c ∈ y.row m ∨ (m, c) ∈ new
  slot : ∀ {m c}, c ∈ y.row m → y'.slot m c = y.slot m c
  digest : ∀ {m c}, c ∈ y.row m → y'.digest m c = y.digest m c
  fresh : ∀ {m c}, (m, c) ∈ new → y'.digest m c = .empty

theorem Extends.refl (y : Layout) : y.Extends y [] :=
  ⟨by simp, fun _ => rfl, fun _ => rfl, by simp⟩

theorem Extends.trans (h : y.Extends y' new) (h' : y'.Extends y'' new') :
    y.Extends y'' (new ++ new') := by
  refine ⟨fun {m c} => ?_, fun hc => ?_, fun hc => ?_, fun hc => ?_⟩
  · rw [h'.mem, h.mem, List.mem_append, or_assoc]
  · rw [h'.slot (h.mem.mpr (.inl hc)), h.slot hc]
  · rw [h'.digest (h.mem.mpr (.inl hc)), h.digest hc]
  · rcases List.mem_append.mp hc with first | second
    · rw [h'.digest (h.mem.mpr (.inr first)), h.fresh first]
    · exact h'.fresh second

theorem Extends.mem_of_mem (h : y.Extends y' new) (hc : c ∈ y.row m) : c ∈ y'.row m :=
  h.mem.mpr (.inl hc)

theorem extends_link (new : b ∉ y.row level) (r : Bool) :
    y.Extends (y.link level b i r) [(level, b)] := by
  refine ⟨fun {m c} => ?_, slot_link_of_mem new, fun {m c} hc => if_neg ?_, fun {m c} hc => ?_⟩
  · rw [mem_row_link, or_comm, List.mem_singleton, Prod.mk.injEq]
  · intro h
    obtain ⟨rfl, rfl⟩ := h
    exact new hc
  · exact if_pos (Prod.mk.inj (List.mem_singleton.mp hc))

theorem extends_mark (level : Nat) (b : Bound) : y.Extends (y.mark level b) [] :=
  ⟨by simp [mark], fun _ => rfl, fun _ => rfl, by simp⟩

/-! ## 2. Shapes -/

namespace Shaped

/-- A key that is nowhere yet may be put on the bottom level. -/
theorem link_bottom (hy : y.Shaped height) (new : .key k ∉ y.row 0) (i : Slot) :
    (y.link 0 (.key k) i false).Shaped height where
  positive := hy.positive
  sorted := sorted_link hy.sorted new
  lower h := mem_row_link.mpr (.inr (hy.lower h))
  upper h := mem_row_link.mpr (.inr (hy.upper h))
  beyond {m} h := (if_neg (by have := hy.positive; omega)).trans (hy.beyond h)
  nested {m c} hc := by
    rcases mem_row_link.mp hc with h | h
    · exact absurd h.1 (by omega)
    · exact mem_row_link.mpr (.inr (hy.nested h))
  marked {m c} hc := by
    have above : c ∈ (y.link 0 (.key k) i false).row (m + 1) ↔ c ∈ y.row (m + 1) := by
      rw [mem_row_link]
      exact or_iff_right fun h => absurd h.1 (by omega)
    rw [above]
    by_cases same : m = 0 ∧ c = .key k
    · obtain ⟨rfl, rfl⟩ := same
      simp only [link, and_self, if_pos, Bool.false_eq_true, false_iff]
      exact fun h => new (hy.nested h)
    · simp only [link, if_neg same]
      exact hy.marked ((mem_row_link.mp hc).resolve_left same)

/-- A key may be put on the level above its topmost one, which then is marked. -/
theorem link_above (hy : y.Shaped height) (hk : b ∈ y.row level) (new : b ∉ y.row (level + 1))
    (h : level + 1 < height) (i : Slot) :
    ((y.mark level b).link (level + 1) b i false).Shaped height where
  positive := hy.positive
  sorted := sorted_link (y := y.mark level b) hy.sorted new
  lower h := mem_row_link.mpr (.inr (hy.lower h))
  upper h := mem_row_link.mpr (.inr (hy.upper h))
  beyond {m} h := (if_neg (by omega)).trans (hy.beyond h)
  nested {m c} hc := by
    rcases mem_row_link.mp hc with ⟨hm, rfl⟩ | h
    · obtain rfl : m = level := by omega
      exact mem_row_link.mpr (.inr hk)
    · exact mem_row_link.mpr (.inr (hy.nested h))
  marked {m c} hc := by
    rw [mem_row_link]
    by_cases top : m = level + 1 ∧ c = b
    · obtain ⟨rfl, rfl⟩ := top
      simp only [link, and_self, if_pos, Bool.false_eq_true, false_iff, not_or]
      exact ⟨by omega, fun h => new (hy.nested h)⟩
    · have hc' : c ∈ y.row m := (mem_row_link.mp hc).resolve_left top
      simp only [link, mark, if_neg top]
      by_cases under : m = level ∧ c = b
      · simp [under]
      · rw [if_neg under, hy.marked hc']
        exact (or_iff_right fun h => under ⟨by omega, h.2⟩).symm

end Shaped

/-- The layout with the upper end alone on a level on top, and the ends below it marked. -/
def growUpper (y : Layout) (height : Nat) (upper : Slot) : Layout :=
  ((y.mark (height - 1) .lower).mark (height - 1) .upper).link height .upper upper false

/-- The layout with an empty level on top, its ends in these slots. -/
def grow (y : Layout) (height : Nat) (upper lower : Slot) : Layout :=
  (y.growUpper height upper).link height .lower lower false

theorem mem_row_growUpper :
    c ∈ (y.growUpper height i).row m ↔ (m = height ∧ c = .upper) ∨ c ∈ y.row m := mem_row_link

theorem mem_row_grow : c ∈ (y.grow height i j).row m ↔
    c ∈ y.row m ∨ (m = height ∧ (c = .upper ∨ c = .lower)) := by
  rw [grow, mem_row_link, mem_row_growUpper]
  tauto

theorem raised_grow_of_lt (h : m < height) : (y.grow height i j).raised m c = true ↔
    (m + 1 = height ∧ (c = .upper ∨ c = .lower)) ∨ y.raised m c = true := by
  have other : m ≠ height := by omega
  have top : m = height - 1 ↔ m + 1 = height := by omega
  simp only [grow, growUpper, link, mark, other, false_and, if_false, top]
  grind

theorem raised_grow_top (hc : c = .upper ∨ c = .lower) :
    (y.grow height i j).raised height c = false := by
  rcases hc with rfl | rfl
  · simp [grow, growUpper, link]
  · simp [grow, link]

namespace Shaped

/-- A bound of a level put on top links down to the top level. -/
theorem down_height (hy : y.Shaped height) (b : Bound) :
    y.down height b = y.slot (height - 1) b := by
  obtain ⟨top, rfl⟩ := Nat.exists_eq_add_one.mpr hy.positive
  rfl

theorem not_mem_height (hy : y.Shaped height) (b : Bound) : b ∉ y.row height := by
  rw [hy.beyond le_rfl]
  exact List.not_mem_nil

/-- Of a level put on top, the upper end comes first and alone. -/
theorem mem_row_growUpper_top (hy : y.Shaped height) :
    c ∈ (y.growUpper height i).row height ↔ c = .upper := by
  rw [mem_row_growUpper, or_iff_left (hy.not_mem_height c), and_iff_right rfl]

theorem lower_not_mem_growUpper (hy : y.Shaped height) :
    .lower ∉ (y.growUpper height i).row height := by
  rw [hy.mem_row_growUpper_top]
  decide

theorem growUpper_sorted (hy : y.Shaped height) (i : Slot) (m : Nat) :
    ((y.growUpper height i).row m).Pairwise (· < ·) :=
  sorted_link (y := (y.mark (height - 1) .lower).mark (height - 1) .upper) hy.sorted
    (hy.not_mem_height .upper) m

/-- The new places of an empty level. -/
theorem extends_grow (hy : y.Shaped height) (i j : Slot) :
    y.Extends (y.grow height i j) [(height, .upper), (height, .lower)] := by
  have lower := extends_mark (y := y) (height - 1) .lower
  have upper := extends_mark (y := y.mark (height - 1) .lower) (height - 1) .upper
  have linked := extends_link (y := (y.mark (height - 1) .lower).mark (height - 1) .upper)
    (i := i) (hy.not_mem_height .upper) false
  exact ((lower.trans upper).trans linked).trans (extends_link hy.lower_not_mem_growUpper false)

theorem grow (hy : y.Shaped height) (i j : Slot) :
    (y.grow height i j).Shaped (height + 1) where
  positive := by omega
  sorted := sorted_link (hy.growUpper_sorted i) hy.lower_not_mem_growUpper
  lower {m} h := by
    rw [mem_row_grow]
    by_cases top : m = height
    · exact .inr ⟨top, .inr rfl⟩
    · exact .inl (hy.lower (by omega))
  upper {m} h := by
    rw [mem_row_grow]
    by_cases top : m = height
    · exact .inr ⟨top, .inl rfl⟩
    · exact .inl (hy.upper (by omega))
  beyond {m} h := by
    refine List.eq_nil_iff_forall_not_mem.mpr fun c hc => ?_
    rcases mem_row_grow.mp hc with hc | hc
    · exact absurd (hy.lt_height hc) (by omega)
    · omega
  nested {m c} hc := by
    rw [mem_row_grow] at hc ⊢
    rcases hc with hc | ⟨hm, rfl | rfl⟩
    · exact .inl (hy.nested hc)
    · exact .inl (hy.upper (by omega))
    · exact .inl (hy.lower (by omega))
  marked {m c} hc := by
    rw [mem_row_grow]
    rcases mem_row_grow.mp hc with old | ⟨rfl, new⟩
    · rw [raised_grow_of_lt (hy.lt_height old), hy.marked old, or_comm]
    · rw [raised_grow_top new]
      refine ⟨(nomatch ·), fun h => ?_⟩
      rcases h with h | h
      · exact absurd (hy.lt_height h) (by omega)
      · omega

end Shaped

/-- The upper end of a level put on top, written after the marks on the ends below it. -/
theorem Describes.growUpper (hs : y.Describes s) (hy : y.Shaped height) (room : s.HasRoom 1) :
    ∃ s1 s2 i s', s.markContinued (y.slot (height - 1) .lower) = .ok s1 ∧
      s1.markContinued (y.slot (height - 1) .upper) = .ok s2 ∧
      s2.add (.fresh .upper .nil (y.slot (height - 1) .upper)) = .ok (i, s') ∧
      (y.growUpper height i).Describes s' := by
  have last : height - 1 < height := Nat.sub_one_lt hy.positive.ne'
  obtain ⟨s1, mark1, h1⟩ := hs.mark (hy.lower last)
  obtain ⟨s2, mark2, h2⟩ := h1.mark (b := .upper) (hy.upper last)
  have room2 : s2.HasRoom 1 := ((Store.takes_update mark1).trans
    (Store.takes_update mark2)).hasRoom (by simpa using room)
  obtain ⟨i, s', add, h'⟩ := h2.addFirst (b := .upper) (hy.sorted height) hy.upper_mem
    (fun c hc => absurd hc (hy.not_mem_height c)) (absurd rfl)
    (fun h => hy.not_mem_height _ (hy.nested h)) room2 false
  refine ⟨s1, s2, i, s', mark1, mark2, ?_, h'⟩
  rw [← add, right_upper, ← hy.down_height]
  rfl

/-- The lower end of a level put on top, written in front of the upper one. -/
theorem Describes.growLower (hs : (y.growUpper height i).Describes s) (hy : y.Shaped height)
    (room : s.HasRoom 1) :
    ∃ j s', s.add (.fresh .lower i (y.slot (height - 1) .lower)) = .ok (j, s') ∧
      (y.grow height i j).Describes s' := by
  have upper : Bound.upper ∈ (y.growUpper height i).row height :=
    hy.mem_row_growUpper_top.mpr rfl
  have above : Bound.lower ∉ (y.growUpper height i).row (height + 1) := by
    rw [mem_row_growUpper]
    intro h
    rcases h with h | h
    · omega
    · exact hy.not_mem_height _ (hy.nested h)
  have first : ∀ c ∈ (y.growUpper height i).row height, .lower < c := by
    intro c hc
    rw [hy.mem_row_growUpper_top.mp hc]
    exact Bound.lower_lt_upper
  have ended : ∀ {m c}, c ∈ (y.growUpper height i).row m →
      Bound.upper ∈ (y.growUpper height i).row m := by
    intro m c hc
    rw [mem_row_growUpper] at hc ⊢
    rcases hc with h | h
    · exact .inl ⟨h.1, rfl⟩
    · exact .inr (hy.upper_mem h)
  have right : (y.growUpper height i).right height .lower = i := by
    rw [right_of_ne (by decide), next, hy.mem_row_growUpper_top.mp (nextIn_mem upper .lower)]
    exact slot_link_self
  obtain ⟨j, s', add, h'⟩ := hs.addFirst (hy.growUpper_sorted i height) ended first
    (fun _ => upper) above room false
  refine ⟨j, s', ?_, h'⟩
  rw [← add, right, ← hy.down_height, Layout.growUpper, down_link (by omega)]
  rfl

/-! ## 3. One level of a tower -/

theorem takes_linkRight {s s' : Store} {left down i : Slot}
    (h : s.linkRight left k down = .ok (i, s')) : s.Takes s' 1 := by
  obtain ⟨node, -, h⟩ := bind_eq_ok_iff.mp h
  obtain ⟨⟨i, s1⟩, add, h⟩ := bind_eq_ok_iff.mp h
  obtain ⟨s2, ok, h⟩ := bind_eq_ok_iff.mp h
  cases h
  exact (Store.takes_add add).trans (Store.takes_update ok)

theorem takes_stack {l' : SkipList} {left below i : Slot}
    (h : l.stack k left below = .ok (i, l')) : l.store.Takes l'.store 1 := by
  obtain ⟨s1, marked, h⟩ := bind_eq_ok_iff.mp h
  obtain ⟨⟨i, s2⟩, linked, h⟩ := bind_eq_ok_iff.mp h
  cases h
  simpa using (Store.takes_update marked).trans (takes_linkRight linked)

theorem takes_addLevel {l' : SkipList} (h : l.addLevel = .ok l') : l.store.Takes l'.store 2 := by
  obtain ⟨s1, mark1, h⟩ := bind_eq_ok_iff.mp h
  obtain ⟨s2, mark2, h⟩ := bind_eq_ok_iff.mp h
  obtain ⟨⟨upper, s3⟩, add1, h⟩ := bind_eq_ok_iff.mp h
  obtain ⟨⟨lower, s4⟩, add2, h⟩ := bind_eq_ok_iff.mp h
  cases h
  have marks := (Store.takes_update mark1).trans (Store.takes_update mark2)
  exact marks.trans ((Store.takes_add add1).trans (Store.takes_add add2))

namespace Carries

theorem upper_mem (hl : y.Carries l) {m : Nat} {c : Bound} (hc : c ∈ y.row m) :
    .upper ∈ y.row m := hl.shaped.upper_mem hc

theorem top_lower_mem (hl : y.Carries l) : .lower ∈ y.row (l.height - 1) :=
  hl.shaped.lower (by have := hl.shaped.positive; omega)

theorem top_upper_mem (hl : y.Carries l) : .upper ∈ y.row (l.height - 1) :=
  hl.shaped.upper (by have := hl.shaped.positive; omega)

/-- **A key put on the level above its topmost one.** -/
theorem stack (hl : y.Carries l) (hk : .key k ∈ y.row level) (new : .key k ∉ y.row (level + 1))
    (hp : p ∈ y.row (level + 1)) (lt : p < .key k) (gt : .key k < y.next (level + 1) p)
    (room : l.store.HasRoom 1) :
    ∃ s' y', l.stack k (y.slot (level + 1) p) (y.slot level (.key k)) =
        .ok (y'.slot (level + 1) (.key k), { l with store := s' }) ∧
      y'.Carries { l with store := s' } ∧ y.Extends y' [(level + 1, .key k)] := by
  have below := hl.shaped.lt_height hp
  obtain ⟨s1, marked, h1⟩ := hl.describes.mark hk
  obtain ⟨i, s', linked, h'⟩ := h1.linkRight (hl.shaped.sorted (level + 1))
    hl.upper_mem hp lt gt (fun h => new (hl.shaped.nested h))
    ((Store.takes_update marked).hasRoom (by simpa using room))
  refine ⟨s', _, ?_, ⟨h', hl.shaped.link_above hk new below i, ?_, ?_⟩,
    (extends_mark level (.key k)).trans (extends_link (y := y.mark level (.key k)) new false)⟩
  · rw [SkipList.stack, marked, ok_bind, slot_link_self]
    show (s1.linkRight _ _ _ >>= _) = _
    rw [show y.slot level (.key k) = (y.mark level (.key k)).down (level + 1) (.key k) from rfl,
      show y.slot (level + 1) p = (y.mark level (.key k)).slot (level + 1) p from rfl, linked]
    rfl
  · rw [slot_link_of_mem (y := y.mark level (.key k)) new hl.top_lower_mem]
    exact hl.lower
  · rw [slot_link_of_mem (y := y.mark level (.key k)) new hl.top_upper_mem]
    exact hl.upper

/-- **An empty level put on top.** -/
theorem addLevel (hl : y.Carries l) (room : l.store.HasRoom 2) :
    ∃ l' y', l.addLevel = .ok l' ∧ y'.Carries l' ∧
      y.Extends y' [(l.height, .upper), (l.height, .lower)] ∧
      l'.height = l.height + 1 ∧ l'.size = l.size ∧ l'.version = l.version := by
  have hy := hl.shaped
  obtain ⟨s1, s2, upper, s3, mark1, mark2, add1, h3⟩ :=
    hl.describes.growUpper hy (room.mono (Nat.le_succ 1))
  have grown3 : l.store.Takes s3 1 := by
    simpa using (Store.takes_update mark1).trans
      ((Store.takes_update mark2).trans (Store.takes_add add1))
  obtain ⟨lower, s', add2, h'⟩ := h3.growLower hy (grown3.hasRoom (m := 1) room)
  refine ⟨{ l with store := s', top := ⟨lower, upper⟩, height := l.height + 1 }, _, ?_,
    ⟨h', hy.grow upper lower, ?_, ?_⟩, hy.extends_grow upper lower, rfl, rfl, rfl⟩
  · rw [SkipList.addLevel, hl.lower, mark1, ok_bind, hl.upper, mark2, ok_bind, add1, ok_bind]
    show (s3.add _ >>= _) = _
    rw [add2]
    rfl
  · show lower = (y.grow l.height upper lower).slot (l.height + 1 - 1) .lower
    rw [Nat.add_sub_cancel]
    exact slot_link_self.symm
  · show upper = (y.grow l.height upper lower).slot (l.height + 1 - 1) .upper
    rw [Nat.add_sub_cancel, grow,
      slot_link_of_mem hy.lower_not_mem_growUpper (hy.mem_row_growUpper_top.mpr rfl)]
    exact slot_link_self.symm

/-- **A key put on an empty level on top**, which is put there first. -/
theorem addLevel_stack (hl : y.Carries l) (hk : .key k ∈ y.row level) (top : level + 1 = l.height)
    (room : l.store.HasRoom 3) :
    ∃ l' s' y', l.addLevel = .ok l' ∧
      l'.stack k l'.top.lower (y.slot level (.key k)) =
        .ok (y'.slot (level + 1) (.key k), { l' with store := s' }) ∧
      y'.Carries { l' with store := s' } ∧
      y.Extends y' [(level + 1, .upper), (level + 1, .lower), (level + 1, .key k)] ∧
      l'.top.lower = y'.slot (level + 1) .lower ∧
      l'.height = l.height + 1 ∧ l'.size = l.size ∧ l'.version = l.version := by
  obtain ⟨l', y1, added, h1, wider1, height1, size1, version1⟩ := hl.addLevel (room.mono (by omega))
  rw [← top] at wider1
  have ends : ∀ c, c ∈ y1.row (level + 1) ↔ c = .upper ∨ c = .lower := by
    intro c
    rw [wider1.mem, or_iff_right (top ▸ hl.shaped.not_mem_height c)]
    simp
  have hlower : Bound.lower ∈ y1.row (level + 1) := (ends _).mpr (.inr rfl)
  have next : y1.next (level + 1) .lower = .upper :=
    ((ends _).mp (h1.shaped.next_mem hlower)).resolve_right (Shaped.lt_next (by decide)).ne'
  have lower1 : l'.top.lower = y1.slot (level + 1) .lower := by
    rw [h1.lower, height1, top]
    rfl
  obtain ⟨s', y', stacked, h', wider'⟩ := h1.stack (wider1.mem_of_mem hk)
    (fun h => by simpa using (ends _).mp h) hlower (Bound.lower_lt_key k)
    (next ▸ Bound.key_lt_upper k) ((takes_addLevel added).hasRoom room)
  refine ⟨l', s', y', added, ?_, h', wider1.trans wider', ?_, height1, size1, version1⟩
  · rw [lower1, ← wider1.slot hk]
    exact stacked
  · rw [lower1, wider'.slot hlower]

end Carries

/-! ## 4. A whole tower -/

/-- The slots are those of the predecessors of a bound, upward from this level to the top. -/
def Preceded (y : Layout) (b : Bound) (height : Nat) : Nat → List Slot → Prop
  | level, [] => level = height
  | level, i :: left => (∃ p ∈ y.row level, p < b ∧ b ≤ y.next level p ∧ i = y.slot level p) ∧
      y.Preceded b height (level + 1) left

theorem Extends.congr (h : y.Extends y' new) (same : ∀ site, site ∈ new ↔ site ∈ new') :
    y.Extends y' new' :=
  ⟨by simp only [h.mem, same, implies_true], h.slot, h.digest, fun hc => h.fresh ((same _).mpr hc)⟩

/-- A level without new places has the row it had. -/
theorem Extends.row_eq (h : y.Extends y' new) (sorted : (y.row m).Pairwise (· < ·))
    (sorted' : (y'.row m).Pairwise (· < ·)) (far : ∀ c, (m, c) ∉ new) : y'.row m = y.row m :=
  sorted'.eq_of_mem_iff sorted fun {c} => by rw [h.mem, or_iff_left (far c)]

/-- New places below a level leave the predecessors from there on as they are. -/
theorem Preceded.extends {left : List Slot} (h : y.Extends y' new)
    (sorted : ∀ m, (y.row m).Pairwise (· < ·)) (sorted' : ∀ m, (y'.row m).Pairwise (· < ·))
    (far : ∀ site ∈ new, site.1 < level) (hleft : y.Preceded b height level left) :
    y'.Preceded b height level left := by
  induction left generalizing level with
  | nil => exact hleft
  | cons i left ih =>
    obtain ⟨⟨p, hp, lt, le, same⟩, hleft⟩ := hleft
    have row : y'.row level = y.row level :=
      h.row_eq (sorted level) (sorted' level) fun c hc => (far _ hc).false
    refine ⟨⟨p, h.mem_of_mem hp, lt, ?_, ?_⟩, ih (fun site hs => by have := far site hs; omega) hleft⟩
    · rw [next, row]
      exact le
    · rw [h.slot hp]
      exact same

/-- The places of a bound on so many levels from this one on. -/
def column (b : Bound) (level levels : Nat) : List Site :=
  (List.range' level levels).map fun m => (m, b)

theorem mem_column {levels : Nat} :
    (m, c) ∈ column b level levels ↔ c = b ∧ level ≤ m ∧ m < level + levels := by
  simp only [column, List.mem_map, List.mem_range'_1, Prod.mk.injEq]
  constructor
  · intro h
    obtain ⟨n, hn, rfl, rfl⟩ := h
    exact ⟨rfl, hn⟩
  · intro h
    obtain ⟨rfl, hm⟩ := h
    exact ⟨m, hm, rfl, rfl⟩

theorem column_succ (b : Bound) (level levels : Nat) :
    column b level (levels + 1) = (level, b) :: column b (level + 1) levels := rfl

theorem Extends.slots_eq (h : y.Extends y' new) {sites : List Site}
    (old : ∀ site ∈ sites, site.2 ∈ y.row site.1) : y'.slots sites = y.slots sites :=
  List.map_congr_left fun site hs => h.slot (old site hs)

/-- What a tower of a key raised by so many levels leaves, where the list has grown by `grown`
levels: the layout with the tower above `level` and with the new ends, and their slots. -/
structure Raises (y y' : Layout) (l : SkipList) (k : Key) (level levels grown : Nat)
    (raised : Raised) : Prop where
  carries : y'.Carries raised.list
  wider : y.Extends y' (column (.key k) (level + 1) levels ++
    (column .upper l.height grown ++ column .lower l.height grown))
  tower : raised.tower = y'.slots (column (.key k) (level + 1) levels)
  lefts : raised.lefts = y'.slots (column .lower l.height grown)
  size : raised.list.size = l.size
  version : raised.list.version = l.version
  height : raised.list.height = l.height + grown

/-- **A tower raised on its bottom node**: the key goes on so many levels above this one, and where
there are none an empty level goes on top first. -/
theorem Carries.raise {levels : Nat} {left : List Slot} (hl : y.Carries l)
    (hk : .key k ∈ y.row level) (absent : .key k ∉ y.row (level + 1))
    (hleft : y.Preceded (.key k) l.height (level + 1) left)
    (room : l.store.HasRoom (levels + 2 * (levels - left.length))) :
    ∃ raised y', l.raise k levels left (y.slot level (.key k)) = .ok raised ∧
      y.Raises y' l k level levels (levels - left.length) raised := by
  induction levels generalizing l y level left with
  | zero =>
    refine ⟨_, y, rfl, hl, ?_, rfl, ?_, rfl, rfl, ?_⟩
    · simpa [column] using Extends.refl y
    · simp [column, slots]
    · simp
  | succ levels ih =>
    cases left with
    | cons first left =>
      obtain ⟨⟨p, hp, lt, le, rfl⟩, hleft⟩ := hleft
      have gt : Bound.key k < y.next (level + 1) p :=
        lt_of_le_of_ne le fun same => absent (same ▸ hl.shaped.next_mem hp)
      obtain ⟨s1, y1, stacked, h1, wider⟩ := hl.stack hk absent hp lt gt (room.mono (by omega))
      have absent1 : Bound.key k ∉ y1.row (level + 2) := fun h => by
        rcases wider.mem.mp h with h | h
        · exact absent (hl.shaped.nested h)
        · simp at h
      have hk1 : Bound.key k ∈ y1.row (level + 1) := wider.mem.mpr (.inr List.mem_cons_self)
      obtain ⟨raised, y', ok, h'⟩ := ih h1 hk1 absent1
        (hleft.extends wider hl.shaped.sorted h1.shaped.sorted (by simp))
        ((takes_stack stacked).hasRoom (room.mono (by simp only [List.length_cons]; omega)))
      have grown : levels + 1 - (y.slot (level + 1) p :: left).length = levels - left.length := by
        simp
      rw [grown]
      refine ⟨{ raised with tower := y1.slot (level + 1) (.key k) :: raised.tower }, y', ?_,
        h'.carries, wider.trans h'.wider, ?_, h'.lefts, h'.size, h'.version, h'.height⟩
      · show (l.stack k (y.slot (level + 1) p) (y.slot level (.key k)) >>= _) = _
        rw [stacked, ok_bind]
        show (({ l with store := s1 } : SkipList).raise k levels left _ >>= _) = _
        rw [ok]
        rfl
      · rw [h'.tower, ← h'.wider.slot hk1]
        rfl
    | nil =>
      have top : level + 1 = l.height := hleft
      obtain ⟨l1, s2, y2, added, stacked, h2, wider2, lower2, height1, size1, version1⟩ :=
        hl.addLevel_stack hk top (room.mono (by simp only [List.length_nil]; omega))
      have hk2 : Bound.key k ∈ y2.row (level + 1) := wider2.mem.mpr (.inr (by simp))
      have hlower2 : Bound.lower ∈ y2.row (level + 1) := wider2.mem.mpr (.inr (by simp))
      have absent2 : Bound.key k ∉ y2.row (level + 2) := by
        intro h
        rcases wider2.mem.mp h with h | h
        · exact absurd (hl.shaped.lt_height h) (by omega)
        · simp at h
      have top2 : y2.Preceded (.key k) l1.height (level + 1 + 1) [] := by
        show level + 1 + 1 = l1.height
        omega
      have grown := (takes_addLevel added).trans (takes_stack stacked)
      obtain ⟨raised, y', ok, h'⟩ := ih h2 hk2 absent2 top2
        (grown.hasRoom (room.mono (by simp only [List.length_nil]; omega)))
      refine ⟨{ raised with
          tower := y2.slot (level + 1) (.key k) :: raised.tower
          lefts := l1.top.lower :: raised.lefts
          events := .grew l1.height :: raised.events }, y', ?_,
        h'.carries, (wider2.trans h'.wider).congr ?_, ?_, ?_, ?_, ?_, ?_⟩
      · show (l.addLevel >>= _) = _
        rw [added, ok_bind]
        show (l1.stack k l1.top.lower _ >>= _) = _
        rw [stacked, ok_bind]
        show (({ l1 with store := s2 } : SkipList).raise k levels [] _ >>= _) = _
        rw [ok]
        rfl
      · intro site
        rw [← top] at height1 ⊢
        rw [height1]
        simp only [List.length_nil, Nat.sub_zero, column_succ, List.mem_append, List.mem_cons,
          List.not_mem_nil, or_false]
        tauto
      · rw [h'.tower, ← h'.wider.slot hk2]
        rfl
      · rw [h'.lefts, lower2, ← h'.wider.slot hlower2, height1, ← top]
        rfl
      · exact h'.size.trans size1
      · exact h'.version.trans version1
      · rw [h'.height]
        show l1.height + (levels - 0) = l.height + (levels + 1 - 0)
        omega

end AuthenticatedSet.Layout
