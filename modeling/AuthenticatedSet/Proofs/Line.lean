import AuthenticatedSet.Proofs.Term

/-!
# Lines: what a level looks like in the store

A level is what right links lead along, from its left end up to a right end; its left end is what
down links lead to from the left end of the level above. Neither needs a layout, so both can be said
of any store.

* `Seat`                       -- a slot with the node that stands in it
* `Store.Line`                 -- the seats from a slot to the right end
* `SkipList.LeftEnd`, `.Line`  -- where a level starts, and its seats
* `SkipList.HasOn`             -- a key is on a level
* `Line.unique`                -- a level has one line
* `Carries.line_iff`           -- the lines of a list with a layout are its rows
-/

namespace AuthenticatedSet

/-! ## 1. Lines -/

/-- A slot with the node that stands in it. -/
structure Seat where
  slot : Slot
  node : Node

/-- The bound that a seat stands at. -/
def Seat.bound (seat : Seat) : Bound := seat.node.bound

/-- The seats from a slot along right links up to the first right end. -/
inductive Store.Line (s : Store) : Slot → List Seat → Prop
  | last {i : Slot} {node : Node} (here : s.get i = .ok node) (ends : node.bound = .upper) :
      s.Line i [⟨i, node⟩]
  | cons {i : Slot} {node : Node} {rest : List Seat} (here : s.get i = .ok node)
      (inner : node.bound ≠ .upper) (onward : s.Line node.right rest) :
      s.Line i (⟨i, node⟩ :: rest)

/-- The slot that a level starts in: that of the top level is named by the list, and those of the
others are linked down to. -/
inductive SkipList.LeftEnd (l : SkipList) : Nat → Slot → Prop
  | top {level : Nat} (highest : level + 1 = l.height) : l.LeftEnd level l.top.lower
  | down {level : Nat} {i : Slot} {node : Node} (above : l.LeftEnd (level + 1) i)
      (here : l.store.get i = .ok node) : l.LeftEnd level node.down

/-- The seats of a level, from its left end to its right end. -/
def SkipList.Line (l : SkipList) (level : Nat) (line : List Seat) : Prop :=
  ∃ i, l.LeftEnd level i ∧ l.store.Line i line

/-- The key is on the level. -/
def SkipList.HasOn (l : SkipList) (level : Nat) (k : Key) : Prop :=
  ∃ line, l.Line level line ∧ ∃ seat ∈ line, seat.bound = .key k

section Line

variable {s : Store} {l : SkipList} {i i' : Slot} {line line' before after : List Seat}
  {seat next : Seat} {level : Nat}

/-- What a line starts with. -/
theorem Store.Line.eq_cons (run : s.Line i line) :
    ∃ node rest, s.get i = .ok node ∧ line = ⟨i, node⟩ :: rest := by
  cases run with
  | last here _ => exact ⟨_, _, here, rfl⟩
  | cons here _ _ => exact ⟨_, _, here, rfl⟩

/-- The seats of a line hold the nodes of the store. -/
theorem Store.Line.get (run : s.Line i line) (mem : seat ∈ line) :
    s.get seat.slot = .ok seat.node := by
  induction run with
  | last here _ =>
    obtain rfl := List.mem_singleton.mp mem
    exact here
  | cons here _ _ ih =>
    rcases List.mem_cons.mp mem with rfl | mem
    · exact here
    · exact ih mem

/-- Any seat of a line starts a line. -/
theorem Store.Line.suffix (run : s.Line i line) (cut : line = before ++ seat :: after) :
    s.Line seat.slot (seat :: after) := by
  induction run generalizing before with
  | last here ends =>
    cases before with
    | nil =>
      obtain ⟨rfl, rfl⟩ := List.cons.inj cut
      exact .last here ends
    | cons => simp at cut
  | cons here inner onward ih =>
    cases before with
    | nil =>
      obtain ⟨rfl, rfl⟩ := List.cons.inj cut
      exact .cons here inner onward
    | cons => exact ih (List.cons.inj cut).2

/-- The seats of a line are linked one to the next. -/
theorem Store.Line.get_right (run : s.Line i line) (cut : line = before ++ seat :: next :: after) :
    s.get seat.node.right = .ok next.node := by
  obtain ⟨slot, node⟩ := seat
  cases run.suffix cut with
  | cons _ _ onward =>
    obtain ⟨node', rest, right, same⟩ := onward.eq_cons
    obtain ⟨rfl, -⟩ := List.cons.inj same
    exact right

theorem Store.Line.unique (h : s.Line i line) (h' : s.Line i line') : line = line' := by
  induction h generalizing line' with
  | last here ends =>
    cases h' with
    | last here' _ =>
      rw [here] at here'
      cases here'
      rfl
    | cons here' inner _ =>
      rw [here] at here'
      cases here'
      exact absurd ends inner
  | cons here inner _ ih =>
    cases h' with
    | last here' ends =>
      rw [here] at here'
      cases here'
      exact absurd ends inner
    | cons here' _ onward' =>
      rw [here] at here'
      cases here'
      rw [ih onward']

theorem SkipList.LeftEnd.lt_height (h : l.LeftEnd level i) : level < l.height := by
  induction h with
  | top highest => omega
  | down _ _ ih => omega

theorem SkipList.LeftEnd.unique (h : l.LeftEnd level i) (h' : l.LeftEnd level i') : i = i' := by
  induction h generalizing i' with
  | top highest =>
    cases h' with
    | top => rfl
    | down above _ =>
      have := above.lt_height
      omega
  | down above here ih =>
    cases h' with
    | top highest =>
      have := above.lt_height
      omega
    | down above' here' =>
      obtain rfl := ih above'
      rw [here] at here'
      cases here'
      rfl

/-- **A level has one line.** -/
theorem SkipList.Line.unique (h : l.Line level line) (h' : l.Line level line') : line = line' := by
  obtain ⟨i, start, run⟩ := h
  obtain ⟨i', start', run'⟩ := h'
  obtain rfl := start.unique start'
  exact run.unique run'

end Line

/-! ## 2. The lines of a layout -/

namespace Layout

variable {y : Layout} {s : Store} {l : SkipList} {height level : Nat} {b : Bound} {k : Key}

/-- The seat of a bound of a level. -/
def seat (y : Layout) (level : Nat) (b : Bound) : Seat := ⟨y.slot level b, y.node level b⟩

/-- From any bound of a level right links lead along the rest of its row. -/
theorem Describes.line (hs : y.Describes s) (hy : y.Shaped height) (hb : b ∈ y.row level) :
    s.Line (y.slot level b) (((y.row level).filter (b ≤ ·)).map (y.seat level)) := by
  refine hy.right_to_left (P := fun b =>
    s.Line (y.slot level b) (((y.row level).filter (b ≤ ·)).map (y.seat level))) ?_ ?_ b hb
  · have upper := hy.upper_mem hb
    rw [filter_upper_le (hy.sorted level) upper]
    exact .last (hs.get upper) rfl
  · intro c hc ne onward
    rw [hy.filter_le hc ne]
    rw [← right_of_ne ne] at onward
    exact .cons (hs.get hc) ne onward

/-- Down links lead along the left ends. -/
theorem Carries.leftEnd (hl : y.Carries l) (below : level < l.height) :
    l.LeftEnd level (y.slot level .lower) := by
  refine Nat.decreasingInduction' (P := fun m => l.LeftEnd m (y.slot m .lower))
    (fun m lt _ above => ?_) (Nat.le_sub_one_of_lt below) ?_
  · exact .down above (hl.describes.get (hl.shaped.lower (by omega)))
  · exact hl.lower ▸ .top (Nat.sub_add_cancel hl.shaped.positive)

/-- **The lines of a list with a layout are its rows.** -/
theorem Carries.line_iff (hl : y.Carries l) {line : List Seat} :
    l.Line level line ↔ level < l.height ∧ line = (y.row level).map (y.seat level) := by
  have row : level < l.height → l.Line level ((y.row level).map (y.seat level)) := by
    intro below
    have run := hl.describes.line hl.shaped (hl.shaped.lower below)
    rw [List.filter_eq_self.mpr fun c _ => decide_eq_true (Bound.lower_le c)] at run
    exact ⟨_, hl.leftEnd below, run⟩
  constructor
  · intro h
    obtain ⟨_, start, _⟩ := id h
    exact ⟨start.lt_height, h.unique (row start.lt_height)⟩
  · rintro ⟨below, rfl⟩
    exact row below

theorem Carries.hasOn_iff (hl : y.Carries l) : l.HasOn level k ↔ .key k ∈ y.row level := by
  constructor
  · rintro ⟨line, hline, seat, mem, bound⟩
    obtain ⟨-, rfl⟩ := hl.line_iff.mp hline
    obtain ⟨b, hb, rfl⟩ := List.mem_map.mp mem
    exact bound ▸ hb
  · intro hk
    exact ⟨_, hl.line_iff.mpr ⟨hl.shaped.lt_height hk, rfl⟩, _, List.mem_map_of_mem hk, rfl⟩

end Layout

end AuthenticatedSet
