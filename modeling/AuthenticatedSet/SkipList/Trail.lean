import AuthenticatedSet.SkipList.Basic

/-!
# The list, part 5: searching

A search starts at the top left end. On each level it moves right while the next bound does not lie
beyond its aim, then goes down, until there is no level below. What it leaves behind is a *trail*:
for each level the stretch of nodes it rested on, the last of which is the predecessor of the key on
that level.

* `Reach`                   -- whether a search ends before the key or goes up to it
* `Stretch`, `Trail`        -- the nodes rested on, within a level and on all levels
* `Store.slide`, `.descend` -- one level, and all levels
* `SkipList.search`         -- all levels from the top
* `SkipList.contains`       -- whether a key is in the list

A level of a store with `n` nodes takes fewer than `n` moves unless its links lead in a circle, so
that many are allowed and the search is total on every store.
-/

namespace AuthenticatedSet

/-! ## 1. Trails -/

/-- How far a search goes. -/
inductive Reach where
  /-- To the last bound below the key. -/
  | below
  /-- To the key itself if it is there. -/
  | upTo
deriving DecidableEq, Repr

/-- Whether a search for `key` moves onto this bound. -/
def Reach.passes (reach : Reach) (key : Key) (next : Bound) : Bool :=
  match reach with
  | .below => next < .key key
  | .upTo => next ≤ .key key

/-- What a search rested on within one level. -/
structure Stretch where
  /-- The node it went down from, or ended at. -/
  last : Slot
  /-- The nodes before that, the nearest first. -/
  earlier : List Slot
deriving DecidableEq, Repr

/-- The nodes of a stretch, from right to left. -/
def Stretch.slots (stretch : Stretch) : List Slot := stretch.last :: stretch.earlier

/-- What a search rested on. -/
structure Trail where
  /-- The level it ended on. -/
  bottom : Stretch
  /-- The levels above, upward. -/
  above : List Stretch
deriving DecidableEq, Repr

namespace Trail

/-- The stretches, bottom level first. -/
def stretches (trail : Trail) : List Stretch := trail.bottom :: trail.above

/-- The last node on each level, bottom level first. -/
def predecessors (trail : Trail) : List Slot := trail.stretches.map Stretch.last

/-- All nodes rested on, in the opposite order. -/
def backward (trail : Trail) : List Slot := trail.stretches.flatMap Stretch.slots

end Trail

/-! ## 2. Searching -/

namespace Store

/-- Right along a level while the next bound passes, in at most `limit` moves. `earlier` are the
nodes of the level rested on so far. -/
def slide (s : Store) (passes : Bound → Bool) :
    (limit : Nat) → (earlier : List Slot) → Slot → Except Fault Stretch
  | limit, earlier, i => do
    let node ← s.get i
    let next ← s.get node.right
    if passes next.bound then
      match limit with
      | 0 => throw .endless
      | limit + 1 => s.slide passes limit (i :: earlier) node.right
    else
      return ⟨i, earlier⟩

/-- Right and down from a slot on this level, as far as links lead down. `above` are the stretches
of the levels above. -/
def descend (s : Store) (passes : Bound → Bool) :
    (level : Nat) → (above : List Stretch) → Slot → Except Fault Trail
  | level, above, i => do
    let stretch ← s.slide passes s.nodes.size [] i
    let node ← s.get stretch.last
    if node.down = .nil then
      return ⟨stretch, above⟩
    else
      match level with
      | 0 => throw .levelUnderflow
      | level + 1 => s.descend passes level (stretch :: above) node.down

end Store

namespace SkipList

/-- The trail of a search for the key. -/
def search (l : SkipList) (reach : Reach) (key : Key) : Except Fault Trail :=
  match l.height with
  | 0 => throw .levelUnderflow
  | top + 1 => l.store.descend (reach.passes key) top [] l.top.lower

/-- Whether the node right of this one holds the key. -/
def precedes (l : SkipList) (i : Slot) (key : Key) : Except Fault Bool := do
  let node ← l.store.get i
  let next ← l.store.get node.right
  return next.bound = .key key

/-- Whether the key is in the list. -/
def contains (l : SkipList) (key : Key) : Except Fault Bool := do
  let trail ← l.search .below key
  l.precedes trail.bottom.last key

end SkipList

end AuthenticatedSet
