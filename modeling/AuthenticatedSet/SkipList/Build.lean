import AuthenticatedSet.Coins
import AuthenticatedSet.SkipList.Event
import AuthenticatedSet.SkipList.Basic

/-!
# The list, part 7: built from keys at once

Keys may come in any order and more than once. Sorted and each taken once, every key draws the
height of its tower, in ascending order; then the levels are laid from the bottom up, each one from
right to left, so that every digest finds those it depends on.

* `ascending`          -- the keys sorted, each once
* `Column`             -- a key on its way up
* `Store.layLevel`     -- one level
* `SkipList.ofKeys`    -- the whole list
-/

namespace AuthenticatedSet

/-! ## 1. The keys in order -/

/-- The key put into an ascending list, unless it is there. -/
def insertAscending (key : Key) : List Key → List Key
  | [] => [key]
  | first :: rest =>
    if key < first then key :: first :: rest
    else if key = first then first :: rest
    else first :: insertAscending key rest

/-- The keys in ascending order, each once. -/
def ascending : List Key → List Key
  | [] => []
  | first :: rest => insertAscending first (ascending rest)

/-! ## 2. Levels -/

/-- A key on its way up: how many more levels its tower has, and its node on the level below. -/
structure Column where
  key : Key
  levels : Nat
  below : Slot
deriving DecidableEq, Repr

/-- The columns that go on, one level further up. -/
def Column.survivors (columns : List Column) : List Column :=
  columns.filterMap fun column =>
    match column.levels with
    | 0 => none
    | levels + 1 => some { column with levels }

namespace Store

/-- A node with its digest, everything right of it and below it being in place. -/
def lay (s : Store) (h : Hasher) (node : Node) : Except Fault (Slot × Store) := do
  let (i, s) ← s.add node
  let s ← s.refresh h [i]
  return (i, s)

/-- The nodes of these columns left of `next`, from right to left. Answers the leftmost slot and the
columns standing on their new nodes. -/
def layColumns (s : Store) (h : Hasher) (next : Slot) :
    List Column → Except Fault (Slot × List Column × Store)
  | [] => return (next, [], s)
  | column :: rest => do
    let (right, laid, s) ← s.layColumns h next rest
    let node := Node.fresh (.key column.key) right column.below
    let (i, s) ← s.lay h { node with continued := 0 < column.levels }
    return (i, { column with below := i } :: laid, s)

end Store

/-- One level over the ends of the one below. `goesOn` says whether there will be one above it. -/
def Store.layLevel (s : Store) (h : Hasher) (below : Ends) (goesOn : Bool) (columns : List Column) :
    Except Fault (Ends × List Column × Store) := do
  let (upper, s) ← s.add { Node.fresh .upper .nil below.upper with continued := goesOn }
  let (first, laid, s) ← s.layColumns h upper columns
  let (lower, s) ← s.lay h { Node.fresh .lower first below.lower with continued := goesOn }
  return (⟨lower, upper⟩, laid, s)

/-- This level and so many above it. Answers the ends of the top level. -/
def Store.layLevels (s : Store) (h : Hasher) :
    (above : Nat) → (below : Ends) → List Column → Except Fault (Ends × Store)
  | 0, below, columns => do
    let (top, _, s) ← s.layLevel h below false columns
    return (top, s)
  | above + 1, below, columns => do
    let (ends, laid, s) ← s.layLevel h below true columns
    s.layLevels h above ends (Column.survivors laid)

/-! ## 3. The list -/

/-- The list of these keys, with its coins after it and what there is to report. -/
def SkipList.ofKeys (h : Hasher) (keys : List Key) (coins : Coins) :
    Except Fault (SkipList × Coins × List Event) := do
  let keys := ascending keys
  let (heights, coins) := coins.draws keys.length
  let above := heights.foldl max 0
  let columns := List.zipWith (fun key levels => ⟨key, levels, .nil⟩) keys heights
  let (top, s) ← Store.layLevels ⟨#[], []⟩ h above ⟨.nil, .nil⟩ columns
  let list : SkipList :=
    { store := s
      top
      height := above + 1
      size := keys.length
      version := 0 }
  return (list, coins, [.built list.size list.height])

end AuthenticatedSet
