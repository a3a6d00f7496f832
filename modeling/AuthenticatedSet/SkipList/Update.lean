import AuthenticatedSet.Coins
import AuthenticatedSet.SkipList.Event
import AuthenticatedSet.SkipList.Trail

/-!
# The list, part 6: inserting and erasing

A new key gets a tower: a node on the bottom level and one more on each level its coins lift it to,
linked in behind the predecessors that the search has found. Where the levels run out, an empty one
is put on top first. An erased key loses its tower from the bottom up; a level left without keys
stays.

Only nodes on the trail of the search, the new tower and the new top ends can commit to something
else afterwards. Their digests are computed anew: first the tower, then the trail backward, then the
new ends, each group from the bottom up.

* `Change`                    -- what an operation answers
* `SkipList.insert`, `.erase` -- the two operations
* `SkipList.place`            -- a tower of given height put behind a trail
* `SkipList.raise`            -- such a tower, level by level
* `Store.unlink`              -- a tower taken out

An operation that changes no membership returns the list as it was, and draws no coin.
-/

namespace AuthenticatedSet

/-- What an operation has done. -/
structure Change where
  /-- Whether the set of keys is another one now. -/
  changed : Bool
  list : SkipList
  /-- What there is to report, oldest first. -/
  events : List Event
deriving DecidableEq, Repr

/-! ## 1. A tower put in -/

/-- What is left of raising a tower: the list, and the slots of what was put into it. -/
structure Raised where
  list : SkipList
  /-- The nodes of the key, from the bottom up. -/
  tower : List Slot
  /-- The left ends of the new levels, from the bottom up. -/
  lefts : List Slot
  events : List Event

namespace Store

/-- A new node for the key right of a node. -/
def linkRight (s : Store) (left : Slot) (key : Key) (down : Slot) :
    Except Fault (Slot × Store) := do
  let node ← s.get left
  let (i, s) ← s.add (.fresh (.key key) node.right down)
  let s ← s.update left fun node => { node with right := i }
  return (i, s)

/-- The node in a slot marked as one whose bound is on the level above too. -/
def markContinued (s : Store) (i : Slot) : Except Fault Store :=
  s.update i fun node => { node with continued := true }

end Store

namespace SkipList

/-- An empty level put on top. -/
def addLevel (l : SkipList) : Except Fault SkipList := do
  let s ← l.store.markContinued l.top.lower
  let s ← s.markContinued l.top.upper
  let (upper, s) ← s.add (.fresh .upper .nil l.top.upper)
  let (lower, s) ← s.add (.fresh .lower upper l.top.lower)
  return { l with store := s, top := { lower, upper }, height := l.height + 1 }

/-- A node for the key right of `left`, on top of the node of the key in `below`. -/
def stack (l : SkipList) (key : Key) (left below : Slot) : Except Fault (Slot × SkipList) := do
  let s ← l.store.markContinued below
  let (i, s) ← s.linkRight left key below
  return (i, { l with store := s })

/-- The tower that ends in `below` raised by so many levels. `left` are the predecessors of the key
on the levels above it, upward; where they run out, the list grows. -/
def raise (l : SkipList) (key : Key) :
    (levels : Nat) → (left : List Slot) → (below : Slot) → Except Fault Raised
  | 0, _, _ => return ⟨l, [], [], []⟩
  | levels + 1, first :: left, below => do
    let (i, l) ← l.stack key first below
    let raised ← l.raise key levels left i
    return { raised with tower := i :: raised.tower }
  | levels + 1, [], below => do
    let l ← l.addLevel
    let (i, grown) ← l.stack key l.top.lower below
    let raised ← grown.raise key levels [] i
    return { raised with
      tower := i :: raised.tower
      lefts := l.top.lower :: raised.lefts
      events := .grew l.height :: raised.events }

/-- A tower for the key, `levels` levels above the bottom one, put right of the trail that a search
for the key has left. -/
def place (l : SkipList) (h : Hasher) (key : Key) (trail : Trail) (levels : Nat) :
    Except Fault Change := do
  let (bottom, s) ← l.store.linkRight trail.bottom.last key .nil
  let raised ← { l with store := s }.raise key levels (trail.above.map Stretch.last) bottom
  let order := bottom :: raised.tower ++ trail.backward ++ raised.lefts
  let s ← raised.list.store.refresh h order
  let version := l.version + 1
  return {
    changed := true
    list := { raised.list with store := s, size := l.size + 1, version }
    events := raised.events ++ [.inserted key (levels + 1) version] }

/-- The key put into the list if it is not there. The height of its tower is drawn from the coins,
and only then. -/
def insert (l : SkipList) (h : Hasher) (key : Key) (coins : Coins) :
    Except Fault (Change × Coins) := do
  let trail ← l.search .below key
  if ← l.precedes trail.bottom.last key then
    return (⟨false, l, []⟩, coins)
  else
    let (levels, coins) := coins.draw
    let change ← l.place h key trail levels
    return (change, coins)

end SkipList

/-! ## 2. A tower taken out -/

/-- The nodes of the key right of these predecessors, bottom level first, taken out of their levels
and their slots set free. A tower has no gaps, so the first level without the key ends it. -/
def Store.unlink (s : Store) (key : Key) : (left : List Slot) → Except Fault Store
  | [] => return s
  | first :: left => do
    let node ← s.get first
    let victim ← s.get node.right
    if victim.bound = .key key then
      let s ← s.update first fun node => { node with right := victim.right }
      let s ← s.discard node.right
      s.unlink key left
    else
      return s

/-- The key taken out of the list if it is there. -/
def SkipList.erase (l : SkipList) (h : Hasher) (key : Key) : Except Fault Change := do
  let trail ← l.search .below key
  if ← l.precedes trail.bottom.last key then
    let s ← l.store.unlink key trail.predecessors
    let s ← s.refresh h trail.backward
    let version := l.version + 1
    match l.size with
    | 0 => throw .countUnderflow
    | size + 1 => return ⟨true, { l with store := s, size, version }, [.erased key version]⟩
  else
    return ⟨false, l, []⟩

end AuthenticatedSet
