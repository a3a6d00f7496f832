import AuthenticatedSet.Commitment.Basic
import AuthenticatedSet.SkipList.Commit

/-!
# The list, part 4: the list itself

A skip list keeps a set of keys on levels. Each level is a run of nodes linked to the right, from a
left end to a right end; the bottom level holds all keys, a level above some of the keys of the one
below, and a node above the bottom links down to the node of its bound:

    level 2:  lower ----------------------> 8 -----------> upper
    level 1:  lower -------> 2 -----------> 8 -----------> upper
    level 0:  lower -------> 2 ----> 5 ---> 8 ----> 16 --> upper

* `SkipList`              -- the store, the ends of the top level, and three counts
* `SkipList.empty`        -- no key: one level with its two ends
* `SkipList.confirmation` -- version and root digest
* `SkipList.keys`         -- the keys in ascending order

The hasher is no part of a list; the operations that need it take it. So one store can be looked at
with another hasher than the one its digests were made with.
-/

namespace AuthenticatedSet

/-- The two ends of a level. -/
structure Ends where
  lower : Slot
  upper : Slot
deriving DecidableEq, Repr

/-- A set of keys on linked levels, every node with the digest it commits to. -/
structure SkipList where
  store : Store
  /-- The ends of the top level. -/
  top : Ends
  /-- The number of levels. -/
  height : Nat
  /-- The number of keys. -/
  size : Nat
  /-- How many operations have changed the set. -/
  version : UInt64
deriving DecidableEq, Repr

namespace SkipList

/-- The list without keys. -/
def empty (h : Hasher) : SkipList where
  store :=
    { nodes := #[.fresh .upper .nil .nil,
        { Node.fresh .lower ⟨0⟩ .nil with digest := h.commit .lower none (.covered .upper) }]
      free := [] }
  top := { lower := ⟨1⟩, upper := ⟨0⟩ }
  height := 1
  size := 0
  version := 0

/-- Whether the list has no key. -/
def isEmpty (l : SkipList) : Bool := l.size = 0

/-- The digest that covers the whole list. -/
def rootDigest (l : SkipList) : Except Fault Digest := do
  return (← l.store.get l.top.lower).digest

/-- What is published about the list as it is. -/
def confirmation (l : SkipList) : Except Fault Confirmation := do
  return ⟨l.version, ← l.rootDigest⟩

/-- The text of a list: its counts and its root digest. -/
def render (l : SkipList) : Except Fault String := do
  let digest ← l.rootDigest
  return "SkipList \x7b len: " ++ toString l.size ++ ", height: " ++ toString l.height
    ++ ", version: " ++ toString l.version.toNat ++ ", root: " ++ digest.render ++ " \x7d"

end SkipList

namespace Store

/-- The lowest node under the one in a slot, found in at most `limit` steps. -/
def lowest (s : Store) : (limit : Nat) → Slot → Except Fault Node
  | limit, i => do
    let node ← s.get i
    if node.down = .nil then
      return node
    else
      match limit with
      | 0 => throw .endless
      | limit + 1 => s.lowest limit node.down

/-- The keys from a slot to the right, up to the first node without a key, which has to come within
`limit` keys. -/
def keysFrom (s : Store) : (limit : Nat) → Slot → Except Fault (List Key)
  | limit, i => do
    let node ← s.get i
    match node.bound with
    | .lower | .upper => return []
    | .key k =>
      match limit with
      | 0 => throw .endless
      | limit + 1 => return k :: (← s.keysFrom limit node.right)

end Store

/-- The keys of the list, in ascending order. -/
def SkipList.keys (l : SkipList) : Except Fault (List Key) := do
  let bottom ← l.store.lowest l.store.nodes.size l.top.lower
  l.store.keysFrom l.store.nodes.size bottom.right

end AuthenticatedSet
