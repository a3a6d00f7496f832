import AuthenticatedSet.SkipList.Store

/-!
# The list, part 3: what a node commits to

The digest of a node covers everything from it to the right on its own level, and everything below
that. Let `m v` be the digest of the bound of `v` by itself, `w` the right neighbour of `v`, and `u`
the node below it. Then the digest of `v` is

| level  | `w` covered             | `w` exposed                     |
|--------|-------------------------|---------------------------------|
| bottom | `combine (m v) (m w)`   | `combine (m v) (digest w)`      |
| above  | `digest u`              | `combine (digest u) (digest w)` |

A node is *covered* when the level above commits to it already: its bound is on that level too, or
it is the right end. Its left neighbour then takes in no more of it than the bound, and above the
bottom level nothing. The digest of the top left end covers the whole list: it is the root digest.

* `Share`          -- what a node contributes to its left neighbour
* `Hasher.commit`  -- the four cases
* `Store.digestAt` -- the four cases on the digests kept in a store
* `Store.refresh`  -- digests computed anew, in a given order
-/

namespace AuthenticatedSet

/-- What a node contributes to its left neighbour. -/
inductive Share where
  /-- Its bound only: the level above commits to the rest. -/
  | covered (bound : Bound)
  /-- All it commits to. -/
  | exposed (digest : Digest)
deriving DecidableEq, Repr

/-- The digest rule: the digest of a node at this bound, from the digest of the node below it, which
a bottom node lacks, and from what its right neighbour contributes. -/
def Hasher.commit (h : Hasher) (bound : Bound) : (below : Option Digest) → Share → Digest
  | none, .covered next => h.combine (h.ofBound bound) (h.ofBound next)
  | none, .exposed digest => h.combine (h.ofBound bound) digest
  | some below, .covered _ => below
  | some below, .exposed digest => h.combine below digest

namespace Node

/-- Whether the level above commits to the node. -/
def isCovered (node : Node) : Bool := node.continued || node.bound = .upper

/-- What the node contributes to its left neighbour. -/
def share (node : Node) : Share :=
  if node.isCovered then .covered node.bound else .exposed node.digest

end Node

namespace Store

/-- The digest kept in the node below this one, if there is one. -/
def digestBelow (s : Store) (node : Node) : Except Fault (Option Digest) :=
  if node.down = .nil then
    return none
  else
    return some (← s.get node.down).digest

/-- The digest of the node in a slot, from the digests its neighbours keep. -/
def digestAt (s : Store) (h : Hasher) (i : Slot) : Except Fault Digest := do
  let node ← s.get i
  let right ← s.get node.right
  let below ← s.digestBelow node
  return h.commit node.bound below right.share

/-- The digests of these nodes computed anew, one after the other: a node has to stand behind those
it depends on. -/
def refresh (s : Store) (h : Hasher) : List Slot → Except Fault Store
  | [] => return s
  | i :: rest => do
    let digest ← s.digestAt h i
    let s ← s.update i fun node => { node with digest }
    s.refresh h rest

end Store

end AuthenticatedSet
