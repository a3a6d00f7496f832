import AuthenticatedSet.SkipList.Trail

/-!
# The list, part 8: membership proofs

A proof for a key is the path from the place where the key is, or would be, up to the root. It
starts with the digest of the greatest bound not above the key and with what that node's right
neighbour contributes. Each step back along the trail adds whatever the digest of the node it
reaches has besides the digest it comes from:

* up from the node below: the digest of the right neighbour, unless that one is covered
* left along the bottom level: the digest of the bound reached by itself
* left along a level above: the digest of the node below the one reached

So the path, folded from left to right, gives the root digest of the list.
-/

namespace AuthenticatedSet

/-- What a node contributes at the start of a path: the digest of its bound if it is covered, all it
commits to if it is exposed. -/
def Share.digest (h : Hasher) : Share → Digest
  | .covered bound => h.ofBound bound
  | .exposed digest => digest

/-- What a node contributes to a path that comes up on its left: nothing if it is covered. -/
def Share.sibling? : Share → Option Digest
  | .covered _ => none
  | .exposed digest => some digest

namespace Store

/-- What the digest of the node in `i` has besides the digest of the node in `came`, which the trail
went on to from it. -/
def siblings (s : Store) (h : Hasher) (i came : Slot) : Except Fault (List Digest) := do
  let node ← s.get i
  if node.down = came then
    let right ← s.get node.right
    return right.share.sibling?.toList
  else if node.down = .nil then
    return [h.ofBound node.bound]
  else
    return [(← s.get node.down).digest]

/-- The siblings met on the way back from `came` through the nodes before it on the trail. -/
def siblingsAlong (s : Store) (h : Hasher) :
    (came : Slot) → (backward : List Slot) → Except Fault (List Digest)
  | _, [] => return []
  | came, i :: rest => do
    let here ← s.siblings h i came
    let further ← s.siblingsAlong h i rest
    return here ++ further

end Store

/-- The proof for a key as the list is, whether the key is in it or not. -/
def SkipList.prove (l : SkipList) (h : Hasher) (key : Key) : Except Fault MembershipProof := do
  let trail ← l.search .upTo key
  let last ← l.store.get trail.bottom.last
  let right ← l.store.get last.right
  let siblings ← l.store.siblingsAlong h trail.bottom.last trail.backward.tail
  return {
    version := l.version
    present := last.bound = .key key
    key
    digests := h.ofBound last.bound :: right.share.digest h :: siblings }

end AuthenticatedSet
