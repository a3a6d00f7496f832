import AuthenticatedSet.Digest

/-!
# Hashers

The list never hashes bytes itself: whoever commits to a set brings a hasher, which gives a digest
for a key, one for the two ends of every level, and one for a pair of digests. A path of digests is
folded without saying which side each one stands on, so a hasher has to treat a pair as unordered
for paths to be checkable; `Commutative` says this, and what needs it asks for it.
-/

namespace AuthenticatedSet

/-- The keys of a set: signed 64-bit integers. -/
abbrev Key := Int64

/-- The functions a commitment is made with. -/
structure Hasher where
  /-- The digest of a single key. -/
  leaf : Key → Digest
  /-- The digest of a pair. -/
  combine : Digest → Digest → Digest
  /-- The digest that stands for either end of a level. -/
  endMark : Digest

/-- The hasher sees a pair as unordered. -/
def Hasher.Commutative (h : Hasher) : Prop := ∀ a b, h.combine a b = h.combine b a

end AuthenticatedSet
