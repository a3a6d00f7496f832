import AuthenticatedSet.Hasher

/-!
# Confirmations, proofs and verdicts

Who keeps a set publishes a *confirmation*: the version of the set and its root digest. Who wants
to convince somebody about one key sends a *membership proof*: a path of digests that folds to the
root. Neither refers to the set, so both can be checked elsewhere and much later.

* `Confirmation`, `MembershipProof`  -- the two messages
* `MembershipProof.impliedRoot`      -- the root that a path leads to
* `MembershipProof.startsAtKey`      -- whether the path starts at the digest of its own key
* `Confirmation.pathVerdict`         -- the verdict on the path alone
* `Confirmation.verdict`             -- the verdict on path and claim

A path does not say which gap between two keys it stands in: a claim of absence with a valid path
of some other key passes. What is refused is a claim of presence on a path of another key, and a
claim of absence on the path of the key itself.
-/

namespace AuthenticatedSet

/-- What the whole set was at one version. -/
structure Confirmation where
  version : UInt64
  digest : Digest
deriving DecidableEq, Repr

/-- A claim that a key is in the set, or is not, with the path that is to support it. -/
structure MembershipProof where
  /-- The version of the set the path was taken at. -/
  version : UInt64
  /-- Whether the claim is that the key is in the set. -/
  present : Bool
  key : Key
  /-- The path from the key's place up to the root. -/
  digests : List Digest
deriving DecidableEq

/-- What a check says. -/
inductive Verdict where
  /-- The proof is older than the confirmation: ask for a newer one. -/
  | stale
  | correct
  /-- The proof does not support its claim. -/
  | incorrect
deriving DecidableEq, Repr

namespace MembershipProof

/-- The root that the path leads to: its digests combined from left to right. An empty path leads
nowhere. -/
def impliedRoot (p : MembershipProof) (h : Hasher) : Option Digest :=
  match p.digests with
  | [] => none
  | first :: rest => some (rest.foldl h.combine first)

/-- Whether the path starts at the digest of the key it is about. -/
def startsAtKey (p : MembershipProof) (h : Hasher) : Bool :=
  p.digests.head? = some (h.leaf p.key)

/-- The text of a proof, field by field. -/
def render (p : MembershipProof) : String :=
  "Proof \x7b version: " ++ toString p.version.toNat ++ ", present: " ++ toString p.present
    ++ ", key: " ++ toString p.key.toInt
    ++ ", digests: [" ++ ", ".intercalate (p.digests.map Digest.render) ++ "] \x7d"

end MembershipProof

namespace Confirmation

/-- The verdict on the path alone. A proof from before this confirmation is stale; one from the
same version or later is correct when its path leads to the root digest. -/
def pathVerdict (c : Confirmation) (p : MembershipProof) (h : Hasher) : Verdict :=
  if p.version < c.version then .stale
  else if p.impliedRoot h = some c.digest then .correct
  else .incorrect

/-- The verdict on path and claim: of the correct ones, only those where the path starts at the
key's own digest exactly when the claim is presence. -/
def verdict (c : Confirmation) (p : MembershipProof) (h : Hasher) : Verdict :=
  match c.pathVerdict p h with
  | .correct => if p.present = p.startsAtKey h then .correct else .incorrect
  | other => other

/-- The text of a confirmation, field by field. -/
def render (c : Confirmation) : String :=
  "Confirmation \x7b version: " ++ toString c.version.toNat ++ ", digest: " ++ c.digest.render
    ++ " \x7d"

end Confirmation

end AuthenticatedSet
