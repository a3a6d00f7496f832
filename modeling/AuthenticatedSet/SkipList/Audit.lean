import AuthenticatedSet.SkipList.Trail

/-!
# The list, part 9: the audit

The audit walks every level from the top down and every node from left to right, and checks that the
store is the list it claims to be and that every digest is current under the given hasher. It stops
at the first thing that is not so.

* `Violation`      -- what is not so, with the sentence for it
* `SkipList.audit` -- the walk

There are three outcomes: nothing to object, a violation, or a fault when a link that the audit has
to follow leads nowhere.
-/

namespace AuthenticatedSet

/-! ## 1. Violations -/

/-- What can be wrong with a list. -/
inductive Violation where
  /-- The level above links to no level here. -/
  | levelMissing (level : Nat)
  /-- The level does not start at a left end. -/
  | levelStart (level : Nat)
  /-- A node is marked as continued and is not, or the other way round. -/
  | continuedFlag (bound : Bound) (level : Nat)
  /-- A node of the bottom level links down. -/
  | bottomLinksDown
  /-- A node above the bottom level does not link down. -/
  | noDownLink (bound : Bound)
  /-- A node links down to one of another bound. -/
  | downElsewhere (bound : Bound)
  /-- A right end links to the right. -/
  | linkBehindEnd
  /-- The next bound is not greater. -/
  | outOfOrder (level : Nat) (bound : Bound)
  /-- The digest kept is not the one that follows from the neighbours. -/
  | staleDigest (bound : Bound) (level : Nat)
  /-- The right end of the top level is not the one the list names. -/
  | topElsewhere
  /-- A bound of this level is not on the one below. -/
  | missingBelow (bound : Bound) (level : Nat)
  /-- The bottom level has another number of keys than the list counts. -/
  | wrongCount (keys size : Nat)
  /-- The lowest level the list counts links down to another one. -/
  | levelsBelow
deriving DecidableEq, Repr

/-- The violation in words. -/
def Violation.message (violation : Violation) : String :=
  "INVARIANT VIOLATED: " ++ match violation with
  | .levelMissing level => "level " ++ toString level ++ " missing"
  | .levelStart level => "level " ++ toString level ++ " does not start at -inf"
  | .continuedFlag bound level => "tower flag of " ++ bound.render ++ " at level " ++ toString level
  | .bottomLinksDown => "bottom node links down"
  | .noDownLink bound => bound.render ++ " has no down link"
  | .downElsewhere bound => bound.render ++ " links down to a different key"
  | .linkBehindEnd => "+inf has a right link"
  | .outOfOrder level bound => "level " ++ toString level ++ " out of order at " ++ bound.render
  | .staleDigest bound level =>
    "stale digest for " ++ bound.render ++ " at level " ++ toString level
  | .topElsewhere => "terminal is not the top +inf"
  | .missingBelow bound level => bound.render ++ " missing below level " ++ toString level
  | .wrongCount keys size =>
    "bottom level has " ++ toString keys ++ " keys, len()=" ++ toString size
  | .levelsBelow => "levels below height"

/-- A check: it may object, and it may meet a fault. -/
abbrev Check := ExceptT Violation (Except Fault)

/-- Objects unless the condition holds. -/
def Check.require (condition : Bool) (violation : Violation) : Check Unit :=
  if condition then return () else throw violation

/-! ## 2. Nodes, levels, lists -/

namespace Store

/-- The down link of a node on this level. -/
def auditDown (s : Store) (level : Nat) (node : Node) : Check Unit := do
  if level = 0 then
    Check.require (node.down = .nil) .bottomLinksDown
  else
    Check.require (node.down ≠ .nil) (.noDownLink node.bound)
    let below ← s.get node.down
    Check.require (below.bound = node.bound) (.downElsewhere node.bound)

/-- The nodes of a level from a slot to its right end, in at most `limit` moves. `above` are the
bounds on the level above. Answers the right end and the bounds passed. -/
def auditRun (s : Store) (h : Hasher) (level : Nat) (above : List Bound) :
    (limit : Nat) → Slot → Check (Slot × List Bound)
  | limit, i => do
    let node ← s.get i
    Check.require (node.continued = above.contains node.bound) (.continuedFlag node.bound level)
    s.auditDown level node
    if node.bound = .upper then
      Check.require (node.right = .nil) .linkBehindEnd
      return (i, [node.bound])
    else
      let next ← s.get node.right
      Check.require (node.bound < next.bound) (.outOfOrder level node.bound)
      let digest ← s.digestAt h i
      Check.require (node.digest = digest) (.staleDigest node.bound level)
      match limit with
      | 0 => throwThe Fault .endless
      | limit + 1 =>
        let (last, bounds) ← s.auditRun h level above limit node.right
        return (last, node.bound :: bounds)

end Store

namespace SkipList

/-- So many levels, the topmost starting in `lower`. `above` are the bounds on the level above
them. -/
def auditLevels (l : SkipList) (h : Hasher) :
    (levels : Nat) → (lower : Slot) → (above : List Bound) → Check Unit
  | 0, lower, _ => Check.require (lower = .nil) .levelsBelow
  | level + 1, lower, above => do
    Check.require (lower ≠ .nil) (.levelMissing level)
    let start ← l.store.get lower
    Check.require (start.bound = .lower) (.levelStart level)
    let (last, bounds) ← l.store.auditRun h level above l.store.nodes.size lower
    if level + 1 = l.height then
      Check.require (last = l.top.upper) .topElsewhere
    if let some bound := above.find? (!bounds.contains ·) then
      throw (.missingBelow bound (level + 1))
    if level = 0 then
      Check.require (bounds.length - 2 = l.size) (.wrongCount (bounds.length - 2) l.size)
    l.auditLevels h level start.down bounds

/-- All levels, from the top. -/
def audit (l : SkipList) (h : Hasher) : Check Unit :=
  l.auditLevels h l.height l.top.lower []

end SkipList

end AuthenticatedSet
