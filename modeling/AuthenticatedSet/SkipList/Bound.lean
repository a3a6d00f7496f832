import AuthenticatedSet.Hasher

/-!
# The list, part 1: positions in the key order

Every level of the list runs from one end to the other, and every node of it stands at a *bound*: a
key, or one of the two ends. The ends lie outside all keys, the least and the greatest 64-bit number
included.

* `Bound`          -- a key or an end
* `Bound.position` -- the bound as an integer; order and equality are those of the integers
* `Hasher.ofBound` -- the digest of a bound by itself
* `Bound.render`   -- its text
-/

namespace AuthenticatedSet

/-- Where a node stands on its level. -/
inductive Bound where
  /-- The left end, below every key. -/
  | lower
  | key (key : Key)
  /-- The right end, above every key. -/
  | upper
deriving DecidableEq, Repr, Inhabited

namespace Bound

/-- The bound as an integer: a key as itself, the ends just outside the range of keys, which goes
from -2^63 up to 2^63 - 1. -/
def position : Bound → Int
  | .lower => -9223372036854775809
  | .key k => k.toInt
  | .upper => 9223372036854775808

instance : LT Bound := ⟨fun a b => a.position < b.position⟩

instance : LE Bound := ⟨fun a b => a.position ≤ b.position⟩

instance (a b : Bound) : Decidable (a < b) :=
  inferInstanceAs (Decidable (a.position < b.position))

instance (a b : Bound) : Decidable (a ≤ b) :=
  inferInstanceAs (Decidable (a.position ≤ b.position))

theorem lt_iff {a b : Bound} : a < b ↔ a.position < b.position := Iff.rfl

theorem le_iff {a b : Bound} : a ≤ b ↔ a.position ≤ b.position := Iff.rfl

/-- Different bounds have different positions. -/
theorem position_inj {a b : Bound} : a.position = b.position ↔ a = b := by
  constructor
  · intro h
    cases a <;> cases b <;> simp only [position] at h <;> try rfl
    case key.key k k' => rw [Int64.toInt_inj.mp h]
    case lower.key k => have := k.le_toInt; omega
    case key.lower k => have := k.le_toInt; omega
    case key.upper k => have := k.toInt_lt; omega
    case upper.key k => have := k.toInt_lt; omega
    all_goals omega
  · rintro rfl
    rfl

/-- The text of a bound: `Lower`, `Upper` or `Key(5)`. -/
def render : Bound → String
  | .lower => "Lower"
  | .key k => "Key(" ++ toString k.toInt ++ ")"
  | .upper => "Upper"

end Bound

/-- The digest of a bound by itself: the leaf of a key, and one digest for both ends. -/
def Hasher.ofBound (h : Hasher) : Bound → Digest
  | .key k => h.leaf k
  | .lower | .upper => h.endMark

end AuthenticatedSet
