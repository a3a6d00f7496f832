import AuthenticatedSet.Coins

/-!
# Coins from a seed

A stream of words that a 64-bit seed determines: the n-th word is the upper half of a scrambled
counter, which starts at the seed and advances by a fixed odd step before each word. The step is
odd, so the counter passes every 64-bit value within 2^64 steps, zero included; zero is scrambled to
zero, a tail. So no run of heads is longer than that.
-/

namespace AuthenticatedSet.Coins

/-- What the counter advances by. -/
def step : UInt64 := 0x9E3779B97F4A7C15

/-- The number that undoes multiplication by the step. -/
def stepInverse : UInt64 := 0xF1DE83E19937733D

/-- The bits of a counter, mixed. -/
def scramble (counter : UInt64) : UInt64 :=
  let z := (counter ^^^ (counter >>> 30)) * 0xBF58476D1CE4E5B9
  let z := (z ^^^ (z >>> 27)) * 0x94D049BB133111EB
  z ^^^ (z >>> 31)

/-- The word at position `n` of the stream of a seed. -/
def seededWord (seed : UInt64) (n : Nat) : UInt32 :=
  (scramble (seed + step * UInt64.ofNat (n + 1)) >>> 32).toUInt32

/-- The distance from position `n` at which the counter is zero. -/
def distance (seed : UInt64) (n : Nat) : Nat :=
  (-(seed * stepInverse) - UInt64.ofNat (n + 1)).toNat

theorem counter_distance (seed : UInt64) (n : Nat) :
    seed + step * UInt64.ofNat (n + distance seed n + 1) = 0 := by
  have position : UInt64.ofNat (n + distance seed n + 1) = -(seed * stepInverse) := by
    rw [show n + distance seed n + 1 = (n + 1) + distance seed n by omega, UInt64.ofNat_add,
      distance, UInt64.ofNat_toNat]
    grind
  have inverse : step * stepInverse = 1 := by decide
  rw [position]
  grind

/-- The stream of a seed. -/
def ofSeed (seed : UInt64) : Coins where
  word := seededWord seed
  drawn := 0
  patience _ := UInt64.size
  ends n := by
    refine ⟨distance seed n, Nat.le_of_lt (UInt64.toNat_lt_size _), ?_⟩
    rw [seededWord, counter_distance]
    decide

end AuthenticatedSet.Coins
