/-!
# Coins

The height of a key's tower is settled by coin flips: it climbs a level for each head before the
first tail. The flips are the low bits of a stream of 32-bit words; a head is an odd word.

* `Coins`         -- a stream of words with a position in it, on which every run of heads ends
* `Coins.heads`   -- the length of the run of heads at a position
* `Coins.draw`    -- that run taken off the stream, with the tail that ends it
* `Coins.ofWords` -- given words, then tails for ever

A stream is a function of the position and never runs out. That its runs of heads end is part of the
type, with a bound for each position: this is what makes drawing a total function.
-/

namespace AuthenticatedSet

/-- A stream of words, some of them drawn already. -/
structure Coins where
  /-- The word at each position. -/
  word : Nat → UInt32
  /-- How many words have been drawn. -/
  drawn : Nat
  /-- How far from a position one has to look at most for a tail. -/
  patience : Nat → Nat
  /-- There is a tail within that distance. -/
  ends : ∀ n, ∃ i ≤ patience n, word (n + i) % 2 = 0

namespace Coins

/-- Whether the coin at this position is a head. -/
def isHead (word : Nat → UInt32) (n : Nat) : Bool := word n % 2 = 1

/-- The heads at position `n` and on, counted up to `limit`. -/
def heads (word : Nat → UInt32) : (limit n : Nat) → Nat
  | 0, _ => 0
  | limit + 1, n => if isHead word n then heads word limit (n + 1) + 1 else 0

/-- What is counted are heads. -/
theorem isHead_of_lt_heads {word : Nat → UInt32} {limit n i : Nat} (h : i < heads word limit n) :
    isHead word (n + i) = true := by
  induction limit generalizing n i with
  | zero => simp [heads] at h
  | succ limit ih =>
    unfold heads at h
    split at h
    · rename_i head
      cases i with
      | zero => exact head
      | succ i =>
        have := ih (n := n + 1) (i := i) (by omega)
        rwa [show n + (i + 1) = n + 1 + i by omega]
    · simp at h

/-- If there is a tail within the limit, the count stops in front of one. -/
theorem not_isHead_heads {word : Nat → UInt32} {limit n i : Nat} (h : i ≤ limit)
    (tail : isHead word (n + i) = false) : isHead word (n + heads word limit n) = false := by
  induction limit generalizing n i with
  | zero =>
    obtain rfl : i = 0 := by omega
    exact tail
  | succ limit ih =>
    unfold heads
    split
    · rename_i head
      cases i with
      | zero => simp [head] at tail
      | succ i =>
        have := ih (n := n + 1) (i := i) (by omega)
          (by rwa [show n + 1 + i = n + (i + 1) by omega])
        rwa [show n + (heads word limit (n + 1) + 1) = n + 1 + heads word limit (n + 1) by omega]
    · rename_i head
      simpa using head

/-- The number of heads before the next tail, and the stream after that tail. -/
def draw (c : Coins) : Nat × Coins :=
  let count := heads c.word (c.patience c.drawn) c.drawn
  (count, { c with drawn := c.drawn + count + 1 })

/-- As many draws as asked for, one after the other. -/
def draws : Nat → Coins → List Nat × Coins
  | 0, c => ([], c)
  | count + 1, c =>
    let (first, c) := c.draw
    let (rest, c) := c.draws count
    (first :: rest, c)

/-- These words in order, then zeros for ever. -/
def ofWords (words : List UInt32) : Coins where
  word n := words.getD n 0
  drawn := 0
  patience _ := words.length
  ends n := ⟨words.length, Nat.le_refl _, by simp [List.getD]⟩

end Coins

end AuthenticatedSet
