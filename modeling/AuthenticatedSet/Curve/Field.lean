import AuthenticatedSet.Bytes.LittleEndian

/-!
# The curve, part 1: residues modulo 2^255 - 19

Coordinates of points are residues modulo one prime, which is 5 modulo 8: this is what makes
square roots cheap.

* `Residue`     -- the residues, with the arithmetic of `Fin`
* `power`       -- powers by squaring
* `inverse`     -- by Fermat, with `inverse 0 = 0`
* `squareRoot?` -- a square root of a quotient, the even one of the two
* `ofBytes`, `toBytes` -- 32 little-endian bytes; the top bit is not part of the number
-/

namespace AuthenticatedSet.Curve

/-- The prime 2^255 - 19. -/
def prime : Nat := (1 <<< 255) - 19

instance : @NeZero Nat Zero.ofOfNat0 prime := ⟨by decide⟩

/-- Residues modulo the prime. -/
abbrev Residue := Fin prime

namespace Residue

/-- `x` to the power `exponent`. -/
def power (x : Residue) (exponent : Nat) : Residue :=
  if _ : exponent = 0 then
    1
  else
    let rest := power (x * x) (exponent / 2)
    if exponent % 2 = 1 then x * rest else rest
termination_by exponent
decreasing_by omega

/-- The inverse of `x`, and 0 for 0. -/
def inverse (x : Residue) : Residue := x.power (prime - 2)

/-- A residue is called odd when the number that stands for it is. -/
def isOdd (x : Residue) : Bool := x.val % 2 = 1

/-- A square root of -1. -/
def imaginary : Residue := power 2 ((prime - 1) / 4)

/-- The even one of the two square roots of `u / v`, if it is a square; 0 / 0 counts as 0. -/
def squareRoot? (u v : Residue) : Option Residue :=
  let candidate := u * v.power 3 * (u * v.power 7).power ((prime - 5) / 8)
  let square := v * candidate * candidate
  let root? :=
    if square = u then some candidate
    else if square = -u then some (candidate * imaginary)
    else none
  root?.map fun root => if root.isOdd then -root else root

/-- The number of the 32 bytes without their top bit, taken modulo the prime: a number from the
prime up is accepted. -/
def ofBytes (bytes : List UInt8) : Residue :=
  Fin.ofNat prime (LittleEndian.decode bytes % (1 <<< 255))

/-- The residue as a number below the prime, in 32 bytes. -/
def toBytes (x : Residue) : List UInt8 :=
  LittleEndian.encode 32 x.val

end Residue

end AuthenticatedSet.Curve
