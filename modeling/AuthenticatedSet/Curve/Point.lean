import AuthenticatedSet.Curve.Field

/-!
# The curve, part 2: points of -x² + y² = 1 + d x² y²

A point is kept in extended coordinates `(x : y : z : t)`, which stand for the affine point
`(x / z, y / z)` with `x y = z t`. Because -1 is a square and `d` is not, one addition formula holds
for every pair of points, the neutral element and points of small order included.

* `add`, `double`, `negate`, `scale` -- the group and its integer multiples
* `compress`, `decompress?`          -- a point as 32 bytes: `y`, and the parity of `x` on top
* `base`, `order`                    -- the generator and the prime order of its group
-/

namespace AuthenticatedSet.Curve

/-- A point in extended coordinates. -/
structure Point where
  x : Residue
  y : Residue
  z : Residue
  t : Residue

namespace Point

/-! ## 1. The group -/

/-- The coefficient of the curve: -121665 / 121666. -/
def coefficient : Residue := -121665 * Residue.inverse 121666

/-- The point with these affine coordinates. -/
def ofAffine (x y : Residue) : Point := ⟨x, y, 1, x * y⟩

/-- The neutral element `(0, 1)`. -/
def neutral : Point := ofAffine 0 1

/-- The sum of two points; the formula is complete. -/
def add (p q : Point) : Point :=
  let a := (p.y - p.x) * (q.y - q.x)
  let b := (p.y + p.x) * (q.y + q.x)
  let c := p.t * (coefficient + coefficient) * q.t
  let d := (p.z + p.z) * q.z
  let e := b - a
  let f := d - c
  let g := d + c
  let h := b + a
  ⟨e * f, g * h, f * g, e * h⟩

/-- Twice a point. -/
def double (p : Point) : Point :=
  let a := p.x * p.x
  let b := p.y * p.y
  let c := p.z * p.z + p.z * p.z
  let h := a + b
  let e := h - (p.x + p.y) * (p.x + p.y)
  let g := a - b
  let f := c + g
  ⟨e * f, g * h, f * g, e * h⟩

/-- The inverse of a point in the group. -/
def negate (p : Point) : Point := ⟨-p.x, p.y, p.z, -p.t⟩

/-- The sum of `n` copies of a point. -/
def scale (n : Nat) (p : Point) : Point :=
  if _ : n = 0 then
    neutral
  else
    let rest := scale (n / 2) p.double
    if n % 2 = 1 then p.add rest else rest
termination_by n
decreasing_by omega

/-! ## 2. The generator -/

/-- The generator: its `y` is 4/5 and its `x` is even. -/
def base : Point :=
  ofAffine 15112221349535400772501151409588531511454012693041857206046113283949847762202
    46316835694926478169428394003475163141307993866256225615783033603165251855960

/-- The prime order of the generator. -/
def order : Nat := (1 <<< 252) + 27742317777372353535851937790883648493

/-! ## 3. Points as bytes -/

/-- The affine `y` in 32 bytes, the parity of the affine `x` in the top bit. -/
def compress (p : Point) : Vector UInt8 32 :=
  let inverse := p.z.inverse
  let x := p.x * inverse
  let y := p.y * inverse
  LittleEndian.toVector 32 (y.val + if x.isOdd then 1 <<< 255 else 0)

/-- The point that 32 bytes stand for, if the curve has one with that `y`. The number need not be
reduced, and `x = 0` is accepted with either parity bit. -/
def decompress? (bytes : Vector UInt8 32) : Option Point :=
  let y := Residue.ofBytes bytes.toList
  let square := y * y
  (Residue.squareRoot? (square - 1) (coefficient * square + 1)).map fun x =>
    ofAffine (if bytes[31] < 128 then x else -x) y

end Point

end AuthenticatedSet.Curve
