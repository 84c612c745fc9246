import QuantumCircuit.Number.Dyadic

/-!
# The shortest decimal that reads back

Every real number strictly between the midpoints to the two neighbours of a
floating-point number rounds to it, and so do the midpoints themselves when its
mantissa is even. Among the decimals in that interval the shortest is wanted,
and among those of that length the nearest. On the grid of multiples of a power
of ten only the two grid points next to the number have to be tried: if any
point of the grid lies in the interval, one of these two does.
-/

namespace QuantumCircuit

/-- A positive number with the interval of reals that round to it, all over one denominator. -/
structure RoundingInterval where
  lower : Nat
  value : Nat
  upper : Nat
  denominator : Nat
  closed : Bool
deriving Repr

namespace RoundingInterval

/-- The interval of `mantissa · 2 ^ exponent`. The number below a power of two
is only half as far away as the one above it, unless both are subnormal. -/
def ofDyadic (d : Dyadic) : RoundingInterval :=
  let below := if d.mantissa = .pow 2 52 ∧ d.exponent ≠ Dyadic.leastExponent then 1 else 2
  let scale := Nat.pow 2 (d.exponent - 2).toNat
  { lower := (4 * d.mantissa - below) * scale
    value := 4 * d.mantissa * scale
    upper := (4 * d.mantissa + 2) * scale
    denominator := .pow 2 (2 - d.exponent).toNat
    closed := d.mantissa % 2 == 0 }

/-- Whether the decimal `c` lies in the interval. -/
def holds (i : RoundingInterval) (c : Nat) : Bool :=
  let c := c * i.denominator
  if i.closed then i.lower ≤ c && c ≤ i.upper else i.lower < c && c < i.upper

/-- The interval measured in units of `10 ^ unit`. -/
def inUnits (i : RoundingInterval) (unit : Int) : RoundingInterval :=
  let up := Nat.pow 10 (-unit).toNat
  { i with
    lower := i.lower * up
    value := i.value * up
    upper := i.upper * up
    denominator := i.denominator * .pow 10 unit.toNat }

/-- The whole number of the interval next to its value, the upper one if both
neighbours are equally near. -/
def nearest? (i : RoundingInterval) : Option Nat :=
  let floor := i.value / i.denominator
  match i.holds floor, i.holds (floor + 1) with
  | true, true => some (if 2 * i.value < (2 * floor + 1) * i.denominator then floor else floor + 1)
  | true, false => some floor
  | false, true => some (floor + 1)
  | false, false => none

/-- The power of ten of the leading digit. -/
def leadingPower (i : RoundingInterval) : Int :=
  if i.denominator ≤ i.value then
    (Nat.toDigits 10 (i.value / i.denominator)).length - 1
  else
    let inverse := (i.denominator + i.value - 1) / i.value
    if inverse ≤ 1 then 0 else -(Nat.toDigits 10 (inverse - 1)).length

/-- The digits as a whole number, and the power of ten of the last of them. The
first grid tried is one coarser than the leading digit, for a number that rounds
up to a power of ten; seventeen digits tell any two numbers apart. -/
def shortest (i : RoundingInterval) : Nat × Int :=
  let top := i.leadingPower + 1
  let onGrid (length : Nat) : Option (Nat × Int) :=
    let unit := top - length
    (i.inUnits unit).nearest?.map fun digits => (digits, unit)
  ((List.range 18).findSome? onGrid).getD (0, 0)

end RoundingInterval

end QuantumCircuit
