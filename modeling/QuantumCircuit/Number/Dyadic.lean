/-!
# Floating-point numbers as dyadic fractions

A finite floating-point number is a sign, a whole mantissa and a power of two.
The exact text of a number and the exact remainder of a division are computed
on this form, with natural numbers only.
-/

namespace QuantumCircuit

/-- The number `± mantissa · 2 ^ exponent`. -/
structure Dyadic where
  negative : Bool
  mantissa : Nat
  exponent : Int
deriving DecidableEq, Repr

namespace Dyadic

/-- The exponent of the smallest positive number. -/
def leastExponent : Int := -1074

/-- The form of a finite number: below `2 ^ 52` the mantissa of a subnormal
number, otherwise with the leading bit that the storage format leaves out. -/
def ofFloat? (x : Float) : Option Dyadic :=
  let bits : Nat := x.toBits.toNat
  let negative := bits / .pow 2 63 == 1
  let biased : Nat := bits / .pow 2 52 % 2048
  let fraction := bits % .pow 2 52
  if biased = 2047 then none
  else if biased = 0 then some ⟨negative, fraction, leastExponent⟩
  else some ⟨negative, .pow 2 52 + fraction, (biased : Int) - 1075⟩

end Dyadic

end QuantumCircuit
