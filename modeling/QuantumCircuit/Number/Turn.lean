import QuantumCircuit.Number.Dyadic

/-!
# Reduction to one turn

Angles that differ by whole turns are the same phase, so a numeric phase is
kept in `[0, 2π)`. The remainder is exact: both numbers are whole multiples of
the unit of the smaller one, and so is what is left. Only the step from a
negative remainder into the range rounds.
-/

namespace QuantumCircuit

/-- Half a turn. -/
def halfTurn : Float := Float.ofBits 0x400921FB54442D18

/-- A whole turn. -/
def turn : Float := Float.ofBits 0x401921FB54442D18

/-- The mantissa of a whole turn, and its exponent. -/
def turnForm : Nat × Int := (.pow 2 52 + 0x921FB54442D18, -50)

/-- What is left of `x` after taking away whole turns toward zero, with the sign of `x`. -/
def turnRemainder (x : Float) : Float :=
  match Dyadic.ofFloat? x with
  | none => 0.0 / 0.0
  | some d =>
    if x.abs < turn then x
    else
      let left := d.mantissa * .pow 2 (d.exponent - turnForm.2).toNat % turnForm.1
      let magnitude := Float.scaleB (Float.ofNat left) turnForm.2
      if d.negative then -magnitude else magnitude

/-- The same angle in `[0, 2π)`. -/
def reduceTurn (x : Float) : Float :=
  let r := turnRemainder x
  if r < 0 then r + turn else r

end QuantumCircuit
