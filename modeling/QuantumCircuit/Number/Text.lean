import QuantumCircuit.Number.Shortest

/-!
# Numbers as text

A floating-point number is written with the fewest digits that read back, in
positions only and never with an exponent. A whole number has no point.
-/

namespace QuantumCircuit

/-- The digits `digits · 10 ^ unit` written in positions. -/
def positional (digits : Nat) (unit : Int) : String :=
  let text := Nat.toDigits 10 digits
  match unit with
  | .ofNat zeros => String.ofList (text ++ List.replicate zeros '0')
  | .negSucc n =>
    let places := n + 1
    let padded := List.replicate (places + 1 - text.length) '0' ++ text
    let whole := padded.length - places
    String.ofList (padded.take whole ++ '.' :: padded.drop whole)

/-- How a number is written. -/
def floatText (x : Float) : String :=
  match Dyadic.ofFloat? x with
  | none => if x.isNaN then "NaN" else if x < 0 then "-inf" else "inf"
  | some d =>
    let sign := if d.negative then "-" else ""
    if d.mantissa = 0 then sign ++ "0"
    else
      let (digits, unit) := (RoundingInterval.ofDyadic d).shortest
      sign ++ positional digits unit

end QuantumCircuit
