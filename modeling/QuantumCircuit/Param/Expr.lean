import QuantumCircuit.Assoc
import QuantumCircuit.Distinct
import QuantumCircuit.Number.Text
import QuantumCircuit.Number.Turn
import QuantumCircuit.Param.Parameter

/-!
# Parameter expressions

Formulas over parameters and numbers, for gate angles and the global phase. The
numbers come from any arithmetic with the four operations, negation, π and a
test for zero; nothing is assumed of them. Circuits use floating-point numbers.

An expression without parameters may still have no value, since a division by
zero has none.
-/

namespace QuantumCircuit

/-- The operations on constants. No laws are asked for. -/
class Arithmetic (R : Type) where
  pi : R
  neg : R → R
  add : R → R → R
  sub : R → R → R
  mul : R → R → R
  div : R → R → R
  isZero : R → Bool

instance : Arithmetic Float where
  pi := halfTurn
  neg x := -x
  add := (· + ·)
  sub := (· - ·)
  mul := (· * ·)
  div := (· / ·)
  isZero x := x == 0

/-- A formula over parameters. -/
inductive ParamExpr (R : Type) where
  | const (x : R)
  | sym (p : Parameter)
  | pi
  | neg (e : ParamExpr R)
  | add (a b : ParamExpr R)
  | sub (a b : ParamExpr R)
  | mul (a b : ParamExpr R)
  | div (a b : ParamExpr R)

/-- The formulas that circuits hold. -/
abbrev Angle := ParamExpr Float

/-- Replacements for parameters, at most one for each. -/
abbrev Binding (R : Type) := List (Parameter × ParamExpr R)

namespace ParamExpr

variable {R : Type}

/-- Equal trees, with constants compared by their own equality. -/
def beq [BEq R] : ParamExpr R → ParamExpr R → Bool
  | const x, const y => x == y
  | sym p, sym q => p == q
  | pi, pi => true
  | neg a, neg b => a.beq b
  | add a b, add c d => a.beq c && b.beq d
  | sub a b, sub c d => a.beq c && b.beq d
  | mul a b, mul c d => a.beq c && b.beq d
  | div a b, div c d => a.beq c && b.beq d
  | _, _ => false

instance [BEq R] : BEq (ParamExpr R) := ⟨beq⟩

/-- Whether some parameter occurs. -/
def isSymbolic : ParamExpr R → Bool
  | const _ | pi => false
  | sym _ => true
  | neg a => a.isSymbolic
  | add a b | sub a b | mul a b | div a b => a.isSymbolic || b.isSymbolic

/-- Whether `p` occurs. -/
def contains (p : Parameter) : ParamExpr R → Bool
  | const _ | pi => false
  | sym q => q == p
  | neg a => a.contains p
  | add a b | sub a b | mul a b | div a b => a.contains p || b.contains p

/-- The parameters from left to right, with repeats. -/
def symbols : ParamExpr R → List Parameter
  | const _ | pi => []
  | sym p => [p]
  | neg a => a.symbols
  | add a b | sub a b | mul a b | div a b => a.symbols ++ b.symbols

/-- The parameters in order of first occurrence. -/
def parameters (e : ParamExpr R) : List Parameter := Distinct.ofList e.symbols

section Arithmetic

variable [Arithmetic R]

/-- The value, if no parameter occurs and no division is by zero. -/
def eval : ParamExpr R → Option R
  | const x => some x
  | sym _ => none
  | pi => some Arithmetic.pi
  | neg a => a.eval.map Arithmetic.neg
  | add a b => do return Arithmetic.add (← a.eval) (← b.eval)
  | sub a b => do return Arithmetic.sub (← a.eval) (← b.eval)
  | mul a b => do return Arithmetic.mul (← a.eval) (← b.eval)
  | div a b => do
    let divisor ← b.eval
    if Arithmetic.isZero divisor then none
    else return Arithmetic.div (← a.eval) divisor

/-- The sum of simplified terms: constants are folded and zeros dropped. -/
def simplifiedAdd (a b : ParamExpr R) : ParamExpr R :=
  match a.eval, b.eval with
  | some x, some y => const (Arithmetic.add x y)
  | some x, none => if Arithmetic.isZero x then b else add a b
  | none, some y => if Arithmetic.isZero y then a else add a b
  | none, none => add a b

/-- The difference of simplified terms: constants are folded, and a subtracted zero dropped. -/
def simplifiedSub (a b : ParamExpr R) : ParamExpr R :=
  match a.eval, b.eval with
  | some x, some y => const (Arithmetic.sub x y)
  | none, some y => if Arithmetic.isZero y then a else sub a b
  | _, none => sub a b

/-- The product of simplified factors: constants are folded. -/
def simplifiedMul (a b : ParamExpr R) : ParamExpr R :=
  match a.eval, b.eval with
  | some x, some y => const (Arithmetic.mul x y)
  | _, _ => mul a b

/-- The quotient of simplified terms: constants are folded unless the divisor is zero. -/
def simplifiedDiv (a b : ParamExpr R) : ParamExpr R :=
  match a.eval, b.eval with
  | some x, some y => if Arithmetic.isZero y then div a b else const (Arithmetic.div x y)
  | _, _ => div a b

/-- Fold what has a value, at every node. -/
def simplify (e : ParamExpr R) : ParamExpr R :=
  match e.eval with
  | some x => const x
  | none =>
    match e with
    | const x => const x
    | sym p => sym p
    | pi => pi
    | neg a =>
      let a := a.simplify
      match a.eval with
      | some x => const (Arithmetic.neg x)
      | none => neg a
    | add a b => simplifiedAdd a.simplify b.simplify
    | sub a b => simplifiedSub a.simplify b.simplify
    | mul a b => simplifiedMul a.simplify b.simplify
    | div a b => simplifiedDiv a.simplify b.simplify

/-- Put the replacements in, and leave the rest of the tree as it is. -/
def replace (s : Binding R) : ParamExpr R → ParamExpr R
  | const x => const x
  | sym p => (Assoc.find? p s).getD (sym p)
  | pi => pi
  | neg a => neg (a.replace s)
  | add a b => add (a.replace s) (b.replace s)
  | sub a b => sub (a.replace s) (b.replace s)
  | mul a b => mul (a.replace s) (b.replace s)
  | div a b => div (a.replace s) (b.replace s)

/-- Substitute, and fold the result if no parameter is left. -/
def subst (s : Binding R) (e : ParamExpr R) : ParamExpr R :=
  let out := e.replace s
  if out.isSymbolic then out else out.simplify

/-- Give one parameter a value. -/
def bind (p : Parameter) (x : R) (e : ParamExpr R) : ParamExpr R := e.subst [(p, const x)]

end Arithmetic

/-- How the expression is written: binary operations always in brackets. -/
def text : ParamExpr Float → String
  | const x => floatText x
  | sym p => p.name
  | pi => "π"
  | neg a => "-(" ++ a.text ++ ")"
  | add a b => "(" ++ a.text ++ " + " ++ b.text ++ ")"
  | sub a b => "(" ++ a.text ++ " - " ++ b.text ++ ")"
  | mul a b => "(" ++ a.text ++ " * " ++ b.text ++ ")"
  | div a b => "(" ++ a.text ++ " / " ++ b.text ++ ")"

/-- A phase with a value is that value within one turn. -/
def normalizedPhase (e : ParamExpr Float) : ParamExpr Float :=
  match e.eval with
  | some x => const (reduceTurn x)
  | none => e

end ParamExpr

end QuantumCircuit
