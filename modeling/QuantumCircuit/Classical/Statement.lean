import QuantumCircuit.Classical.Expr

/-!
# Where expressions stand in operations

Stores, durations, conditions and switch targets. Each checks the type of its
expression, lists what it reads, and can have its leaves replaced.
-/

namespace QuantumCircuit

/-- How long a delay or a box lasts. -/
inductive Duration where
  /-- A number of device time steps. -/
  | dt (steps : UInt64)
  /-- An expression of type duration. -/
  | expr (e : Expr)

namespace Duration

/-- Equal durations. -/
def beq : Duration → Duration → Bool
  | dt a, dt b => a == b
  | expr a, expr b => a == b
  | _, _ => false

instance : BEq Duration := ⟨beq⟩

/-- The expression form, if it is one. -/
def expr? : Duration → Option Expr
  | expr e => some e
  | dt _ => none

/-- Refuse an expression of another type. -/
def validate : Duration → Except CircuitError Unit
  | expr e => if e.type = .duration then .ok () else .error (.typeMismatch e.text .duration e.type)
  | dt _ => .ok ()

/-- The identifiers read. -/
def identifiers : Duration → List Identifier
  | expr e => e.identifiers
  | dt _ => []

/-- Replace leaves of the expression. -/
def mapLeaves {m : Type → Type} [Monad m] (f : Expr → m (Option Expr)) : Duration → m Duration
  | expr e => do return expr (← e.mapLeaves f)
  | dt steps => pure (dt steps)

end Duration

/-- An assignment, made while the circuit runs. -/
structure Store where
  target : Expr
  value : Expr

namespace Store

/-- Equal stores. -/
def beq (a b : Store) : Bool := a.target == b.target && a.value == b.value

instance : BEq Store := ⟨beq⟩

/-- Assign `value`, lifted to the type of `target`. -/
def make (target value : Expr) : Except CircuitError Store :=
  if target.isLvalue then do
    let value ← value.lift (some target.type)
    return ⟨target, value⟩
  else .error (.invalidLvalue target.text)

/-- The identifiers of both sides, each once. -/
def identifiers (s : Store) : List Identifier :=
  Distinct.union s.target.identifiers s.value.identifiers

/-- Replace leaves, those of the target first. -/
def mapLeaves {m : Type → Type} [Monad m] (f : Expr → m (Option Expr)) (s : Store) : m Store := do
  let target ← s.target.mapLeaves f
  let value ← s.value.mapLeaves f
  return ⟨target, value⟩

end Store

/-- The clbits and classical registers that something reads or writes by name,
without having them as operands. -/
structure ClassicalUse where
  clbits : List Clbit
  registers : List ClassicalRegister

namespace ClassicalUse

/-- Nothing. -/
def none : ClassicalUse := ⟨[], []⟩

/-- What an expression reads. -/
def ofExpr (e : Expr) : ClassicalUse := ⟨e.clbits, e.registers⟩

/-- Both, in order. -/
def append (a b : ClassicalUse) : ClassicalUse :=
  ⟨a.clbits ++ b.clbits, a.registers ++ b.registers⟩

/-- The clbits, then the bits of the registers. -/
def allClbits (u : ClassicalUse) : List Clbit := u.clbits ++ u.registers.flatMap (·.bits)

end ClassicalUse

/-- The predicate of an `if` or a `while`. -/
inductive Condition where
  | clbit (c : Clbit) (value : Bool)
  | register (r : ClassicalRegister) (value : UInt64)
  /-- An expression of type `bool`. -/
  | expr (e : Expr)

namespace Condition

/-- Equal conditions. -/
def beq : Condition → Condition → Bool
  | clbit a v, clbit b w => a == b && v == w
  | register a v, register b w => a == b && v == w
  | expr a, expr b => a == b
  | _, _ => false

instance : BEq Condition := ⟨beq⟩

/-- Refuse an expression of another type. -/
def validate : Condition → Except CircuitError Unit
  | expr e => if e.type = .bool then .ok () else .error (.typeMismatch e.text .bool e.type)
  | _ => .ok ()

/-- The clbits and registers read. -/
def classicalUse : Condition → ClassicalUse
  | clbit c _ => ⟨[c], []⟩
  | register r _ => ⟨[], [r]⟩
  | expr e => .ofExpr e

/-- The identifiers read. -/
def identifiers : Condition → List Identifier
  | expr e => e.identifiers
  | _ => []

/-- Replace leaves; a bare clbit or register is a leaf too, and stays one of its own sort. -/
def mapLeaves {m : Type → Type} [Monad m] (f : Expr → m (Option Expr)) : Condition → m Condition
  | clbit c v => do
    match ← f (.clbit c) with
    | some (.clbit c') => return clbit c' v
    | _ => return clbit c v
  | register r v => do
    match ← f (.register r) with
    | some (.register r') => return register r' v
    | _ => return register r v
  | expr e => do return expr (← e.mapLeaves f)

end Condition

/-- The value that a `switch` dispatches on. -/
inductive SwitchTarget where
  | clbit (c : Clbit)
  | register (r : ClassicalRegister)
  /-- An expression of type `bool` or `uint`. -/
  | expr (e : Expr)

namespace SwitchTarget

/-- Equal targets. -/
def beq : SwitchTarget → SwitchTarget → Bool
  | clbit a, clbit b => a == b
  | register a, register b => a == b
  | expr a, expr b => a == b
  | _, _ => false

instance : BEq SwitchTarget := ⟨beq⟩

/-- Refuse an expression of another type. -/
def validate : SwitchTarget → Except CircuitError Unit
  | expr e => if e.type.isTruthy then .ok () else .error (.typeMismatch e.text (.uint 64) e.type)
  | _ => .ok ()

/-- The clbits and registers read. -/
def classicalUse : SwitchTarget → ClassicalUse
  | clbit c => ⟨[c], []⟩
  | register r => ⟨[], [r]⟩
  | expr e => .ofExpr e

/-- The identifiers read. -/
def identifiers : SwitchTarget → List Identifier
  | expr e => e.identifiers
  | _ => []

/-- Replace leaves; a bare clbit or register is a leaf too, and stays one of its own sort. -/
def mapLeaves {m : Type → Type} [Monad m] (f : Expr → m (Option Expr)) :
    SwitchTarget → m SwitchTarget
  | clbit c => do
    match ← f (.clbit c) with
    | some (.clbit c') => return clbit c'
    | _ => return clbit c
  | register r => do
    match ← f (.register r) with
    | some (.register r') => return register r'
    | _ => return register r
  | expr e => do return expr (← e.mapLeaves f)

end SwitchTarget

end QuantumCircuit
