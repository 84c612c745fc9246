import QuantumCircuit.Register

/-!
# Real-time classical expressions

Typed trees over identifiers, classical bits and registers, and literals. The
constructors infer the type of a node from its operands, or refuse; nothing here
evaluates an expression. `Expr.nodes` lists the nodes of a tree, parents before
children and left before right, and all collections are read off that list.
-/

namespace QuantumCircuit

/-- Operators with one operand. -/
inductive UnaryOp where
  | bitNot
  | logicNot
deriving DecidableEq

/-- Operators with two operands. -/
inductive BinaryOp where
  | bitAnd | bitOr | bitXor
  | logicAnd | logicOr
  | equal | notEqual
  | less | lessEqual | greater | greaterEqual
  | add | sub | mul | div
deriving DecidableEq

/-- How the operator is written. -/
def UnaryOp.symbol : UnaryOp → String
  | .bitNot => "~"
  | .logicNot => "!"

/-- How the operator is written. -/
def BinaryOp.symbol : BinaryOp → String
  | .bitAnd => "&"
  | .bitOr => "|"
  | .bitXor => "^"
  | .logicAnd => "&&"
  | .logicOr => "||"
  | .equal => "=="
  | .notEqual => "!="
  | .less => "<"
  | .lessEqual => "<="
  | .greater => ">"
  | .greaterEqual => ">="
  | .add => "+"
  | .sub => "-"
  | .mul => "*"
  | .div => "/"

/-- Whether a value of the type can stand as a truth value. -/
def Ty.isTruthy : Ty → Bool
  | .bool | .uint _ => true
  | .float | .duration => false

/-- The type of the result, if the operand may have the type. -/
def UnaryOp.result? : UnaryOp → Ty → Option Ty
  | .bitNot, t => if t.isTruthy then some t else none
  | .logicNot, t => if t.isTruthy then some .bool else none

/-- Bitwise operators take two integers or two Booleans; the wider integer wins. -/
def Ty.bitwise? : Ty → Ty → Option Ty
  | .uint a, .uint b => some (.uint (max a b))
  | .bool, .bool => some .bool
  | _, _ => none

/-- Integers of any widths compare for equality, and values of one type. -/
def Ty.equality? : Ty → Ty → Option Ty
  | .uint _, .uint _ => some .bool
  | a, b => if a = b then some .bool else none

/-- Integers, floats and durations are ordered. -/
def Ty.order? : Ty → Ty → Option Ty
  | .uint _, .uint _ => some .bool
  | .float, .float => some .bool
  | .duration, .duration => some .bool
  | _, _ => none

/-- The type of the result, if the operands may have the types. The last seven
lines are the arithmetic: integers, floats, and durations, which add and
subtract, scale by floats, and divide into a float. -/
def BinaryOp.result? : BinaryOp → Ty → Ty → Option Ty
  | .bitAnd, a, b | .bitOr, a, b | .bitXor, a, b => Ty.bitwise? a b
  | .logicAnd, a, b | .logicOr, a, b => if a.isTruthy && b.isTruthy then some .bool else none
  | .equal, a, b | .notEqual, a, b => Ty.equality? a b
  | .less, a, b | .lessEqual, a, b | .greater, a, b | .greaterEqual, a, b => Ty.order? a b
  | _, .uint a, .uint b => some (.uint (max a b))
  | _, .float, .float => some .float
  | .add, .duration, .duration => some .duration
  | .sub, .duration, .duration => some .duration
  | .div, .duration, .duration => some .float
  | .mul, .duration, .float => some .duration
  | .div, .duration, .float => some .duration
  | .mul, .float, .duration => some .duration
  | _, _, _ => none

/-- A typed expression. The types of inner nodes are stored. -/
inductive Expr where
  | var (v : Var)
  | stretch (s : Stretch)
  /-- A single classical bit, read as a Boolean. -/
  | clbit (c : Clbit)
  /-- A classical register, read as an unsigned integer. -/
  | register (r : ClassicalRegister)
  | value (v : Value) (type : Ty)
  | unary (op : UnaryOp) (operand : Expr) (type : Ty)
  | binary (op : BinaryOp) (left right : Expr) (type : Ty)
  /-- A conversion; an implicit one was put in by inference. -/
  | cast (operand : Expr) (type : Ty) (implicit : Bool)
  /-- One bit of an unsigned integer. -/
  | index (target position : Expr) (type : Ty)

namespace Expr

/-- The type of the expression. -/
def type : Expr → Ty
  | var v => v.type
  | stretch _ => .duration
  | clbit _ => .bool
  | register r => .uint (UInt32.ofNat r.size)
  | value _ t => t
  | unary _ _ t => t
  | binary _ _ _ t => t
  | cast _ t _ => t
  | index _ _ t => t

/-- How the expression is written: binary operations always in brackets. -/
def text : Expr → String
  | var v => v.name
  | stretch s => s.name
  | clbit c => c.text
  | register r => r.name
  | value v _ => v.text
  | unary op e _ => op.symbol ++ e.text
  | binary op l r _ => "(" ++ l.text ++ " " ++ op.symbol ++ " " ++ r.text ++ ")"
  | cast e t _ => t.text ++ "(" ++ e.text ++ ")"
  | index e i _ => e.text ++ "[" ++ i.text ++ "]"

/-- Equal trees. Literal floats are compared as numbers. -/
def beq : Expr → Expr → Bool
  | var a, var b => a == b
  | stretch a, stretch b => a == b
  | clbit a, clbit b => a == b
  | register a, register b => a == b
  | value a s, value b t => a == b && s == t
  | unary f a s, unary g b t => f == g && a.beq b && s == t
  | binary f a b s, binary g c d t => f == g && a.beq c && b.beq d && s == t
  | cast a s i, cast b t j => a.beq b && s == t && i == j
  | index a i s, index b j t => a.beq b && i.beq j && s == t
  | _, _ => false

instance : BEq Expr := ⟨beq⟩

/-- A literal of its narrowest type. -/
def literal (v : Value) : Expr := value v v.naturalType

/-- The leaf that reads the identifier. -/
def ofIdentifier : Identifier → Expr
  | .var v => var v
  | .stretch s => stretch s

/-- The expression at the type asked for: a literal takes any type that it fits,
anything else must have it. -/
def lift (e : Expr) : Option Ty → Except CircuitError Expr
  | none => .ok e
  | some t =>
    let retyped := match e with
      | value v _ => if v.fits t then some (value v t) else none
      | _ => none
    match retyped with
    | some r => .ok r
    | none => if e.type = t then .ok e else .error (.typeMismatch e.text t e.type)

/-- Apply a unary operator. -/
def makeUnary (op : UnaryOp) (operand : Expr) : Except CircuitError Expr :=
  match op.result? operand.type with
  | some t => .ok (unary op operand t)
  | none => .error (.typeMismatch operand.text .bool operand.type)

/-- Apply a binary operator. -/
def makeBinary (op : BinaryOp) (left right : Expr) : Except CircuitError Expr :=
  match op.result? left.type right.type with
  | some t => .ok (binary op left right t)
  | none =>
    .error (.typeMismatch (left.text ++ " " ++ op.symbol ++ " " ++ right.text) left.type right.type)

/-- Take one bit of an unsigned integer. -/
def makeIndex (target position : Expr) : Except CircuitError Expr :=
  match target.type, position.type with
  | .uint _, .uint _ => .ok (index target position .bool)
  | .uint _, got => .error (.typeMismatch position.text (.uint 64) got)
  | got, _ => .error (.typeMismatch target.text (.uint 64) got)

/-- Convert to a type, on request. -/
def makeCast (operand : Expr) (t : Ty) : Expr := cast operand t false

/-- Whether the expression can be assigned to. -/
def isLvalue : Expr → Bool
  | var _ | clbit _ | register _ => true
  | index target _ _ => target.isLvalue
  | _ => false

/-- The nodes, parents before children. -/
def nodes : Expr → List Expr
  | unary op e t => unary op e t :: e.nodes
  | cast e t i => cast e t i :: e.nodes
  | binary op l r t => binary op l r t :: (l.nodes ++ r.nodes)
  | index e i t => index e i t :: (e.nodes ++ i.nodes)
  | leaf => [leaf]

/-- The identifier that the node itself reads. -/
def ownIdentifier? : Expr → Option Identifier
  | var v => some (.var v)
  | stretch s => some (.stretch s)
  | _ => none

/-- The clbit that the node itself reads. -/
def ownClbit? : Expr → Option Clbit
  | clbit c => some c
  | _ => none

/-- The register that the node itself reads. -/
def ownRegister? : Expr → Option ClassicalRegister
  | register r => some r
  | _ => none

/-- The identifiers read, each once, in order of first occurrence. -/
def identifiers (e : Expr) : List Identifier := Distinct.ofList (e.nodes.filterMap ownIdentifier?)

/-- The single clbits read, in order. -/
def clbits (e : Expr) : List Clbit := e.nodes.filterMap ownClbit?

/-- The registers read, in order. -/
def registers (e : Expr) : List ClassicalRegister := e.nodes.filterMap ownRegister?

/-- Replace the leaves for which `f` gives something, from left to right. Inner
nodes keep their types, so a replacement should have the type of its leaf. -/
def mapLeaves {m : Type → Type} [Monad m] (f : Expr → m (Option Expr)) : Expr → m Expr
  | unary op e t => do return unary op (← e.mapLeaves f) t
  | cast e t i => do return cast (← e.mapLeaves f) t i
  | binary op l r t => do
    let l ← l.mapLeaves f
    let r ← r.mapLeaves f
    return binary op l r t
  | index e i t => do
    let e ← e.mapLeaves f
    let i ← i.mapLeaves f
    return index e i t
  | leaf => do return (← f leaf).getD leaf

end Expr

end QuantumCircuit
