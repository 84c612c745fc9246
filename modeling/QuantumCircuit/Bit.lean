import QuantumCircuit.Identity

/-!
# Qubits and classical bits

A bit is a handle: it stays the same wherever it is listed, and one circuit may
share it with another. A bit is loose, or owned by the register that made it,
and then knows its place there. Where a circuit keeps a bit is a position, a
number that means something in that circuit only.
-/

namespace QuantumCircuit

/-- The two kinds of bit. -/
inductive BitKind where
  | quantum
  | classical
deriving DecidableEq, Repr

namespace BitKind

/-- What a bit of this kind is called in messages. -/
def word : BitKind → String
  | quantum => "qubit"
  | classical => "clbit"

/-- What a register of such bits is called in messages. -/
def registerWord : BitKind → String
  | quantum => "quantum register"
  | classical => "classical register"

/-- The letter before a position, and before the number in a made-up register name. -/
def letter : BitKind → String
  | quantum => "q"
  | classical => "c"

/-- How a position is written: `q3`, `c0`. -/
def positionText (k : BitKind) (position : Nat) : String := k.letter ++ toString position

end BitKind

/-- The register that made a bit, and the place of the bit there. -/
structure BitOwner where
  register : String
  index : Nat
deriving DecidableEq, Repr

/-- A bit handle of one kind. -/
structure Bit (k : BitKind) where
  identity : Identity
  owner : Option BitOwner
deriving DecidableEq, Repr

/-- A quantum bit. -/
abbrev Qubit := Bit .quantum

/-- A classical bit. -/
abbrev Clbit := Bit .classical

namespace Bit

variable {k : BitKind}

/-- A bit that no register made. -/
def loose (k : BitKind) (identity : Identity) : Bit k := ⟨identity, none⟩

/-- Whether no register made the bit. -/
def isLoose (b : Bit k) : Bool := b.owner.isNone

/-- An owned bit is written by its register and place. Loose bits have nothing
of their own to show, so all of one kind are written alike. -/
def text (b : Bit k) : String :=
  match b.owner with
  | some o => o.register ++ "[" ++ toString o.index ++ "]"
  | none => "<loose " ++ k.word ++ " PTR>"

/-- The longer form, with the kind in front. -/
def describe (b : Bit k) : String :=
  let kind := match k with
    | .quantum => "Qubit"
    | .classical => "Clbit"
  match b.owner with
  | some o => kind ++ "(" ++ o.register ++ ", " ++ toString o.index ++ ")"
  | none => kind ++ "(PTR)"

end Bit

end QuantumCircuit
