import QuantumCircuit.Error
import QuantumCircuit.Distinct
import QuantumCircuit.NameSequence

/-!
# Registers

A register is a named list of bits of one kind. An owning register made its
bits; any other is an alias for bits that exist already. Two registers are equal
when they have the same name and the same bits, whoever made the bits.
-/

namespace QuantumCircuit

/-- A named list of bits. -/
structure Register (k : BitKind) where
  name : String
  bits : List (Bit k)
  /-- Whether the register made its bits. -/
  owning : Bool

/-- A register of qubits. -/
abbrev QuantumRegister := Register .quantum

/-- A register of classical bits. -/
abbrev ClassicalRegister := Register .classical

namespace Register

variable {k : BitKind}

/-- Same name and same bits. -/
def beq (a b : Register k) : Bool := a.name == b.name && a.bits == b.bits

instance : BEq (Register k) := ⟨beq⟩

theorem beq_iff (a b : Register k) : (a == b) = true ↔ a.name = b.name ∧ a.bits = b.bits := by
  show (a.name == b.name && a.bits == b.bits) = true ↔ _
  simp

/-- A register of `size` bits made for it. -/
def make (k : BitKind) (name : String) (size : Nat) (stamp : Nat) : Register k where
  name
  bits := (List.range size).map fun i => ⟨⟨stamp, i⟩, some ⟨name, i⟩⟩
  owning := true

/-- A register of new bits under a made-up name. -/
def anonymous (k : BitKind) (names : NameSequence) (size : Nat) (stamp : Nat) :
    Register k × NameSequence :=
  let (name, names) := names.draw
  (make k name size stamp, names)

/-- An alias for the bits, none of which may come twice. -/
def ofBits (name : String) (bits : List (Bit k)) : Except CircuitError (Register k) :=
  match Distinct.firstRepeat? bits with
  | some bit => .error (.repeatedRegisterBit bit.text)
  | none => .ok ⟨name, bits, false⟩

/-- The number of bits. -/
def size (r : Register k) : Nat := r.bits.length

/-- The bit at `index`. -/
def bit? (r : Register k) (index : Nat) : Option (Bit k) := r.bits[index]?

/-- The place of `bit` in the register. -/
def indexOf? (r : Register k) (bit : Bit k) : Option Nat := r.bits.idxOf? bit

/-- The longer form: kind, size and name. -/
def describe (r : Register k) : String :=
  let kind := match k with
    | .quantum => "QuantumRegister"
    | .classical => "ClassicalRegister"
  kind ++ "(" ++ toString r.size ++ ", '" ++ r.name ++ "')"

end Register

end QuantumCircuit
