import QuantumCircuit.Assoc
import QuantumCircuit.Edit
import QuantumCircuit.Register

/-!
# Bit lists

The bits of one kind that a circuit has, in order, with the registers over
them. The position of a bit and the registers that contain it are kept in an
index beside the list, so finding a bit never scans the registers. Bits are only
ever added, and a position once given stays.
-/

namespace QuantumCircuit

/-- Where a bit is: its position, and the registers that contain it with its place in each. -/
structure Location (k : BitKind) where
  position : Nat
  registers : List (Register k × Nat)

/-- The bits of one kind, the index over them, and the registers. -/
structure BitList (k : BitKind) where
  bits : List (Bit k)
  locations : List (Bit k × Location k)
  registers : List (Register k)

namespace BitList

variable {k : BitKind}

/-- No bits and no registers. -/
def empty : BitList k := ⟨[], [], []⟩

/-- The number of bits that positions can tell apart. -/
def capacity : Nat := .pow 2 32

/-- The number of bits. -/
def size (l : BitList k) : Nat := l.bits.length

/-- The bit at `position`. -/
def get? (l : BitList k) (position : Nat) : Option (Bit k) := l.bits[position]?

/-- Where `bit` is. -/
def find? (l : BitList k) (bit : Bit k) : Option (Location k) := Assoc.find? bit l.locations

/-- The position of `bit`. -/
def indexOf? (l : BitList k) (bit : Bit k) : Option Nat := (l.find? bit).map (·.position)

/-- Whether `bit` is listed. -/
def contains (l : BitList k) (bit : Bit k) : Bool := (l.find? bit).isSome

/-- The register of that name. -/
def register? (l : BitList k) (name : String) : Option (Register k) :=
  l.registers.find? (·.name == name)

/-- Whether exactly this register is listed. -/
def hasRegister (l : BitList k) (r : Register k) : Bool := (l.register? r.name).any (· == r)

/-- The position of `bit`, for an operation that needs it. -/
def resolve (l : BitList k) (bit : Bit k) (operation : Option String) : Except CircuitError Nat :=
  match l.indexOf? bit with
  | some position => .ok position
  | none => .error (.missingBit k bit.text operation)

/-- Refuse a position that no bit has. -/
def checkPosition (l : BitList k) (position : Nat) : Except CircuitError Unit :=
  if position < l.size then .ok () else .error (.positionOutOfRange k position l.size)

/-- The list with a new bit at its end. -/
def snoc (l : BitList k) (bit : Bit k) : BitList k :=
  { l with
    bits := l.bits ++ [bit]
    locations := l.locations ++ [(bit, ⟨l.size, []⟩)] }

/-- Add a bit, and answer its position. A bit that is listed keeps its position;
with `strict` it is refused. -/
def add (bit : Bit k) (strict : Bool) : Edit (BitList k) Nat := fun l =>
  match l.find? bit with
  | some found =>
    if strict then .error (.duplicateBit k bit.text) l else .ok found.position l
  | none => if l.size < capacity then .ok l.size (l.snoc bit) else .error .tooManyBits l

/-- Note in the location of `bit` that `r` contains it at `place`. -/
def noteMember (r : Register k) (place : Nat) (bit : Bit k) (l : BitList k) : BitList k :=
  let note (at_ : Location k) : Location k :=
    { at_ with registers := at_.registers ++ [(r, place)] }
  { l with locations := Assoc.adjust bit note l.locations }

/-- Add those bits of `r` that are missing, and note the places of all; the bits
given are those of `r` from `place` on. -/
def addMembers (r : Register k) : Nat → List (Bit k) → Edit (BitList k) Unit
  | _, [] => pure ()
  | place, bit :: rest => do
    let _ ← add bit false
    modify (noteMember r place bit)
    addMembers r (place + 1) rest

/-- Add a register under a new name, and those of its bits that are missing. -/
def addRegister (r : Register k) : Edit (BitList k) Unit := do
  let l ← get
  Edit.ofExcept (refuseIf (l.register? r.name).isSome (.duplicateRegister k r.name))
  addMembers r 0 r.bits
  modify fun l => { l with registers := l.registers ++ [r] }

end BitList

end QuantumCircuit
