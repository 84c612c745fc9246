/-!
# Identity

Bits, variables, stretches and parameters are told apart by identity: two of
them made separately differ, whatever they are called. An identity is a stamp,
chosen by the caller once for each call that makes objects, and a serial number
that counts what this call makes. A caller that never uses a stamp twice never
makes the same object twice, so nothing in the library keeps a counter.
-/

namespace QuantumCircuit

/-- What tells two objects of one kind apart. -/
structure Identity where
  /-- The call that made the object. -/
  stamp : Nat
  /-- The position of the object among those the call made. -/
  serial : Nat
deriving DecidableEq, Repr, Inhabited

end QuantumCircuit
