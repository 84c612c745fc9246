/-!
# Made-up names

A name sequence counts: `q0`, `q1`, and so on. It belongs to the caller, so two
runs that build the same circuits make up the same names. `fresh` skips the
names that are taken; among any `n + 1` successive names one is not on a list
of `n`, so it has to look no further than that.
-/

namespace QuantumCircuit

/-- The names that start with `stem`, from the counter value `next` on. -/
structure NameSequence where
  stem : String
  next : Nat
deriving DecidableEq, Repr

namespace NameSequence

/-- All names that start with `stem`. -/
def ofStem (stem : String) : NameSequence := ⟨stem, 0⟩

/-- The name with the counter value `n`. -/
def nameAt (s : NameSequence) (n : Nat) : String := s.stem ++ toString n

/-- The next name, and the sequence after it. -/
def draw (s : NameSequence) : String × NameSequence :=
  (s.nameAt s.next, { s with next := s.next + 1 })

/-- The first of `n`, `n + 1`, …, `n + tries` whose name is not taken, or the last of them. -/
def firstFree (s : NameSequence) (taken : List String) : Nat → Nat → Nat
  | 0, n => n
  | tries + 1, n => if s.nameAt n ∈ taken then firstFree s taken tries (n + 1) else n

/-- The next name that is not taken, and the sequence after it. -/
def fresh (s : NameSequence) (taken : List String) : String × NameSequence :=
  { s with next := s.firstFree taken taken.length s.next }.draw

end NameSequence

end QuantumCircuit
