import QuantumCircuit.Identity

/-!
# Parameters

A parameter is a symbol with identity that stands for a number not known yet.
The elements of a parameter vector know their vector and index. The canonical
order is by name, except that elements of one vector come by index, so `x[2]`
comes before `x[10]`.
-/

namespace QuantumCircuit

/-- The place of a parameter in its vector. -/
structure VectorElement where
  vector : String
  index : UInt32
deriving DecidableEq, Repr

/-- A symbolic parameter. -/
structure Parameter where
  name : String
  identity : Identity
  element : Option VectorElement
deriving DecidableEq, Repr

namespace Parameter

/-- What the canonical order looks at. -/
def sortKey (p : Parameter) : String × Option Nat :=
  match p.element with
  | some e => (e.vector, some e.index.toNat)
  | none => (p.name, none)

/-- The order of keys: by name, then no index before every index. -/
def keyLe : String × Option Nat → String × Option Nat → Bool
  | (a, i), (b, j) =>
    if a = b then
      match i, j with
      | none, _ => true
      | some _, none => false
      | some m, some n => m ≤ n
    else a < b

/-- The canonical order. -/
def le (p q : Parameter) : Bool := keyLe p.sortKey q.sortKey

theorem keyLe_total (a b : String × Option Nat) : keyLe a b ∨ keyLe b a := by
  obtain ⟨a, i⟩ := a
  obtain ⟨b, j⟩ := b
  unfold keyLe
  by_cases h : a = b
  · subst h
    cases i <;> cases j <;> simp [Nat.le_total]
  · simp only [h, Ne.symm h, if_false, decide_eq_true_eq]
    rcases String.le_total a b with hab | hba
    · exact .inl (Std.lt_of_le_of_ne hab h)
    · exact .inr (Std.lt_of_le_of_ne hba (Ne.symm h))

theorem keyLe_trans {a b c : String × Option Nat} (hab : keyLe a b) (hbc : keyLe b c) :
    keyLe a c := by
  obtain ⟨a, i⟩ := a
  obtain ⟨b, j⟩ := b
  obtain ⟨c, k⟩ := c
  unfold keyLe at *
  by_cases h : a = b <;> by_cases h' : b = c
  · subst h h'
    cases i <;> cases j <;> cases k <;> simp_all
    omega
  · subst h
    simpa [h'] using hbc
  · subst h'
    simpa [h] using hab
  · simp only [h, h', if_false, decide_eq_true_eq] at hab hbc
    have hac : a < c := String.lt_trans hab hbc
    have hne : a ≠ c := fun heq => String.lt_irrefl c (heq ▸ hac)
    simpa [hne] using hac

theorem le_total (p q : Parameter) : p.le q ∨ q.le p := keyLe_total _ _

theorem le_trans {p q r : Parameter} (hpq : p.le q) (hqr : q.le r) : p.le r := keyLe_trans hpq hqr

/-- The longer form. -/
def describe (p : Parameter) : String := "Parameter(" ++ p.name ++ ")"

end Parameter

/-- A named list of parameters. -/
structure ParameterVector where
  name : String
  elements : List Parameter
deriving DecidableEq, Repr

/-- A vector of `size` new parameters, named by their places. -/
def ParameterVector.make (name : String) (size : Nat) (stamp : Nat) : ParameterVector where
  name
  elements := (List.range size).map fun i =>
    let index := UInt32.ofNat i
    ⟨name ++ "[" ++ toString index ++ "]", ⟨stamp, i⟩, some ⟨name, index⟩⟩

end QuantumCircuit
