import Mathlib.Algebra.Group.Nat.Defs
import QuantumCircuit.Serial.Codec

/-!
# Written values are read back

Reading a written value gives the value back, with the identities of its variables, stretches and
parameters, and so no two values are written alike (`Lossless`). This holds of every value without a
number that is not finite, as such a number is written as `null`.

The proofs follow the layouts: a variant is told by its tag alone, or by the field that is its tag,
and what it holds is read back by induction. The three layouts of gates are kept apart by
`Gate.read?_write`. How a tree is set out as text, and how deep a reader of texts goes, is left
open: numbers, texts and identities are leaves here.
-/

namespace QuantumCircuit

open Serial (Tree)

/-- That the values with the property are read back as they were written, and are written
differently if they differ. -/
structure Lossless {α : Type} (write : α → Tree) (read? : Tree → Option α) (P : α → Prop) :
    Prop where
  read_write : ∀ a, P a → read? (write a) = some a
  eq_of_write_eq : ∀ a b, P a → P b → write a = write b → a = b

/-- What is read back was not written for another value. -/
theorem Lossless.of_read_write {α : Type} {write : α → Tree} {read? : Tree → Option α}
    {P : α → Prop} (h : ∀ a, P a → read? (write a) = some a) : Lossless write read? P where
  read_write := h
  eq_of_write_eq a b ha hb heq := Option.some.inj (by rw [← h a ha, heq, h b hb])

/-! ## Numbers and lists -/

theorem Serial.Tree.intIn?_int {least greatest n : Int} (hleast : least ≤ n)
    (hgreatest : n ≤ greatest) : (Tree.int n).intIn? least greatest = some n :=
  if_pos ⟨hleast, hgreatest⟩

theorem Serial.Tree.float?_ofFloat {x : Float} (h : x.isFinite = true) :
    (Tree.ofFloat x).float? = some x := by
  rw [ofFloat, if_pos h]
  rfl

theorem readWord32_int (n : UInt32) : readWord32 (.int n.toNat) = some n := by
  have hlt : n.toNat < 2 ^ 32 := n.toNat_lt
  have hgreatest : (n.toNat : Int) ≤ 2 ^ 32 - 1 := by omega
  have hread : (Tree.int n.toNat).intIn? 0 (.pow 2 32 - 1) = some (n.toNat : Int) :=
    Tree.intIn?_int (Int.natCast_nonneg _) hgreatest
  rw [readWord32, hread, Option.map_some, Int.toNat_natCast, UInt32.ofNat_toNat]

theorem readWord64_int (n : UInt64) : readWord64 (.int n.toNat) = some n := by
  have hlt : n.toNat < 2 ^ 64 := n.toNat_lt
  have hgreatest : (n.toNat : Int) ≤ 2 ^ 64 - 1 := by omega
  have hread : (Tree.int n.toNat).intIn? 0 (.pow 2 64 - 1) = some (n.toNat : Int) :=
    Tree.intIn?_int (Int.natCast_nonneg _) hgreatest
  rw [readWord64, hread, Option.map_some, Int.toNat_natCast, UInt64.ofNat_toNat]

theorem readSigned64_int (n : Int64) : readSigned64 (.int n.toInt) = some n := by
  have hread : (Tree.int n.toInt).intIn? (-.pow 2 63) (.pow 2 63 - 1) = some n.toInt :=
    Tree.intIn?_int n.le_toInt (Int.le_sub_one_of_lt n.toInt_lt)
  rw [readSigned64, hread, Option.map_some, Int64.ofInt_toInt]

theorem readEach_map {α : Type} {write : α → Tree} {read : Tree → Option α} {xs : List α}
    (h : ∀ x ∈ xs, read (write x) = some x) : readEach read (xs.map write) = some xs := by
  induction xs with
  | nil => rfl
  | cons x rest ih =>
    obtain ⟨hx, hrest⟩ := List.forall_mem_cons.1 h
    rw [List.map_cons, readEach, hx, ih hrest]
    rfl

/-! ## Types, literals and identifiers -/

theorem Ty.read?_write (t : Ty) : read? t.write = some t := by
  cases t with
  | bool | float | duration => rfl
  | uint width => exact congrArg (Option.map uint) (readWord32_int width)

/-- That a float literal is finite. -/
def Value.Finite : Value → Prop
  | bool _ | uint _ => True
  | float x => x.isFinite = true

theorem Value.read?_write {v : Value} (h : v.Finite) : read? v.write = some v := by
  cases v with
  | bool b => rfl
  | uint n => exact congrArg (Option.map uint) (readWord64_int n)
  | float x => exact congrArg (Option.map float) (Tree.float?_ofFloat h)

theorem Var.read?_write (v : Var) : read? v.write = some v := by
  rw [write, read?, Ty.read?_write]
  rfl

theorem Stretch.read?_write (s : Stretch) : read? s.write = some s := rfl

theorem Identifier.read?_write (i : Identifier) : read? i.write = some i := by
  cases i with
  | var v => exact congrArg (Option.map var) (Var.read?_write v)
  | stretch s => exact congrArg (Option.map stretch) (Stretch.read?_write s)

/-! ## Parameters -/

theorem Parameter.read?_write (p : Parameter) : read? p.write = some p := by
  obtain ⟨name, identity, element⟩ := p
  cases element with
  | none => rfl
  | some e =>
    simp only [write, read?, readElement?, readWord32_int, Option.map_some]
    rfl

theorem ParameterVector.read?_write (v : ParameterVector) : read? v.write = some v := by
  rw [write, read?, readEach_map fun p _ => p.read?_write]
  rfl

namespace ParamExpr

variable {a b e : ParamExpr Float}

/-- The constants from left to right. -/
def constants {R : Type} : ParamExpr R → List R
  | const x => [x]
  | sym _ | pi => []
  | neg a => a.constants
  | add a b | sub a b | mul a b | div a b => a.constants ++ b.constants

/-- That all constants are finite. -/
def Finite (e : ParamExpr Float) : Prop := ∀ x ∈ e.constants, x.isFinite = true

theorem read?_write (h : e.Finite) : read? e.write = some e := by
  induction e with
  | const x =>
    have hx : x.isFinite = true := h x (List.mem_singleton.2 rfl)
    rw [write, Tree.tagged, read?, Tree.float?_ofFloat hx]
    rfl
  | sym p =>
    rw [write, Tree.tagged, read?, p.read?_write]
    rfl
  | pi => rw [write, read?]
  | neg a ih =>
    rw [write, Tree.tagged, read?, ih h]
    rfl
  | add a b iha ihb | sub a b iha ihb | mul a b iha ihb | div a b iha ihb =>
    obtain ⟨ha, hb⟩ := List.forall_mem_append.1 h
    rw [write, Tree.tagged, read?, iha ha, ihb hb]
    rfl

end ParamExpr

/-! ## Gates -/

theorem FixedGate.find?_tag (g : FixedGate) : all.find? (·.tag == g.tag) = some g := by
  cases g <;> decide

theorem RotationGate.find?_tag (g : RotationGate) : all.find? (·.tag == g.tag) = some g := by
  cases g <;> decide

theorem RotationGate.tag_ne_universal (g : RotationGate) : g.tag ≠ "U" := by
  cases g <;> decide

namespace Gate

/-- That the constants of all angles are finite. -/
def Finite (g : Gate) : Prop := ∀ a ∈ g.angles, a.Finite

theorem read?_write {g : Gate} (h : g.Finite) : read? g.write = some g := by
  have hangle : ∀ a ∈ g.angles, ParamExpr.read? a.write = some a :=
    fun a ha => ParamExpr.read?_write (h a ha)
  cases g with
  | fixed g => exact congrArg (Option.map fixed) g.find?_tag
  | rotation g a =>
    -- no rotation has the tag of the gate with three angles
    rw [write, Tree.tagged, read?, g.find?_tag, hangle a (List.mem_singleton.2 rfl)]
    · rfl
    · intro x y z htag
      exact absurd htag g.tag_ne_universal
  | universal a b c =>
    have ha := hangle a (by simp [angles])
    have hb := hangle b (by simp [angles])
    have hc := hangle c (by simp [angles])
    rw [write, Tree.tagged, read?, ha, hb, hc]
    rfl

end Gate

/-! ## Labels and loop indices -/

theorem CaseLabel.read?_write (l : CaseLabel) : read? l.write = some l := by
  cases l with
  | value n => exact congrArg (Option.map value) (readWord64_int n)
  | otherwise => rfl

theorem LoopIndices.read?_write (l : LoopIndices) : read? l.write = some l := by
  cases l with
  | range start stop step =>
    rw [write, Tree.tagged, read?, readSigned64_int, readSigned64_int, readSigned64_int]
    rfl
  | values list =>
    exact congrArg (Option.map values) (readEach_map fun n _ => readSigned64_int n)

/-! ## All of them -/

/-- Formulas of any depth, gates, parameters and their vectors, literals, types, identifiers, case
labels and loop indices are read back as they were written, if their constants are finite, and no
two of one sort are written alike. -/
theorem reads_what_was_written :
    Lossless ParamExpr.write ParamExpr.read? ParamExpr.Finite ∧
    Lossless Gate.write Gate.read? Gate.Finite ∧
    Lossless Parameter.write Parameter.read? (fun _ => True) ∧
    Lossless ParameterVector.write ParameterVector.read? (fun _ => True) ∧
    Lossless Value.write Value.read? Value.Finite ∧
    Lossless Ty.write Ty.read? (fun _ => True) ∧
    Lossless Var.write Var.read? (fun _ => True) ∧
    Lossless Stretch.write Stretch.read? (fun _ => True) ∧
    Lossless Identifier.write Identifier.read? (fun _ => True) ∧
    Lossless CaseLabel.write CaseLabel.read? (fun _ => True) ∧
    Lossless LoopIndices.write LoopIndices.read? (fun _ => True) := by
  refine ⟨.of_read_write fun _ => ParamExpr.read?_write, .of_read_write fun _ => Gate.read?_write,
    .of_read_write fun p _ => p.read?_write, .of_read_write fun v _ => v.read?_write,
    .of_read_write fun _ => Value.read?_write, ?_⟩
  exact ⟨.of_read_write fun t _ => t.read?_write, .of_read_write fun v _ => v.read?_write,
    .of_read_write fun s _ => s.read?_write, .of_read_write fun i _ => i.read?_write,
    .of_read_write fun l _ => l.read?_write, .of_read_write fun l _ => l.read?_write⟩

/-- The element of a vector in a gate with three angles. -/
def tilted : Gate :=
  .universal (.div (.sym ⟨"x[3]", ⟨0, 3⟩, some ⟨"x", 3⟩⟩) (.const 2)) .pi (.neg (.const 0.5))

/-- The gate is read back with its parameter, and is not written as the gate with one angle `π`; and
so is a new vector of that name. -/
theorem reads_what_was_written_tilted : tilted.Finite ∧ Gate.read? tilted.write = some tilted ∧
    tilted.write ≠ (Gate.rotation .p .pi).write ∧
    ParameterVector.read? (ParameterVector.make "x" 12 0).write = some (.make "x" 12 0) := by
  obtain ⟨-, hgate, -, hvector, -⟩ := reads_what_was_written
  have hfinite : tilted.Finite := by
    simp only [Gate.Finite, tilted, Gate.angles, ParamExpr.Finite, ParamExpr.constants,
      List.forall_mem_cons]
    decide
  have hplain : (Gate.rotation .p .pi).Finite := by
    simp [Gate.Finite, Gate.angles, ParamExpr.Finite, ParamExpr.constants]
  refine ⟨hfinite, hgate.read_write _ hfinite, fun heq => ?_, hvector.read_write _ trivial⟩
  exact nomatch hgate.eq_of_write_eq _ _ hfinite hplain heq

end QuantumCircuit
