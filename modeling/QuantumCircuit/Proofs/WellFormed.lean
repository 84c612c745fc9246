import QuantumCircuit.Proofs.Reach
import QuantumCircuit.Proofs.Scoping

/-!
# Stores stay well formed

In the store of every reached circuit, and in every circuit inside it, the records have their
operands, no operand twice and as many as the operation takes, and all that they name is there;
and no identifier has the name of a classical register (`Circuit.Reachable.wellFormed`).
-/

namespace QuantumCircuit

namespace Content

variable {c : Content}

/-- The records fit the store, and no identifier has the name of a classical register. -/
structure WellFormed (c : Content) : Prop where
  fits : ∀ i ∈ c.records, i.Fits c
  names : ∀ i, c.identifiers.contains i → ∀ r ∈ c.clbits.registers, r.name ≠ i.name

theorem Orderly.wellFormed_of_namesFree (h : c.Orderly) (hnames : c.NamesFree) :
    c.WellFormed := by
  refine ⟨h.fits, fun i hi r hr hname => ?_⟩
  have hnone := hnames.apart i.name (IdentifierTable.hasName_of_contains hi)
  exact BitList.register?_eq_none_iff.1 hnone (List.mem_map.2 ⟨r, hr, hname⟩)

theorem Built.everywhere_wellFormed {A : Policy} (h : c.Built A) : c.Everywhere WellFormed :=
  (h.everywhere_any orderly_invariant).combine (h.everywhere_any namesFree_invariant)
    fun _ => Orderly.wellFormed_of_namesFree

end Content

namespace Circuit

/-- The store of a reached circuit is well formed, and so is that of every body of a control-flow
record and of every definition in it, at every depth. A circuit that is taken apart, stacked,
copied or taken out of another one is reached as well (`Reachable.decompose`, `Reachable.tensor`,
`Reachable.copyEmpty`, `Reachable.inside`). -/
theorem Reachable.wellFormed {A : Policy} {c : Circuit} (h : c.Reachable A) :
    c.content.Everywhere Content.WellFormed := h.built.everywhere_wellFormed

/-- The body of a loop, which copies its register to itself. -/
def copies : Circuit :=
  let register := Register.make .classical "cr" 1 0
  let copy := Operation.store ⟨.register register, .register register⟩
  ⟨"while_body", Content.empty.after
    [.addRegister .classical register, .push (.make copy [] [])], []⟩

/-- A loop that goes on while the register that its body copies is 1. -/
def copiesInLoop : Circuit :=
  let register := Register.make .classical "cr" 1 0
  ⟨"c", Content.empty.after [.addRegister .classical register,
    .push (.make (.control (.whileLoop (.register register 1) copies)) [] [0])], []⟩

/-- The loop is there, and so is the copy in it. -/
theorem wellFormed_copiesInLoop : copiesInLoop.Reachable .any ∧
    copiesInLoop.content.records.length = 1 ∧
    (copiesInLoop.content.circuits.map (·.content.records.length)) = [1] ∧
    copiesInLoop.content.Everywhere Content.WellFormed := by
  have hbody : copies.content.Built .any :=
    Content.Built.empty.after_of_circuits fun e he => absurd he List.not_mem_nil
  have hreach : copiesInLoop.Reachable .any :=
    .ofStore "c" (Content.Built.empty.after_of_circuits fun e he => by
      rwa [List.mem_singleton.1 he])
  exact ⟨hreach, by decide +kernel, by decide +kernel, hreach.wellFormed⟩

end Circuit

end QuantumCircuit
