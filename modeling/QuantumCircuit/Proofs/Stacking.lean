import QuantumCircuit.Proofs.Framing
import QuantumCircuit.Proofs.Images

/-!
# Stacks of two circuits

A stack is made by two compositions onto a frame, on consecutive targets and with no identifier
renamed (`Circuit.tensor_outcomes`). So the records of a circuit come into it as a layer: with
their operands shifted, and over the clbits at the shifted positions, registers included
(`Circuit.Layer`). Of two reached circuits a stack that is not refused is one layer upon the
other, on as many bits as both have (`Circuit.Reachable.tensor_stacks`).
-/

namespace QuantumCircuit

/-! ## Nothing renamed -/

/-- With nothing to remap all identifiers are their own images. -/
theorem IdentifierRemap.images_empty (stamp : Nat) (identifiers : List Identifier) :
    IdentifierRemap.empty.images stamp identifiers = .ok (identifiers.map fun i => (i, i)) := by
  have hall : ∀ l : List (Identifier × Nat),
      (l.mapM fun e => do return (e.1, ← IdentifierRemap.empty.resolve e.1 ⟨stamp, e.2⟩) :
        Except CircuitError Renaming) = .ok ((l.map (·.1)).map fun i => (i, i)) := by
    intro l
    induction l with
    | nil => rfl
    | cons e rest ih =>
      rw [List.mapM_cons, ih]
      rfl
  have himages := hall identifiers.zipIdx
  rw [List.zipIdx_map_fst] at himages
  exact himages

theorem Renaming.changesAny_same (identifiers : List Identifier) :
    Renaming.changesAny (identifiers.map fun i => (i, i)) = false := by
  simp [Renaming.changesAny]

namespace Circuit

/-- How a circuit is stacked: its bits go to as many in a row, from these positions on. -/
def layerOptions (source : Circuit) (qubits clbits : Nat) : ComposeOptions where
  qubits := some ((List.range source.numQubits).map (qubits + ·))
  clbits := some ((List.range source.numClbits).map (clbits + ·))

section Run

variable {A : Policy} {low high d : Circuit} {stamp : Nat}

/-- A stack that is not refused is made by two compositions onto a frame. -/
theorem tensor_outcomes (hlow : low.Reachable A) (hhigh : high.Reachable A)
    (h : tensor high low stamp = .ok d) : ∃ qubits clbits c p s images u p' s' images' u',
    Frames low high stamp qubits clbits ∧ c.Reachable A ∧
    Outcome (framed high.name qubits clbits) low (low.layerOptions 0 0) c p s images u ∧
    Outcome c high (high.layerOptions low.numQubits low.numClbits) d p' s' images' u' := by
  unfold tensor at h
  obtain ⟨-, h⟩ := Checking.seq_eq_ok_iff.1 h
  obtain ⟨frame, hframe, h⟩ := Checking.bind_eq_ok_iff.1 h
  obtain ⟨_, c, hc, hd⟩ := Edit.bind_eq_ok_iff.1 (Edit.finalState_eq_ok_iff.1 h)
  have hreach : frame.Reachable A := Reachable.tensorFrame_reachable hframe
  have hreach' := Reachable.compose hlow.built _ _ _ hreach (.of_ok hc)
  obtain ⟨qubits, clbits, hframes, rfl⟩ := tensorFrame_eq_ok_iff.1 hframe
  obtain ⟨p, s, images, u, hout⟩ := compose_outcome hreach hlow rfl rfl hc
  obtain ⟨p', s', images', u', hout'⟩ := compose_outcome hreach' hhigh hout.blocks rfl hd
  have hlowest : low.layerOptions 0 0 = { qubits := some (List.range low.numQubits)
                                          clbits := some (List.range low.numClbits) } := by
    simp [layerOptions]
  refine ⟨qubits, clbits, c, p, s, images, u, p', s', images', u', hframes, hreach', ?_, hout'⟩
  rw [hlowest]
  exact hout

end Run

/-! ## Layers -/

section Layers

variable {A : Policy} {c source d e : Circuit} {p : Placement} {s : Splice} {images : Renaming}
  {u : Content} {qubits clbits : Nat}

/-- Where clbits go whose new positions begin at `offset`. -/
def ClbitShifted (source : Circuit) (offset : Nat) (d : Circuit) (b b' : Clbit) : Prop :=
  ∃ k : Nat, source.content.clbits.bits[k]? = some b ∧
    d.content.clbits.bits[offset + k]? = some b'

/-- What takes the place of leaves in a layer. Identifiers stay. A register goes to one over the
clbits that its own go to, in order. -/
def shifting (source : Circuit) (offset : Nat) (d : Circuit) : Replacement where
  image i := i
  clbit := source.ClbitShifted offset d
  register r r' := r' ∈ d.content.clbits.registers ∧
    List.Forall₂ (source.ClbitShifted offset d) r.bits r'.bits
  sort_image _ := rfl
  type_image _ := rfl
  size_eq _ _ h := h.2.length_eq.symm

/-- A record where it stands in a stack. Bodies and definitions in it are as they were. -/
structure LiftedTo (source : Circuit) (qubits clbits : Nat) (d : Circuit) (i i' : Instruction) :
    Prop where
  operation : i.operation.Rewritten (source.shifting clbits d) Eq i'.operation
  qubits : i'.qubits = i.qubits.map (qubits + ·)
  clbits : i'.clbits = i.clbits.map (clbits + ·)
  label : i'.label = i.label

/-- The records of a circuit as they stand in the stack `d`, its bits shifted. -/
structure Layer (source : Circuit) (qubits clbits : Nat) (d : Circuit)
    (records : List Instruction) : Prop where
  lifted : List.Forall₂ (LiftedTo source qubits clbits d) source.content.records records
  /-- Wherever conditions, targets and stores read one register, they still read one. -/
  reads : ∃ image : ClassicalRegister → ClassicalRegister,
    (∀ r ∈ source.readRegisters, (source.shifting clbits d).register r (image r)) ∧
    List.Forall₂ (fun i i' : Instruction =>
      i'.operation.classicalUse.registers = i.operation.classicalUse.registers.map image)
      source.content.records records

/-- A target is looked up where the shifted position is. -/
theorem getElem?_shifted {n offset k t : Nat}
    (h : ((List.range n).map (offset + ·))[k]? = some t) : t = offset + k := by
  rw [List.getElem?_map, Option.map_eq_some_iff] at h
  obtain ⟨j, hj, rfl⟩ := h
  obtain ⟨-, rfl⟩ := List.getElem?_eq_some_iff.1 hj
  simp

/-- Operands in range are shifted. -/
theorem map_getD_shifted {n offset : Nat} {operands : List Nat} (h : ∀ q ∈ operands, q < n) :
    (operands.map fun q => ((List.range n).map (offset + ·)).getD q q) =
      operands.map (offset + ·) := by
  refine List.map_congr_left fun q hq => ?_
  have hlt := h q hq
  simp [List.getD, hlt]

variable (hout : Outcome c source (source.layerOptions qubits clbits) d p s images u)
include hout

theorem Outcome.changesAny_eq : images.changesAny = false := by
  have hresolved := hout.settled.resolved
  rw [show (source.layerOptions qubits clbits).remap = .empty from rfl,
    IdentifierRemap.images_empty] at hresolved
  cases hresolved
  exact Renaming.changesAny_same _

/-- A composition on consecutive targets replaces leaves as in a layer. -/
theorem Outcome.madeBy_shifting (hbits : e.content.clbits.bits = d.content.clbits.bits)
    (hregisters : d.content.clbits.registers ⊆ e.content.clbits.registers) :
    (source.shifting clbits e).MadeBy ((c.spliceMap source p images).leafAmong s.aliases) := by
  have hshifted : ∀ b b', (c.spliceMap source p images).clbit b = .ok b' →
      source.ClbitShifted clbits e b b' := by
    intro b b' hb
    obtain ⟨k, t, hk, ht, hd⟩ := clbitGoes_of_clbit hout.placed hout.place hout.clbits hb
    rw [getElem?_shifted ht] at hd
    exact ⟨k, hk, hbits ▸ hd⟩
  have htyped := IdentifierRemap.typed_images hout.settled.resolved
  have hmade : (htyped.onto _).MadeBy ((c.spliceMap source p images).leafAmong s.aliases) :=
    LeafMap.madeBy_leafAmong htyped hshifted
  refine ⟨fun i o ho => ?_, hmade.clbit, fun r o ho => ?_, hmade.value⟩
  · rw [hmade.identifier i o ho]
    exact congrArg Expr.ofIdentifier (LeafMap.apply_of_not_changesAny hout.changesAny_eq i)
  · obtain ⟨r', hr, ho⟩ := Checking.bind_eq_ok_iff.1 ho
    cases ho
    obtain ⟨hmem, hover⟩ := LeafMap.standIn_bits hr
    exact ⟨r', ⟨hregisters (hout.mem_registers hmem), hover.imp hshifted⟩, rfl⟩

/-- The records of a circuit come in as a layer. -/
theorem Outcome.layer (hsource : source.Reachable A)
    (hbits : e.content.clbits.bits = d.content.clbits.bits)
    (hregisters : d.content.clbits.registers ⊆ e.content.clbits.registers) :
    Layer source qubits clbits e s.records := by
  have hmade := hout.madeBy_shifting hbits hregisters
  obtain ⟨hqubits, hclbits⟩ := place_targets hout.place
  refine ⟨?_, (c.spliceMap source p images).imageAmong s.aliases, fun r hr => ?_, hout.reads⟩
  · refine ((List.forall₂_and_left _ _).2 ⟨hsource.built.orderly.fits, hout.moved⟩).imp ?_
    rintro i i' ⟨hfits, op, hop, rfl⟩
    refine ⟨?_, ?_, ?_, rfl⟩
    · rw [LeafMap.operationAmong_eq_moveBy] at hop
      refine Operation.rewritten_of_moveBy hmade (fun b _ b' hb => ?_) hop
      rcases hb with ⟨-, rfl⟩ | ⟨hchanges, -⟩
      · rfl
      · exact absurd (hout.changesAny_eq.symm.trans hchanges) Bool.false_ne_true
    · show i.qubits.map (fun q => p.qubits.getD q q) = _
      rw [hqubits]
      exact map_getD_shifted hfits.qubits
    · show i.clbits.map (fun b => p.clbits.getD b b) = _
      rw [hclbits]
      exact map_getD_shifted hfits.clbits
  · obtain ⟨r', hr', ho⟩ := hmade.register r _
      (LeafMap.takesPlace_leafAmong_iff.2 (hout.standIn_of_read hr))
    cases ho
    exact hr'

end Layers

/-! ## Stacks -/

section Stacks

variable {A : Policy} {low high d : Circuit} {stamp : Nat}

/-- The circuit `d` is `high` stacked upon `low`. -/
structure Stack (low high d : Circuit) : Prop where
  numQubits : d.numQubits = low.numQubits + high.numQubits
  numClbits : d.numClbits = low.numClbits + high.numClbits
  /-- The records of `low` on the low bits, and then those of `high` on the bits above. -/
  records : ∃ first second, d.content.records = first ++ second ∧
    Layer low 0 0 d first ∧ Layer high low.numQubits low.numClbits d second
  qubits : ¬ BothDefault low high →
    d.content.qubits.bits = low.content.qubits.bits ++ high.content.qubits.bits ∧
      d.content.qubits.registers = low.content.qubits.registers ++ high.content.qubits.registers
  /-- Behind the classical registers of both there may be aliases. -/
  clbits : ¬ BothDefault low high → ¬ BothMeasured low high →
    d.content.clbits.bits = low.content.clbits.bits ++ high.content.clbits.bits ∧
      low.content.clbits.registers ++ high.content.clbits.registers <+: d.content.clbits.registers

/-- Both fit into a list of bits that has as many or none. -/
theorem size_eq_of_le {n m size : Nat} (hn : n ≤ size) (hm : m ≤ size)
    (hsize : size = n + m ∨ size = 0 ∧ BitList.capacity < n + m) : size = n + m := by
  omega

/-- A stack that is not refused has as many bits as both circuits. -/
theorem tensor_sizes (hlow : low.Reachable A) (hhigh : high.Reachable A)
    (h : tensor high low stamp = .ok d) : d.numQubits = low.numQubits + high.numQubits ∧
      d.numClbits = low.numClbits + high.numClbits := by
  obtain ⟨qubits, clbits, c, p, s, images, u, p', s', images', u', hframes, -, hout, hout'⟩ :=
    tensor_outcomes hlow hhigh h
  obtain ⟨hqubitSize, hclbitSize⟩ := hframes.sizes hlow.built.orderly hhigh.built.orderly
  have hfirst := hout.spliced hlow rfl
  have hsecond := hout'.spliced hhigh hout.blocks
  -- the targets of clbits are given, so that no clbits are brought along
  have hqubits : c.numQubits = qubits.size := congrArg BitList.size hfirst.qubits
  have hclbits : c.numClbits = clbits.size := congrArg List.length hfirst.clbits
  have hqubits' : d.numQubits = qubits.size :=
    (congrArg BitList.size hsecond.qubits).trans hqubits
  have hclbits' : d.numClbits = clbits.size := (congrArg List.length hsecond.clbits).trans hclbits
  refine ⟨hqubits'.trans (size_eq_of_le ?_ ?_ hqubitSize),
    hclbits'.trans (size_eq_of_le ?_ ?_ hclbitSize)⟩
  · exact hqubits ▸ hfirst.qubitTargets.le
  · exact hqubits' ▸ hsecond.qubitTargets.le
  · exact hclbits ▸ hfirst.clbitTargets.le
  · exact hclbits' ▸ hsecond.clbitTargets.le

/-- A stack that is not refused has the records of both circuits, in two layers, on the bits of
both. It is made anew: what is stacked is not changed. -/
theorem Reachable.tensor_stacks (hlow : low.Reachable A) (hhigh : high.Reachable A)
    (h : Circuit.tensor high low stamp = .ok d) : Stack low high d := by
  obtain ⟨hnumQubits, hnumClbits⟩ := tensor_sizes hlow hhigh h
  obtain ⟨qubits, clbits, c, p, s, images, u, p', s', images', u', hframes, -, hout, hout'⟩ :=
    tensor_outcomes hlow hhigh h
  have hlowOrderly := hlow.built.orderly
  have hhighOrderly := hhigh.built.orderly
  have hfirst := hout.spliced hlow rfl
  have hsecond := hout'.spliced hhigh hout.blocks
  have hqubits : d.content.qubits = qubits := hsecond.qubits.trans hfirst.qubits
  have hclbits : c.content.clbits.bits = clbits.bits := hfirst.clbits
  have hclbits' : d.content.clbits.bits = c.content.clbits.bits := hsecond.clbits
  have hregisters : clbits.registers <+: d.content.clbits.registers :=
    hfirst.registers.trans hsecond.registers
  refine ⟨hnumQubits, hnumClbits, ⟨s.records, s'.records, ?_, ?_, ?_⟩, fun hnot => ?_,
    fun hnot hnot' => ?_⟩
  · rw [hout'.records, hout.records]
    rfl
  · exact hout.layer hlow hclbits' hsecond.registers.subset
  · exact hout'.layer hhigh rfl (List.Subset.refl _)
  · rw [hqubits]
    exact hframes.qubits_eq hlowOrderly hhighOrderly hnot
  · obtain ⟨hbits, hboth⟩ := hframes.clbits_eq hlowOrderly hhighOrderly hnot hnot'
    rw [hclbits', hclbits, ← hboth]
    exact ⟨hbits, hregisters⟩

/-- A qubit is measured into the only register, which is called `meas` and is copied to itself. -/
def copiesMeasured (stamp : Nat) : Circuit :=
  let register := Register.make .classical "meas" 1 stamp
  let copy := Operation.store ⟨.register register, .register register⟩
  ⟨"m", Content.empty.after
    [.addBit .quantum (.loose .quantum ⟨stamp, 1⟩), .addRegister .classical register,
      .push (.make .measure [0] [0]), .push (.make copy [] [])], []⟩

theorem copiesMeasured_reachable (stamp : Nat) : (copiesMeasured stamp).Reachable .any :=
  .ofStore "m" (.empty_after rfl)

/-- The two registers become one, so that each copy is over an alias for a half of it. -/
theorem tensor_stacks_copiesMeasured : (copiesMeasured 1).Reachable .any ∧
    (copiesMeasured 2).Reachable .any ∧
    ∃ d, tensor (copiesMeasured 2) (copiesMeasured 1) 3 = .ok d ∧
      d.content.clbits.registers.map (·.name) = ["meas", "c0", "c1"] ∧
      d.content.records.map (·.clbits) = [[0], [], [1], []] ∧
      Stack (copiesMeasured 1) (copiesMeasured 2) d := by
  have hlow := copiesMeasured_reachable 1
  have hhigh := copiesMeasured_reachable 2
  have hresult : ((tensor (copiesMeasured 2) (copiesMeasured 1) 3).toOption.map fun d =>
      (d.content.clbits.registers.map (·.name), d.content.records.map (·.clbits))) =
        some (["meas", "c0", "c1"], [[0], [], [1], []]) := by
    decide +kernel
  cases h : tensor (copiesMeasured 2) (copiesMeasured 1) 3 with
  | error e =>
    rw [h] at hresult
    cases hresult
  | ok d =>
    rw [h] at hresult
    obtain ⟨hnames, hclbits⟩ := Prod.mk.inj (Option.some.inj hresult)
    exact ⟨hlow, hhigh, d, rfl, hnames, hclbits, hlow.tensor_stacks hhigh h⟩

end Stacks

end Circuit

end QuantumCircuit
