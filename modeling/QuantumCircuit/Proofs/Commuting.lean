import QuantumCircuit.Proofs.Summarizing

/-!
# Assigning and taking apart, in either order

To take operations apart after an assignment of numbers gives the records that one gets by taking
them apart first and assigning then (`Circuit.Reachable.decompose_assign`). Two runs are followed
step by step, one over the records and one over the assigned records. What they have made so far
are circuits apart from the assignment (`Circuit.AssignsTo`), and a step keeps them so
(`Circuit.AssignsTo.step`). The index of the second circuit holds no more parameters, so it takes
all names that the first one takes, and the second run answers as well.
-/

namespace QuantumCircuit

theorem ParameterTable.check_of_subset {t : ParameterTable} {ps qs : List Parameter}
    (h : t.check ps = .ok ()) (hsub : qs ⊆ ps) : t.check qs = .ok () := by
  obtain ⟨hadmits, hapart⟩ := check_eq_ok_iff.1 h
  refine check_eq_ok_iff.2 ⟨fun p hp => hadmits p (hsub hp), fun p hp q hq => ?_⟩
  exact hapart p (hsub hp) q (hsub hq)

/-! ## Moving an assigned record -/

theorem ControlFlow.mapLeaves_withBodies {σ : Type} {f : Expr → Edit σ (Option Expr)} {u v : σ}
    {flow mapped : ControlFlow} (h : flow.mapLeaves f u = .ok mapped v) (bodies : List Circuit) :
    (flow.withBodies bodies).mapLeaves f u = .ok (mapped.withBodies bodies) v := by
  cases flow with
  | ifElse c t e =>
    obtain ⟨c', w, hc, h⟩ := Edit.bind_eq_ok_iff.1 h
    cases h
    cases e <;> exact Edit.bind_eq_ok_iff.2 ⟨c', v, hc, rfl⟩
  | whileLoop c b =>
    obtain ⟨c', w, hc, h⟩ := Edit.bind_eq_ok_iff.1 h
    cases h
    exact Edit.bind_eq_ok_iff.2 ⟨c', v, hc, rfl⟩
  | switchCase t arms =>
    obtain ⟨t', w, ht, h⟩ := Edit.bind_eq_ok_iff.1 h
    cases h
    exact Edit.bind_eq_ok_iff.2 ⟨t', v, ht, rfl⟩
  | box b d =>
    cases d with
    | none =>
      cases h
      rfl
    | some d =>
      obtain ⟨d', w, hd, h⟩ := Edit.bind_eq_ok_iff.1 h
      cases h
      exact Edit.bind_eq_ok_iff.2 ⟨d', v, hd, rfl⟩
  | forLoop i p b | jump j q c =>
    cases h
    rfl

namespace LeafMap

variable {m : LeafMap} {s : Binding Float} {u v : RegisterChoice} {op moved : Operation}

section Unrenamed

variable (hsame : m.identifiers.changesAny = false)
include hsame

/-- Where no identifier is renamed, moving an operation does not touch its circuits and angles. -/
theorem operation_withParts (h : m.operation op u = .ok moved v) (f : Angle → Angle)
    (circuits : List Circuit) :
    m.operation (op.withParts f circuits) u = .ok (moved.withParts f circuits) v := by
  cases op with
  | store a =>
    obtain ⟨a', w, ha, h⟩ := Edit.bind_eq_ok_iff.1 h
    cases h
    exact Edit.bind_eq_ok_iff.2 ⟨a', v, ha, rfl⟩
  | delay d =>
    obtain ⟨d', w, hd, h⟩ := Edit.bind_eq_ok_iff.1 h
    cases h
    exact Edit.bind_eq_ok_iff.2 ⟨d', v, hd, rfl⟩
  | control flow =>
    obtain ⟨mapped, w, hmapped, h⟩ := Edit.bind_eq_ok_iff.1 h
    rw [hsame] at h
    cases h
    refine Edit.bind_eq_ok_iff.2 ⟨_, v, ControlFlow.mapLeaves_withBodies hmapped circuits, ?_⟩
    rw [hsame]
    rfl
  | gate g | custom o | measure | reset | barrier w =>
    cases h
    rfl

/-- All that an assignment goes by stays when an operation is moved. -/
theorem operation_keeps_parts (h : m.operation op u = .ok moved v) :
    moved.circuits = op.circuits ∧ moved.freeParameters = op.freeParameters ∧
      ∀ s, moved.innerBinding s = op.innerBinding s := by
  cases op with
  | store a =>
    obtain ⟨a', w, -, h⟩ := Edit.bind_eq_ok_iff.1 h
    cases h
    exact ⟨rfl, rfl, fun _ => rfl⟩
  | delay d =>
    obtain ⟨d', w, -, h⟩ := Edit.bind_eq_ok_iff.1 h
    cases h
    exact ⟨rfl, rfl, fun _ => rfl⟩
  | control flow =>
    obtain ⟨mapped, w, hmapped, h⟩ := Edit.bind_eq_ok_iff.1 h
    rw [hsame] at h
    cases h
    have halike := ControlFlow.mapLeaves_answers hmapped
    refine ⟨halike.bodies, ?_, fun s => ?_⟩
    · simp only [Operation.freeParameters, halike.bodies, halike.loopParameter?]
    · simp only [Operation.innerBinding, ControlFlow.innerBinding, halike.loopParameter?]
  | gate g | custom o | measure | reset | barrier w =>
    cases h
    exact ⟨rfl, rfl, fun _ => rfl⟩

/-- An assigned operation is moved like the operation, to what is assigned when that has moved. -/
theorem operation_assign {op' : Operation} (h : m.operation op u = .ok moved v)
    (hop : op.assign s = .ok op') :
    ∃ moved', m.operation op' u = .ok moved' v ∧ moved.assign s = .ok moved' := by
  obtain ⟨circuits, hcircuits, rfl⟩ := Operation.assign_eq_ok_iff.1 hop
  obtain ⟨hsameCircuits, -, hinner⟩ := operation_keeps_parts hsame h
  refine ⟨_, operation_withParts hsame h _ circuits, ?_⟩
  refine Operation.assign_eq_ok_iff.2 ⟨circuits, ?_, rfl⟩
  rw [hsameCircuits, hinner]
  exact hcircuits

/-- Records that have been assigned move to what is assigned when the records have moved. -/
theorem records_assign {p : Placement} {is is' js : List Instruction}
    (h : m.records p is u = .ok js v)
    (hall : List.Forall₂ (fun i i' => i.assign s = .ok i') is is') :
    ∃ js', m.records p is' u = .ok js' v ∧
      List.Forall₂ (fun j j' => j.assign s = .ok j') js js' := by
  induction hall generalizing u js with
  | nil =>
    cases h
    exact ⟨[], rfl, .nil⟩
  | @cons i i' is is' hi _ ih =>
    obtain ⟨moved, w, hmoved, h⟩ := Edit.bind_eq_ok_iff.1 h
    obtain ⟨rest, w', hrest, h⟩ := Edit.bind_eq_ok_iff.1 h
    cases h
    obtain ⟨rest', hrest', hassigned⟩ := ih hrest
    have huses : ∀ j : Instruction, j.operation = moved → (j.Uses s ↔ i.Uses s) := by
      rintro j rfl
      exact Instruction.uses_congr (operation_keeps_parts hsame hmoved).2.1
    obtain ⟨op', hused, hop, rfl⟩ | ⟨hused, rfl⟩ := Instruction.assign_cases hi
    · obtain ⟨moved', hmoved', hassign⟩ := operation_assign hsame hmoved hop
      refine ⟨_, Edit.bind_eq_ok_iff.2 ⟨moved', w, hmoved', Edit.bind_eq_ok_iff.2
        ⟨rest', v, hrest', rfl⟩⟩, .cons ?_ hassigned⟩
      exact (Instruction.assign_eq_ok_iff_of_uses ((huses _ rfl).2 hused)).2
        ⟨moved', hassign, rfl⟩
    · refine ⟨_, Edit.bind_eq_ok_iff.2 ⟨moved, w, hmoved, Edit.bind_eq_ok_iff.2
        ⟨rest', v, hrest', rfl⟩⟩, .cons (Instruction.assign_of_not_uses ?_) hassigned⟩
      exact mt (huses _ rfl).1 hused

end Unrenamed

end LeafMap

/-! ## One step of two runs -/

namespace Circuit

variable {A : Policy} {c d w w' source source' : Circuit} {o : ComposeOptions} {p : Placement}
  {r : Splice} {u : Content} {s : Binding Float}

namespace AssignsTo

theorem parameters_subset (h : source.AssignsTo s source') (hsource : source.Wrappable .any)
    (hsource' : source'.Wrappable .any) : source'.parameters ⊆ source.parameters := by
  intro q hq
  have hused := hsource'.indexed.wellFormed.mem_sorted_iff.1 hq
  exact hsource.indexed.wellFormed.mem_sorted_iff.2 (h.parameters q hused)

section Composing

variable (hw : w.Ready .any) (hw' : w'.Ready .any) (hww : w.AssignsTo s w')
  (hsource : source.Wrappable .any) (hsource' : source'.Wrappable .any)
  (hss : source.AssignsTo s source')
include hww hsource hss

/-- The splice of an assigned definition is the assigned splice. -/
theorem splice (hsource' : source'.Wrappable .any) {qubits clbits : List Nat}
    (hout : Outcome w source (.onto qubits clbits) d p r [] u) :
    ∃ r', w'.splice source' (.onto qubits clbits) p = .ok r' ∧ r'.aliases = r.aliases ∧
      List.Forall₂ (fun j j' => j.assign s = .ok j') r.records r'.records := by
  obtain ⟨choice, hrecords, haliases⟩ := hout.records_run hsource.toList_eq_nil
  obtain ⟨records', hrecords', hassigned⟩ :=
    LeafMap.records_assign (m := w.spliceMap source p []) rfl hrecords hss.records
  have hmap : w'.spliceMap source' p [] = w.spliceMap source p [] := by
    unfold spliceMap Placement.host
    split <;> simp only [hww.clbits, hss.clbits]
  have hhost : (p.host w' source').content.clbits = (p.host w source).content.clbits := by
    unfold Placement.host
    split
    · exact hss.clbits
    · exact hww.clbits
  rw [← hmap, ← hhost, ← hww.identifiers] at hrecords'
  refine ⟨⟨p, ⟨w'.content.identifiers, [], [], []⟩, choice.aliases, records'⟩, ?_, haliases,
    hassigned⟩
  exact splice_of_worked (by rw [hsource'.toList_eq_nil]; rfl)
    (by rw [IdentifierPlan.make, hsource'.toList_eq_nil]; rfl) hrecords'

include hw hw' hsource'

/-- An assigned definition finds its place in the second circuit: as many bits are there as in the
first, and no name that is not there. -/
theorem place {qubits clbits : List Nat}
    (hplaced : w.Placed source (.onto qubits clbits) ⟨qubits, clbits, false⟩) :
    w'.place source' (.onto qubits clbits) = .ok ⟨qubits, clbits, false⟩ := by
  have hwidths : w'.numQubits = w.numQubits ∧ w'.numClbits = w.numClbits :=
    ⟨congrArg BitList.size hww.qubits, congrArg BitList.size hww.clbits⟩
  have hwidths' : source'.numQubits = source.numQubits ∧ source'.numClbits = source.numClbits :=
    ⟨congrArg BitList.size hss.qubits, congrArg BitList.size hss.clbits⟩
  have hcheck : w'.content.table.check source.parameters = .ok () :=
    hw.named.check_of_contains hw'.reachable.built.honest hww.parameters hplaced.parameters
  refine place_at hw'.closed ?_ ?_
    (ParameterTable.check_of_subset hcheck (hss.parameters_subset hsource hsource'))
  · rw [hwidths.1, hwidths'.1]
    exact hplaced.qubits
  · rw [hwidths.2, hwidths'.2]
    exact hplaced.clbits

/-- A definition is put in, in the one run and in the other. -/
theorem compose {qubits clbits : List Nat}
    (h : compose source (.onto qubits clbits) w = .ok () d) :
    ∃ d', Circuit.compose source' (.onto qubits clbits) w' = .ok () d' ∧ d.Ready .any ∧
      d'.Ready .any ∧ d.AssignsTo s d' := by
  obtain ⟨p, r, u, hout, hd⟩ := outcome_of_compose hw hsource rfl h
  obtain ⟨r', hsplice', haliases, hassigned⟩ := hww.splice hsource hss hsource' hout
  obtain ⟨hqubits, hclbits⟩ := place_targets hout.place
  obtain ⟨qubitTargets, clbitTargets, brings⟩ := p
  obtain rfl : qubitTargets = qubits := hqubits
  obtain rfl : clbitTargets = clbits := hclbits
  obtain rfl : brings = false := hout.placed.brings
  have hplace' := hww.place hw hw' hsource hsource' hss hout.placed
  obtain ⟨d', hd'⟩ := compose_answers hw' hsource'.reachable Bool.false_ne_true hplace'
    hsplice' rfl
  obtain ⟨p', q', u', hout', hready'⟩ := outcome_of_compose hw' hsource' rfl hd'
  obtain rfl := Except.ok.inj (hplace'.symm.trans hout'.place)
  obtain rfl := Except.ok.inj (hsplice'.symm.trans hout'.splice)
  refine ⟨d', hd', hd, hready', ?_, ?_, ?_, ?_, fun q hq => ?_⟩
  · rw [hout'.frame.1, hout'.made.qubits, hww.qubits, hout.frame.1, hout.made.qubits]
  · have hentered := hout.entered
    rw [← haliases, ← hww.clbits] at hentered
    exact (EStateM.Result.ok.inj (hout'.entered.symm.trans hentered)).2
  · rw [hout'.identifiers_eq hsource'.toList_eq_nil, hww.identifiers,
      hout.identifiers_eq hsource.toList_eq_nil]
  · rw [hout'.records, hout.records]
    exact List.rel_append hww.records hassigned
  · -- nothing new is in use on either side
    refine hout.contains_of_inEither hw.named.toIndexed hsource.indexed hd.named.toIndexed rfl
      rfl ?_
    rcases hout'.inEither_of_contains hw'.named.toIndexed hsource'.indexed hready'.named.toIndexed
      hq with hq | hq
    · exact .inl (hww.parameters q hq)
    · exact .inr (hss.parameters_subset hsource hsource' hq)

end Composing

end AssignsTo

/-- A record without a definition is taken apart by being checked and added. -/
theorem addExpanded_eq_ok_iff_of_plain {i : Instruction}
    (hplain : ∀ op, i.operation = .custom op → op.definition = none) :
    addExpanded i c = .ok () d ↔
      c.content.check i = .ok () ∧ d = { c with content := c.content.snoc i } := by
  rw [addExpanded_of_plain hplain]
  exact Edit.within_eq_ok_iff_of fun _ => Content.push_eq_ok_iff

end Circuit

namespace Instruction

variable {s : Binding Float} {i i' : Instruction}

theorem Fits.assign_record {c : Content} (h : i.Fits c) (hi : i.assign s = .ok i') :
    i'.Fits c := by
  obtain ⟨op, -, hop, rfl⟩ | ⟨-, rfl⟩ := assign_cases hi
  · exact h.assign hop
  · exact h

/-- An assignment makes no definition. -/
theorem plain_assign (hplain : ∀ op, i.operation = .custom op → op.definition = none)
    (hi : i.assign s = .ok i') : ∀ op, i'.operation = .custom op → op.definition = none := by
  obtain ⟨op, -, hop, rfl⟩ | ⟨-, rfl⟩ := assign_cases hi
  · obtain ⟨circuits, -, rfl⟩ := Operation.assign_eq_ok_iff.1 hop
    intro op' hop'
    cases hoperation : i.operation with
    | custom o =>
      rw [hoperation] at hop'
      cases hop'
      show o.definition.map _ = none
      rw [hplain o hoperation]
      rfl
    | gate g | control flow | measure | reset | barrier w | delay d | store a =>
      rw [hoperation] at hop'
      cases hop'
  · exact hplain

end Instruction

namespace Circuit

variable {d w w' : Circuit} {s : Binding Float} {i i' : Instruction}

/-- A record without a definition is added in the one run and in the other. -/
theorem AssignsTo.push (hw : w.Ready .any) (hw' : w'.Ready .any) (hww : w.AssignsTo s w')
    (hi : i.assign s = .ok i') (hbuilt : i.OfBuilt .any) (hbuilt' : i'.OfBuilt .any)
    (hfree : i'.operation.freeParameters ⊆ i.operation.freeParameters)
    (hplain : ∀ op, i.operation = .custom op → op.definition = none)
    (h : addExpanded i w = .ok () d) :
    ∃ d', addExpanded i' w' = .ok () d' ∧ d.Ready .any ∧ d'.Ready .any ∧ d.AssignsTo s d' := by
  have hplain' := Instruction.plain_assign hplain hi
  have hreach : d.Reachable .any := Reachable.addExpanded hbuilt w d hw.reachable (.of_ok h)
  obtain ⟨hcheck, rfl⟩ := (addExpanded_eq_ok_iff_of_plain hplain).1 h
  have hclbits := hw.reachable.built.orderly.clbits
  have hclbits' := hw'.reachable.built.orderly.clbits
  obtain ⟨hfits, hnames⟩ := (Content.check_eq_ok_iff hclbits).1 hcheck
  have hcheck' : w'.content.check i' = .ok () := by
    refine (Content.check_eq_ok_iff hclbits').2 ⟨?_, ?_⟩
    · refine (hfits.assign_record hi).within ⟨?_, ?_, fun _ hj => ?_⟩
      · exact hww.qubits ▸ .refl _
      · exact hww.clbits ▸ .refl _
      · rw [hww.identifiers]
        exact hj
    · refine ParameterTable.check_of_subset ?_ (List.map_subset _ hfree)
      exact hw.named.check_of_contains hw'.reachable.built.honest hww.parameters hnames
  have hrun' := (addExpanded_eq_ok_iff_of_plain hplain').2 ⟨hcheck', rfl⟩
  have hreach' := Reachable.addExpanded hbuilt' w' _ hw'.reachable (.of_ok hrun')
  refine ⟨_, hrun', ⟨hreach, hw.closed, hw.named.snoc hcheck⟩,
    ⟨hreach', hw'.closed, hw'.named.snoc hcheck'⟩, hww.qubits, hww.clbits, hww.identifiers, ?_,
    fun q hq => ?_⟩
  · exact List.rel_append hww.records (.cons hi .nil)
  · rcases hw'.named.toIndexed.contains_snoc_iff.1 hq with hq | ⟨v, hv, rfl⟩
    · exact hw.named.toIndexed.contains_snoc_iff.2 (.inl (hww.parameters q hq))
    · exact hw.named.toIndexed.contains_snoc_iff.2 (.inr ⟨v, hfree hv, rfl⟩)

end Circuit

/-! ## Two runs -/

/-- What the two runs rely on of a record and the assigned record: neither holds circuits that are
not built, the second lists no other parameters, and a definition is that of an operation made of
a circuit. -/
structure Instruction.AssignsTo (s : Binding Float) (i i' : Instruction) : Prop where
  assigned : i.assign s = .ok i'
  built : i.OfBuilt .any
  built_assigned : i'.OfBuilt .any
  free : i'.operation.freeParameters ⊆ i.operation.freeParameters
  made : ∀ op, i.operation = .custom op → op.definition ≠ none → op.Made

/-- An assignment of numbers to a record takes parameters away and brings none in. -/
theorem Content.Everywhere.freeParameters_assign_subset {s : Binding Float} {c d : Content}
    (h : Everywhere Indexed c) (hs : s.Numeric) (hd : c.assign s = .ok d) {i i' : Instruction}
    (hi : i ∈ c.records) (hi' : i' ∈ d.records) (hassign : i.assign s = .ok i') :
    i'.operation.freeParameters ⊆ i.operation.freeParameters := by
  rintro ⟨slot, p⟩ hp
  obtain ⟨op, -, hop, rfl⟩ | ⟨-, rfl⟩ := Instruction.assign_cases hassign
  · have hfree := ((h.indexed_assign hd).mem_freeParameters_iff hi').1 hp
    exact (h.mem_freeParameters_iff hi).2 ((h.freeAt_assign_iff_of_numeric hs hi hop).1 hfree).1
  · exact hp

namespace Circuit

variable {c d w w' : Circuit} {s : Binding Float} {i i' : Instruction}

/-- An operation with a definition is taken apart by putting the definition in. -/
theorem addExpanded_of_definition {op : CustomOp} {source : Circuit}
    (hop : i.operation = .custom op) (hdefinition : op.definition = some source) :
    addExpanded i = compose source (.onto i.qubits i.clbits) := by
  obtain ⟨operation, qubits, clbits, label⟩ := i
  obtain ⟨name, numQubits, numClbits, params, definition, unitary⟩ := op
  obtain rfl : operation = _ := hop
  obtain rfl : definition = some source := hdefinition
  rfl

namespace AssignsTo

/-- One record, in the one run and in the other. -/
theorem step (hs : s.Numeric) (hw : w.Ready .any) (hw' : w'.Ready .any) (hww : w.AssignsTo s w')
    (hi : i.AssignsTo s i') (h : addExpanded i w = .ok () d) :
    ∃ d', addExpanded i' w' = .ok () d' ∧ d.Ready .any ∧ d'.Ready .any ∧ d.AssignsTo s d' := by
  by_cases hplain : ∀ op, i.operation = .custom op → op.definition = none
  · exact hww.push hw hw' hi.assigned hi.built hi.built_assigned hi.free hplain h
  · push Not at hplain
    obtain ⟨op, hop, hdefined⟩ := hplain
    obtain ⟨source, hsource⟩ := (hi.made op hop hdefined).standsFor
    obtain ⟨op', source', heq, hsource', hss⟩ := hsource.assign_record hs hop hi.assigned
    subst heq
    rw [addExpanded_of_definition hop hsource.definition] at h
    rw [addExpanded_of_definition rfl hsource'.definition]
    exact hww.compose hw hw' hsource.wrappable hsource'.wrappable hss h

/-- All records, in the one run and in the other. -/
theorem run (hs : s.Numeric) {is is' : List Instruction} (hw : w.Ready .any)
    (hw' : w'.Ready .any) (hww : w.AssignsTo s w')
    (hall : List.Forall₂ (Instruction.AssignsTo s) is is')
    (h : Edit.each addExpanded is w = .ok () d) :
    ∃ d', Edit.each addExpanded is' w' = .ok () d' ∧ d.Ready .any ∧ d.AssignsTo s d' := by
  induction hall generalizing w w' with
  | nil =>
    cases h
    exact ⟨w', rfl, hw, hww⟩
  | cons hi _ ih =>
    obtain ⟨_, v, hv, h⟩ := Edit.bind_eq_ok_iff.1 h
    obtain ⟨v', hv', hready, hready', hvv⟩ := hww.step hs hw hw' hi hv
    obtain ⟨d', hd', hd, hdd⟩ := ih hready hready' hvv h
    exact ⟨d', Edit.bind_eq_ok_iff.2 ⟨(), v', hv', hd'⟩, hd, hdd⟩

/-- The two runs start from copies without records. -/
theorem copyEmpty (hc : c.Ready .any) (hd : d.Reachable .any) (hcd : c.AssignsTo s d)
    (hphase : ∀ p ∈ d.content.phase.symbols, p ∈ c.content.phase.symbols) :
    (d.copyEmpty none .alike).Ready .any ∧
      (c.copyEmpty none .alike).AssignsTo s (d.copyEmpty none .alike) := by
  have hover : (d.content.copyEmpty .alike).table.Over fun q => c.content.table.contains q :=
    (ParameterTable.Over.empty _).trackPhase hc.named.resolves.apart fun q hq =>
      hcd.parameters q (hd.built.indexed.contains_of_phase hq)
  refine ⟨⟨hd.copyEmpty none .alike, rfl, ⟨.copyEmpty d.content .alike, hover.resolves⟩⟩,
    hcd.qubits, hcd.clbits, hcd.identifiers, .nil, fun p hp => ?_⟩
  rcases (Content.Indexed.copyEmpty d.content .alike).contains_iff_listed.1 hp with
    hp | ⟨i, hi, -⟩
  · refine (Content.Indexed.copyEmpty c.content .alike).contains_iff_listed.2 (.inl ?_)
    exact ParamExpr.mem_parameters_iff.2 (hphase p (ParamExpr.mem_parameters_iff.1 hp))
  · exact absurd hi List.not_mem_nil

end AssignsTo

/-! ## Either order -/

theorem decompose_eq_ok_iff (hclosed : c.blocks = []) : c.decompose = .ok d ↔
    Edit.each addExpanded c.content.records (c.copyEmpty none .alike) = .ok () d := by
  have hscope : ¬ c.inScope = true := by simp [inScope, hclosed]
  rw [Circuit.decompose, if_neg hscope, Edit.finalState_eq_ok_iff]

/-- That operations of records that have a definition were made of circuits. What there is in the
definitions is left open. -/
def OfMade (c : Circuit) : Prop :=
  ∀ i ∈ c.content.records, ∀ op, i.operation = .custom op → op.definition ≠ none → op.Made

/-- Where names resolve and the operations with a definition were made of circuits, and perhaps
assigned to since then: if a reached circuit can be taken apart, then numbers can be assigned
before that or afterwards, and the records are the same. -/
theorem Reachable.decompose_assign (hc : c.Reachable .any) (hclosed : c.blocks = [])
    (hnames : c.content.FoundByName) (hmade : c.OfMade) (hs : s.Numeric)
    (h : c.decompose = .ok d) :
    ∃ b e u, Content.assignParameters s false c.content = .ok () b ∧
      Circuit.decompose { c with content := b } = .ok e ∧
      Content.assignParameters s false d.content = .ok () u ∧
      e.content.records = u.records := by
  have hready : c.Ready .any := ⟨hc, hclosed, hc.built.named hnames⟩
  have hindexed := hc.built.everywhere_any Content.indexed_invariant
  obtain ⟨b, hb⟩ := hindexed.assign_answers hs
  have hassigned : Circuit.Reachable .any { c with content := b } := hc.assign hclosed hb
  have hcb : c.AssignsTo s { c with content := b } := .of_assign hindexed hs hb
  -- the records, one by one
  have hall : List.Forall₂ (Instruction.AssignsTo s) c.content.records b.records := by
    refine Checking.imp_of_mem hcb.records fun i hi i' hi' hassign => ?_
    exact ⟨hassign, hc.built.ofBuilt hi, hassigned.built.ofBuilt hi',
      hindexed.freeParameters_assign_subset hs hb hi hi' hassign, hmade i hi⟩
  have hphase : ∀ p ∈ b.phase.symbols, p ∈ c.content.phase.symbols := by
    intro p hp
    rw [(hindexed.here.of_assign hb).2.1] at hp
    exact ((ParamExpr.mem_symbols_phaseAfter_iff hs).1 hp).1
  obtain ⟨hstart', hstarts⟩ := AssignsTo.copyEmpty hready hassigned hcb hphase
  have hstart : (c.copyEmpty none .alike).Ready .any :=
    ⟨hc.copyEmpty none .alike, rfl, hready.named.copyEmpty .alike⟩
  obtain ⟨e, he, hd, hde⟩ := hstarts.run hs hstart hstart' hall ((decompose_eq_ok_iff hclosed).1 h)
  have hindexed' := hd.reachable.built.everywhere_any Content.indexed_invariant
  obtain ⟨u, hu⟩ := hindexed'.assign_answers hs
  have hlater := (decompose_eq_ok_iff (c := { c with content := b }) hclosed).2 he
  refine ⟨b, e, u, Content.assignParameters_eq_ok_iff.2 hb, hlater,
    Content.assignParameters_eq_ok_iff.2 hu, ?_⟩
  -- both lists are what the records that were taken apart become, one by one
  have hmapped := Checking.mapM_eq_ok_iff.2 hde.records
  have hmapped' := Checking.mapM_eq_ok_iff.2 (hindexed'.here.of_assign hu).1
  exact Except.ok.inj (hmapped.symm.trans hmapped')

theorem toGate_rotationByYZ : rotationByYZ.toGate = .ok sumOfYZ := by
  have hparameters : rotationByYZ.parameters = [freeY, otherZ] := by decide +kernel
  have hinstruction : rotationByYZ.toInstruction = .ok { sumOfYZ with unitary := false } := by
    refine toInstruction_eq_ok_iff.2 ⟨rfl, by decide +kernel, ?_⟩
    rw [hparameters]
    rfl
  exact toGate_eq_ok_iff.2 ⟨by decide +kernel, by decide +kernel, _, hinstruction, rfl⟩

theorem definesAndLoops_ofMade : definesAndLoops.OfMade := by
  intro i hi op hop _
  rw [records_definesAndLoops] at hi
  simp only [List.mem_cons, List.not_mem_nil, or_false] at hi
  rcases hi with rfl | rfl | rfl
  · cases hop
    exact .gate (.ofStore "g" rotationByYZ_built) toGate_rotationByYZ
  · cases hop
  · cases hop

theorem definesAndLoops_foundByName : definesAndLoops.content.FoundByName := by
  refine (Content.named_invariant.empty.after fun k hk => ?_).foundByName
  simp only [List.mem_cons, List.map_cons, List.map_nil, List.not_mem_nil, or_false] at hk
  rcases hk with rfl | rfl | rfl | rfl <;> exact fun s strict heq => by cases heq

/-- A number for `y` goes into the custom operation and then with its definition into the circuit,
or into the rotation that the definition has left there. -/
theorem decompose_assign_definesAndLoops : definesAndLoops.Reachable .any ∧
    definesAndLoops.blocks = [] ∧ definesAndLoops.content.FoundByName ∧ definesAndLoops.OfMade ∧
    Binding.Numeric [(freeY, (.const 1 : Angle))] ∧
    ∃ d b e u, definesAndLoops.decompose = .ok d ∧
      Content.assignParameters [(freeY, .const 1)] false definesAndLoops.content = .ok () b ∧
      Circuit.decompose { definesAndLoops with content := b } = .ok e ∧
      Content.assignParameters [(freeY, .const 1)] false d.content = .ok () u ∧
      e.content.records = u.records := by
  have hs : Binding.Numeric [(freeY, (.const 1 : Angle))] := by
    intro v hv
    rw [List.mem_singleton.1 hv]
    rfl
  obtain ⟨d, hd⟩ : ∃ d, Edit.each addExpanded definesAndLoops.content.records
      (definesAndLoops.copyEmpty none .alike) = .ok () d := Edit.answers_of_isOk (by decide +kernel)
  replace hd := (decompose_eq_ok_iff (c := definesAndLoops) rfl).2 hd
  obtain ⟨b, e, u, hb, he, hu, hsame⟩ := definesAndLoops_reachable.decompose_assign rfl
    definesAndLoops_foundByName definesAndLoops_ofMade hs hd
  exact ⟨definesAndLoops_reachable, rfl, definesAndLoops_foundByName, definesAndLoops_ofMade, hs,
    d, b, e, u, hd, hb, he, hu, hsame⟩

end Circuit

end QuantumCircuit
