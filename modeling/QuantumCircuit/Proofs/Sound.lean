import QuantumCircuit.Circuit.Compose
import QuantumCircuit.Proofs.Bodies
import QuantumCircuit.Proofs.Primitives

/-!
# Circuits with built stores

A circuit is sound when its store is built and its open blocks hold records with
built circuits only. The calls that add to the active scope, the ends of builders
and compositions all keep circuits sound, for they act on the store by its own
calls.

A composition is made of a few parts, and what these keep of a store it keeps
(`Content.addSplice_keeps`). A circuit that is composed as one operation is what
that operation is defined by (`Circuit.toOperation_eq_ok`).
-/

namespace QuantumCircuit

variable {A : Policy}

/-! ## Sound circuits -/

/-- The store is built, and so are the circuits in the records of open blocks. -/
structure Circuit.Sound (A : Policy) (c : Circuit) : Prop where
  built : c.content.Built A
  blocks : ∀ b ∈ c.blocks, b.OfBuilt A

theorem Block.ofBuilt_iff {b : Block} :
    b.OfBuilt A ↔ ∀ i ∈ BlockItem.instructionsList b.items, i.OfBuilt A := by
  cases b
  rfl

theorem BlockItem.instructionsList_append (xs ys : List BlockItem) :
    BlockItem.instructionsList (xs ++ ys) =
      BlockItem.instructionsList xs ++ BlockItem.instructionsList ys := by
  induction xs with
  | nil => rfl
  | cons x rest ih =>
    cases x with
    | record i => simp [BlockItem.instructionsList, ih]
    | jump j => simpa [BlockItem.instructionsList] using ih
    | branch c t f => cases f <;> simp [BlockItem.instructionsList, ih]
    | dispatch t arms => simp [BlockItem.instructionsList, ih]

/-! ## The parts of a composition -/

namespace Content

variable {P : Content → Prop}

theorem addClbitsOf_keeps (hbit : ∀ bit : Clbit, (addBit bit).Keeps P)
    (hregister : ∀ r : ClassicalRegister, (addRegister r).Keeps P) (source : Content) :
    (addClbitsOf source).Keeps P :=
  (Edit.Keeps.each fun bit _ => (hbit bit).bind fun _ => .pure ()).bind fun _ =>
    .each fun r _ => hregister r

theorem addRecords_keeps {records : List Instruction} (hfront : (insertFront records).Keeps P)
    (hpush : ∀ i ∈ records, (push i).Keeps P) (front : Bool) :
    (addRecords front records).Keeps P := by
  unfold addRecords
  split
  · exact hfront
  · exact .each hpush

/-- A property is kept by all that a splice adds if it is kept by each of its kinds. -/
theorem addSplice_keeps {source : Content} {front : Bool} {s : Splice}
    (hbit : ∀ bit : Clbit, (addBit bit).Keeps P)
    (hregister : ∀ r : ClassicalRegister, (addRegister r).Keeps P)
    (hidentifier : ∀ u ∈ s.identifiers.additions, (addIdentifier u.1 u.2).Keeps P)
    (hrecords : (addRecords front s.records).Keeps P)
    (hphase : ∀ phase, (setPhase phase).Keeps P) : (addSplice source front s).Keeps P := by
  refine ((addClbitsOf_keeps hbit hregister source).onlyIf _).bind fun _ => ?_
  refine (Edit.Keeps.each fun r _ => hregister r).bind fun _ => ?_
  refine (Edit.Keeps.each hidentifier).bind fun _ => ?_
  exact hrecords.bind fun _ => .onlyIf (.read fun _ => hphase _) _

end Content

namespace Circuit

section KeepingBlocks

variable {edit : Edit Circuit Unit} {c d : Circuit} {cause : CircuitError}

theorem keepingBlocks_eq_ok_iff : keepingBlocks edit c = .ok () d ↔ edit c = .ok () d := by
  unfold keepingBlocks
  cases edit c <;> simp

theorem keepingBlocks_eq_error_iff : keepingBlocks edit c = .error cause d ↔
    ∃ u, edit c = .error cause u ∧ { u with blocks := c.blocks } = d := by
  unfold keepingBlocks
  cases edit c <;> simp

end KeepingBlocks

/-! ## Calls at the top level only -/

section TopLevel

variable {c d : Circuit}

theorem addOuter_of_open {i : Identifier} {kind : IdentifierKind} (hopen : c.blocks ≠ [])
    (h : (addOuter i kind).Leaves c d) : d = c := by
  have hscope : c.inScope = true := by simpa [inScope] using hopen
  rcases Edit.leaves_ofExcept_bind_iff.1 (Edit.leaves_get_bind_iff.1 h) with ⟨_, hfree, -⟩ | ⟨-, hd⟩
  · exact absurd (hscope.symm.trans (refuseIf_eq_ok_iff.1 hfree)) Bool.noConfusion
  · exact hd

theorem measureAll_of_open {stamp : Nat} (hopen : c.blocks ≠ [])
    (h : (measureAll stamp).Leaves c d) : d = c := by
  have hscope : c.inScope = true := by simpa [inScope] using hopen
  rcases Edit.leaves_update_iff.1 h with h | ⟨-, hd⟩
  · have hfree := refuseIf_eq_ok_iff.1 (Checking.seq_eq_ok_iff.1 h).1
    exact absurd (hscope.symm.trans hfree) Bool.noConfusion
  · exact hd

end TopLevel

namespace Sound

variable {c d : Circuit}

/-- Footprints, locals and names play no part. -/
theorem congr (h : c.Sound A) (hcontent : d.content = c.content)
    (hblocks : d.blocks.map (·.items) = c.blocks.map (·.items)) : d.Sound A := by
  refine ⟨hcontent ▸ h.built, fun b hb => ?_⟩
  have hitems : b.items ∈ c.blocks.map (·.items) := hblocks ▸ List.mem_map_of_mem hb
  obtain ⟨b', hb', heq⟩ := List.mem_map.1 hitems
  rw [Block.ofBuilt_iff, ← heq, ← Block.ofBuilt_iff]
  exact h.blocks b' hb'

theorem withContent (h : c.Sound A) {content : Content} (hbuilt : content.Built A) :
    Circuit.Sound A { c with content } :=
  ⟨hbuilt, h.blocks⟩

/-- An edit of the store that keeps it built. -/
theorem within {α : Type} {e : Edit Content α} (h : e.Keeps (Content.Built A)) :
    (Edit.within contentFocus e).Keeps (Sound A) :=
  .within fun _ u hs hu => hs.withContent (h _ u hs.built hu)

theorem snoc {name : String} {content : Content} {top : Block} {outer : List Block}
    (h : Circuit.Sound A ⟨name, content, top :: outer⟩) {item : BlockItem}
    (hitem : ∀ i ∈ BlockItem.instructionsList [item], i.OfBuilt A) :
    Circuit.Sound A ⟨name, content, top.snoc item :: outer⟩ := by
  refine ⟨h.built, fun b hb => ?_⟩
  rcases List.mem_cons.1 hb with rfl | hb
  · rw [Block.ofBuilt_iff]
    show ∀ i ∈ BlockItem.instructionsList (top.items ++ [item]), _
    rw [BlockItem.instructionsList_append, List.forall_mem_append]
    exact ⟨Block.ofBuilt_iff.1 (h.blocks top List.mem_cons_self), hitem⟩
  · exact h.blocks b (List.mem_cons_of_mem _ hb)

theorem onTop_touch (f : Footprint) (h : c.Sound A) : (c.onTop (·.touch f)).Sound A := by
  obtain ⟨name, content, blocks⟩ := c
  cases blocks with
  | nil => exact h
  | cons top outer => exact h.congr rfl rfl

theorem onTop_snoc (h : c.Sound A) {item : BlockItem}
    (hitem : ∀ i ∈ BlockItem.instructionsList [item], i.OfBuilt A) :
    (c.onTop (·.snoc item)).Sound A := by
  obtain ⟨name, content, blocks⟩ := c
  cases blocks with
  | nil => exact h
  | cons top outer => exact h.snoc hitem

/-! ## Calls on the active scope -/

theorem useIdentifier (i : Identifier) : (Circuit.useIdentifier i).Keeps (Sound A) := by
  intro c d hc hd
  rcases useIdentifier_leaves hd with rfl | rfl
  · exact hc
  · exact hc.congr rfl (map_captureThrough (fun _ => rfl) c.blocks)

theorem useClassical (u : ClassicalUse) : (Circuit.useClassical u).Keeps (Sound A) := by
  intro c d hc hd
  rcases useClassical_leaves hd with rfl | ⟨positions, rfl⟩
  · exact hc
  · exact hc.onTop_touch _

theorem useInScope (u : ClassicalUse) (identifiers : List Identifier) :
    (Circuit.useInScope u identifiers).Keeps (Sound A) :=
  (useClassical u).bind fun _ => .each fun i _ => useIdentifier i

theorem declare (i : Identifier) : (Circuit.declare i).Keeps (Sound A) := by
  intro c d hc hd
  obtain ⟨name, content, blocks⟩ := c
  cases blocks with
  | nil => exact Sound.within (Content.Built.addIdentifier i .declare) _ d hc hd
  | cons top outer =>
    rcases declare_leaves_of_open rfl hd with rfl | rfl
    · exact hc
    · exact hc.congr rfl rfl

theorem append {i : Instruction} (hi : i.OfBuilt A) : (Circuit.append i).Keeps (Sound A) := by
  intro c d hc hd
  obtain ⟨name, content, blocks⟩ := c
  cases blocks with
  | nil => exact Sound.within (Content.Built.push hi) _ d hc hd
  | cons top outer =>
    refine Edit.Keeps.bind ?_ (fun _ => ?_) _ d hc hd
    · exact .ofExcept _
    · refine (Edit.Keeps.each fun j _ => useIdentifier j).bind fun _ => ?_
      refine (useClassical _).bind fun _ => .modify fun s hs => ?_
      refine Sound.congr (c := s.onTop fun top => top.snoc (.record i)) ?_ ?_ ?_
      · exact hs.onTop_snoc (by simpa [BlockItem.instructionsList] using hi)
      · obtain ⟨name, content, blocks⟩ := s
        cases blocks <;> rfl
      · obtain ⟨name, content, blocks⟩ := s
        cases blocks <;> rfl

theorem jump (j : Jump) : (Circuit.jump j).Keeps (Sound A) := by
  intro c d hc hd
  obtain ⟨name, content, blocks⟩ := c
  cases blocks with
  | nil =>
    refine Sound.within (Content.Built.push ?_) _ d hc hd
    simp [Instruction.OfBuilt, Instruction.make, Operation.circuits, ControlFlow.bodies]
  | cons top outer =>
    rcases jump_leaves_of_open (List.cons_ne_nil _ _) hd with rfl | rfl
    · exact hc
    · exact hc.onTop_snoc (by simp [BlockItem.instructionsList])

/-- An operation without bodies or definition is no trouble. -/
theorem ofBuilt_of_circuits_eq_nil {i : Instruction} (h : i.operation.circuits = []) :
    i.OfBuilt A := fun _ he => absurd (h ▸ he) List.not_mem_nil

theorem addOuter (i : Identifier) (kind : IdentifierKind) :
    (Circuit.addOuter i kind).Keeps (Sound A) :=
  .read fun _ => (Edit.Keeps.ofExcept _).bind fun _ => within (Content.Built.addIdentifier i kind)

theorem addLoose (k : BitKind) (count stamp : Nat) :
    (Circuit.addLoose k count stamp).Keeps (Sound A) :=
  .mapM fun _ _ => within (Content.Built.addBit _)

/-- Measuring all touches the store only, by a register and by records without circuits. -/
theorem content_of_measureAll {P : Content → Prop} {c d : Circuit} {stamp : Nat}
    (hregister : ∀ r : ClassicalRegister, (Content.addRegister r).Keeps P)
    (hpush : ∀ i : Instruction, i.operation.circuits = [] → (Content.push i).Keeps P)
    (hc : P c.content) (hd : (Circuit.measureAll stamp).Leaves c d) :
    ∃ content, P content ∧ d = { c with content := content } := by
  rcases Edit.leaves_update_iff.1 hd with hd | ⟨-, rfl⟩
  · obtain ⟨-, hd⟩ := Checking.seq_eq_ok_iff.1 hd
    split at hd
    · cases hd
      exact ⟨_, hc, by cases c; rfl⟩
    · obtain ⟨content, hcontent, hd⟩ := Checking.bind_eq_ok_iff.1 hd
      cases hd
      refine ⟨content, Edit.Keeps.finalState ?_ hc hcontent, rfl⟩
      refine (hregister _).bind fun _ => (hpush _ rfl).bind fun _ => .each fun pair _ => ?_
      exact .read fun _ => (Edit.Keeps.ofExcept _).bind fun _ => hpush _ rfl
  · exact ⟨_, hc, by cases d; rfl⟩

theorem measureAll (stamp : Nat) : (Circuit.measureAll stamp).Keeps (Sound A) := by
  intro c d hc hd
  obtain ⟨content, hcontent, rfl⟩ := content_of_measureAll Content.Built.addRegister
    (fun i hi => Content.Built.push (ofBuilt_of_circuits_eq_nil hi)) hc.built hd
  exact hc.withContent hcontent

/-! ## Composing -/

theorem addSplice (source : Content) (front : Bool) {s : Splice}
    (hs : ∀ i ∈ s.records, i.OfBuilt A) :
    (Content.addSplice source front s).Keeps (Content.Built A) :=
  Content.addSplice_keeps (fun _ => Content.Built.addBit _) (fun _ => Content.Built.addRegister _)
    (fun _ _ => Content.Built.addIdentifier _ _)
    (Content.addRecords_keeps (Content.Built.insertFront hs)
      (fun i hi => Content.Built.push (hs i hi)) front)
    fun _ => Content.Built.setPhase _

theorem keepingBlocks {e : Edit Circuit Unit} (h : e.Keeps (Sound A)) :
    (Circuit.keepingBlocks e).Keeps (Sound A) := by
  rintro c d hc (⟨_, hd⟩ | ⟨cause, hd⟩)
  · exact h c d hc (.of_ok (keepingBlocks_eq_ok_iff.1 hd))
  · obtain ⟨u, hu, rfl⟩ := keepingBlocks_eq_error_iff.1 hd
    exact ⟨(h c u hc (.of_error hu)).built, hc.blocks⟩

theorem addSpliceInScope {s : Splice} (hs : ∀ i ∈ s.records, i.OfBuilt A) :
    (Circuit.addSpliceInScope s).Keeps (Sound A) := by
  refine (Edit.Keeps.ofExcept _).bind fun _ => keepingBlocks ?_
  refine (Edit.Keeps.each fun i _ => useIdentifier i).bind fun _ => ?_
  exact (Edit.Keeps.each fun i _ => declare i).bind fun _ => .each fun i hi => append (hs i hi)

end Sound

/-! ## A circuit as one operation -/

section Wrapped

variable {source : Circuit} {op : CustomOp}

theorem toInstruction_eq_ok_iff : source.toInstruction = .ok op ↔
    source.blocks = [] ∧ source.content.identifiers.isEmpty = true ∧
      ⟨source.name, source.numQubits, source.numClbits, source.parameters.map .sym, some source,
        false⟩ = op := by
  unfold toInstruction inScope
  by_cases hclosed : source.blocks = []
  · by_cases hidentifiers : source.content.identifiers.isEmpty = true
    · simp [hclosed, hidentifiers, CustomOp.instruction]
    · simp [hclosed, hidentifiers]
  · simp [hclosed]

/-- A gate is the instruction with the mark of a gate. -/
theorem toGate_eq_ok_iff : source.toGate = .ok op ↔ source.numClbits = 0 ∧
    (∀ i ∈ source.content.records, i.operation.isGate = true) ∧
      ∃ instruction, source.toInstruction = .ok instruction ∧
        { instruction with unitary := true } = op := by
  unfold toGate
  by_cases hclbits : source.numClbits = 0
  · cases hother : source.content.records.find? (!·.operation.isGate) with
    | some i =>
      have hmixed : ¬ ∀ i ∈ source.content.records, i.operation.isGate = true := fun hgates => by
        have hi := List.find?_some hother
        simp [hgates i (List.mem_of_find?_eq_some hother)] at hi
      simp [hclbits, hmixed]
    | none =>
      have hgates : ∀ i ∈ source.content.records, i.operation.isGate = true := by
        simpa using hother
      rw [if_neg (Nat.not_lt.2 (Nat.le_of_eq hclbits)), and_iff_right hclbits, and_iff_right hgates]
      exact Checking.bind_eq_ok_iff.trans
        (exists_congr fun _ => and_congr_right fun _ => ⟨Except.ok.inj, congrArg _⟩)
  · simp [hclbits, Nat.pos_of_ne_zero hclbits]

/-- In either form, the operation is the circuit over its parameters, which it defines. -/
theorem toOperation_eq_ok (h : source.toOperation = .ok op) :
    ∃ unitary, ⟨source.name, source.numQubits, source.numClbits, source.parameters.map .sym,
      some source, unitary⟩ = op := by
  unfold toOperation at h
  split at h
  · rename_i gate hgate
    cases h
    obtain ⟨-, -, instruction, hinstruction, rfl⟩ := toGate_eq_ok_iff.1 hgate
    obtain ⟨-, -, rfl⟩ := toInstruction_eq_ok_iff.1 hinstruction
    exact ⟨true, rfl⟩
  · exact ⟨false, (toInstruction_eq_ok_iff.1 h).2.2⟩

end Wrapped

namespace Sound

theorem composeWrapped {source : Circuit} (hsource : source.content.Built A) (front : Bool)
    (p : Placement) : (Circuit.composeWrapped source front p).Keeps (Sound A) := by
  refine .ofExcept_bind fun op hop => ?_
  have hi : (Instruction.make (.custom op) p.qubits p.clbits).OfBuilt A := by
    obtain ⟨_, rfl⟩ := toOperation_eq_ok hop
    simpa [Instruction.OfBuilt, Instruction.make, Operation.circuits] using hsource
  have hclbits : (Content.addClbitsOf source.content).Keeps (Content.Built A) :=
    Content.addClbitsOf_keeps (fun _ => Content.Built.addBit _)
      (fun _ => Content.Built.addRegister _) _
  refine ((within hclbits).onlyIf _).bind fun _ => ?_
  split
  · exact within (Content.Built.insertFront fun i hmem => by rwa [List.mem_singleton.1 hmem])
  · exact append hi

/-- Composing a circuit with a built store. -/
theorem compose {source : Circuit} (hsource : source.content.Built A) (o : ComposeOptions) :
    (Circuit.compose source o).Keeps (Sound A) := by
  refine .read fun c => .ofExcept_bind fun p _ => ?_
  split
  · exact composeWrapped hsource _ p
  · refine .ofExcept_bind fun s hs => ?_
    have hrecords := Circuit.splice_built hsource hs
    split
    · exact addSpliceInScope hrecords
    · exact within (addSplice _ _ hrecords)

theorem withSize (name : String) (numQubits numClbits stamp : Nat) :
    (Circuit.withSize name numQubits numClbits stamp).Sound A := by
  have hadd : ∀ k size (c : Content), c.Built A →
      (addDefaultRegister k size stamp c).Built A := by
    intro k size c hc
    unfold addDefaultRegister
    split
    · exact hc
    · split
      · rename_i d hd
        exact (Content.Built.addRegister _).finalState hc hd
      · exact hc
  exact ⟨hadd _ _ _ (hadd _ _ _ .empty), fun _ hb => absurd hb List.not_mem_nil⟩

/-! ## Closing blocks -/

theorem appendWaiting {item : BlockItem}
    (hitem : ∀ i ∈ BlockItem.instructionsList [item], i.OfBuilt A) :
    (Circuit.appendWaiting item).Keeps (Sound A) := by
  intro c d hc hd
  rcases hd with ⟨_, hd⟩ | ⟨_, hd⟩
  · obtain ⟨-, rfl⟩ := appendWaiting_eq_ok_iff.1 hd
    exact hc.onTop_snoc hitem
  · rwa [appendWaiting_refused hd]

theorem appendBuilt {flow : ControlFlow} (h : ∀ e ∈ flow.bodies, Content.Built A e.content)
    (f : Footprint) : (Circuit.appendBuilt flow f).Keeps (Sound A) :=
  append h

theorem closeOver (span : Footprint)
    {make : Content → Footprint → Except CircuitError ControlFlow}
    (h : ∀ root f flow, make root f = .ok flow → ∀ e ∈ flow.bodies, Content.Built A e.content) :
    (Circuit.closeOver span make).Keeps (Sound A) :=
  .read fun _ => .ofExcept_bind fun _ hflow => appendBuilt (h _ _ _ hflow) _

theorem closeIf (condition : Condition) {t : Block} {f : Option Block} (ht : t.OfBuilt A)
    (hf : ∀ b ∈ f, b.OfBuilt A) : (Circuit.closeIf condition t f).Keeps (Sound A) := by
  -- with a jump in a branch the `if` waits as an item, without one it is a record now
  unfold Circuit.closeIf
  split
  · refine appendWaiting fun i hi => ?_
    cases f with
    | none =>
      simp only [BlockItem.instructionsList, List.append_nil] at hi
      exact ht i hi
    | some f =>
      simp only [BlockItem.instructionsList, List.append_nil, List.mem_append] at hi
      exact hi.elim (ht i) (hf f rfl i)
  · refine closeOver _ fun root span flow hflow => ?_
    obtain ⟨t', ht', hflow⟩ := Checking.bind_eq_ok_iff.1 hflow
    obtain ⟨f', hf', hflow⟩ := Checking.bind_eq_ok_iff.1 hflow
    obtain rfl := ControlFlow.makeIfElse_eq_ok hflow
    intro body hbody
    rcases List.mem_cons.1 hbody with rfl | hbody
    · exact Block.close_built ht ht'
    · obtain ⟨b, hb, hclose⟩ := Checking.exists_left (Block.closeOption_eq_ok hf') hbody
      exact Block.close_built (hf b (Option.mem_toList.1 hb)) hclose

theorem closeBody {role : BodyRole} {make : Circuit → Except CircuitError ControlFlow}
    {b : Block} (hmake : ∀ body flow, make body = .ok flow → flow.bodies = [body])
    (hb : b.OfBuilt A) : (Circuit.closeBody role make b).Keeps (Sound A) := by
  refine closeOver _ fun root span flow hflow => ?_
  obtain ⟨body, hbody, hflow⟩ := Checking.bind_eq_ok_iff.1 hflow
  rw [hmake body flow hflow]
  have hbuilt := Block.close_built hb hbody
  simpa using hbuilt

theorem mem_instructionsList {arms : List BlockArm} {i : Instruction}
    (h : i ∈ BlockArm.instructionsList arms) : ∃ a ∈ arms, i ∈ a.block.instructions := by
  induction arms with
  | nil => exact absurd h List.not_mem_nil
  | cons arm rest ih =>
    obtain ⟨labels, block⟩ := arm
    simp only [BlockArm.instructionsList, List.mem_append] at h
    rcases h with h | h
    · exact ⟨⟨labels, block⟩, List.mem_cons_self, h⟩
    · obtain ⟨a, ha, hi⟩ := ih h
      exact ⟨a, List.mem_cons_of_mem _ ha, hi⟩

theorem closeSwitch (target : SwitchTarget) {arms : List BlockArm}
    (h : ∀ a ∈ arms, a.block.OfBuilt A) : (Circuit.closeSwitch target arms).Keeps (Sound A) := by
  have hin : ∀ i ∈ BlockArm.instructionsList arms, i.OfBuilt A := by
    intro i hi
    obtain ⟨a, ha, hi⟩ := mem_instructionsList hi
    exact h a ha i hi
  refine (Edit.Keeps.ofExcept _).bind fun _ => ?_
  split
  · exact appendWaiting fun i hi => hin i (by simpa [BlockItem.instructionsList] using hi)
  · refine closeOver _ fun root span flow hflow => ?_
    obtain ⟨arms', harms, hflow⟩ := Checking.bind_eq_ok_iff.1 hflow
    obtain rfl := ControlFlow.makeSwitch_eq_ok hflow
    have hbuilt := BlockArm.closeList_built hin harms
    simpa [ControlFlow.bodies] using hbuilt

end Sound

end Circuit

end QuantumCircuit
