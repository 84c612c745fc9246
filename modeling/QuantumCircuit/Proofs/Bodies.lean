import QuantumCircuit.Circuit.Builder
import QuantumCircuit.Circuit.Splice
import QuantumCircuit.Proofs.Store

/-!
# Circuits made by the library

Bodies closed from blocks, bodies with renamed identifiers and the records of a
splice are made by calls on stores, so they hold built circuits when they are
made from built circuits: `Block.close_built`, `Circuit.rename_built`,
`Circuit.splice_built`.
-/

namespace QuantumCircuit

variable {A : Policy}

/-- That every circuit in the record is built. -/
def Instruction.OfBuilt (A : Policy) (i : Instruction) : Prop :=
  ∀ e ∈ i.operation.circuits, Content.Built A e.content

/-! ## Edits of a built store -/

namespace Content

theorem Built.addBit {k : BitKind} (bit : Bit k) : (Content.addBit bit).Keeps (Built A) := by
  intro c d hc hd
  refine .call (.addBit k bit) hc trivial (by simp [Call.records]) ?_
  rcases hd with ⟨n, hd⟩ | ⟨e, hd⟩
  · exact Edit.leaves_bind_iff.2 (.inr ⟨n, d, hd, Edit.leaves_pure_iff.2 rfl⟩)
  · exact Edit.leaves_bind_iff.2 (.inl ⟨e, hd⟩)

theorem Built.addRegister {k : BitKind} (r : Register k) :
    (Content.addRegister r).Keeps (Built A) :=
  fun _ _ hc hd => .call (.addRegister k r) hc trivial (by simp [Call.records]) hd

theorem Built.addIdentifier (i : Identifier) (kind : IdentifierKind) :
    (Content.addIdentifier i kind).Keeps (Built A) :=
  fun _ _ hc hd => .call (.addIdentifier i kind) hc trivial (by simp [Call.records]) hd

theorem Built.push {i : Instruction} (hi : i.OfBuilt A) : (Content.push i).Keeps (Built A) :=
  fun _ _ hc hd => .call (.push i) hc trivial
    (fun j hj => by rwa [List.mem_singleton.1 hj]) hd

theorem Built.insertFront {front : List Instruction} (h : ∀ i ∈ front, i.OfBuilt A) :
    (Content.insertFront front).Keeps (Built A) :=
  fun _ _ hc hd => .call (.insertFront front) hc trivial h hd

theorem Built.setPhase (phase : Angle) : (Content.setPhase phase).Keeps (Built A) :=
  fun _ _ hc hd => .call (.setPhase phase) hc trivial (by simp [Call.records]) hd

theorem Built.copyEmpty {c : Content} (hc : Built A c) (mode : IdentifierMode) :
    Built A (c.copyEmpty mode) :=
  .call (.copyEmpty mode) hc trivial (by simp [Call.records]) (.of_ok rfl)

/-- The records of a built store hold built circuits. -/
theorem Built.ofBuilt {c : Content} (hc : Built A c) {i : Instruction} (hi : i ∈ c.records) :
    i.OfBuilt A :=
  fun _ he => hc.inside (mem_circuits_iff.2 ⟨i, hi, he⟩)

/-- What adding bits keeps, importing bits keeps. -/
theorem importBits_keeps {P : Content → Prop} {root : Content} {k : BitKind}
    (h : ∀ bit : Bit k, (Content.addBit bit).Keeps P) (positions : List Nat) :
    (Content.importBits root k positions).Keeps P := by
  induction positions with
  | nil => exact .pure []
  | cons position rest ih =>
    unfold Content.importBits
    split
    · exact .throw _
    · exact (h _).bind fun _ => ih.bind fun _ => .pure _

/-- A body is prepared by bits, registers and identifiers that come in. -/
theorem prepareBody_keeps {P : Content → Prop} {root : Content} {f : Footprint}
    {captures : List Identifier} {locals : IdentifierTable}
    (hbit : ∀ {k : BitKind} (bit : Bit k), (Content.addBit bit).Keeps P)
    (hregister : ∀ r : ClassicalRegister, (Content.addRegister r).Keeps P)
    (hidentifier : ∀ i kind, (Content.addIdentifier i kind).Keeps P) :
    (Content.prepareBody root f captures locals).Keeps P := by
  refine (importBits_keeps hbit _).bind fun _ => (importBits_keeps hbit _).bind fun _ => ?_
  refine (Edit.Keeps.each fun r _ => hregister r).bind fun _ => ?_
  refine (Edit.Keeps.each fun i _ => hidentifier i _).bind fun _ => ?_
  exact (Edit.Keeps.each fun i _ => hidentifier i _).bind fun _ => .pure _

theorem Built.pushLocal {i : Instruction} (hi : i.OfBuilt A) (qubits clbits : List (Nat × Nat)) :
    (Content.pushLocal i qubits clbits).Keeps (Built A) := by
  intro c d hc hd
  rcases Edit.leaves_ofExcept_bind_iff.1 hd with ⟨j, hlocal, hd⟩ | ⟨-, rfl⟩
  · obtain ⟨qs, -, hlocal⟩ := Checking.bind_eq_ok_iff.1 hlocal
    obtain ⟨cs, -, hlocal⟩ := Checking.bind_eq_ok_iff.1 hlocal
    cases hlocal
    exact Built.push (i := { i with qubits := qs, clbits := cs }) hi c d hc hd
  · exact hc

end Content

/-- The store after the calls, whether they answer or are refused. -/
def Content.after (c : Content) (calls : List Content.Call) : Content :=
  calls.foldl (fun c k => k.run.leftBy c) c

theorem Content.Built.after {c : Content} (hc : c.Built .any) {calls : List Content.Call}
    (h : ∀ k ∈ calls, ∀ i ∈ k.records, i.OfBuilt .any) : (c.after calls).Built .any := by
  refine List.foldlRecOn calls _ hc fun b hb k hk => ?_
  refine .call k hb ?_ (h k hk) (Edit.leaves_iff.2 rfl)
  cases k <;> trivial

/-- Only the circuits inside the records that are handed in have to be built already. -/
theorem Content.Built.after_of_circuits {c : Content} (hc : c.Built .any)
    {calls : List Content.Call}
    (h : ∀ e ∈ (calls.flatMap (·.records)).flatMap (·.operation.circuits),
      e.content.Built .any) : (c.after calls).Built .any :=
  hc.after fun k hk i hi e he =>
    h e (List.mem_flatMap.2 ⟨i, List.mem_flatMap.2 ⟨k, hk, hi⟩, he⟩)

/-- Without circuits inside, all that calls make of the empty store is built. -/
theorem Content.Built.empty_after {calls : List Content.Call}
    (h : (calls.flatMap (·.records)).flatMap (·.operation.circuits) = []) :
    (Content.empty.after calls).Built .any :=
  Content.Built.empty.after_of_circuits fun _ he => absurd (h ▸ he) List.not_mem_nil

/-! ## Closing a block -/

mutual

/-- The records in the block, those of its waiting branches included. -/
def Block.instructions : Block → List Instruction
  | ⟨_, _, items, _⟩ => BlockItem.instructionsList items

/-- The records in the items. -/
def BlockItem.instructionsList : List BlockItem → List Instruction
  | [] => []
  | .record i :: rest => i :: BlockItem.instructionsList rest
  | .jump _ :: rest => BlockItem.instructionsList rest
  | .branch _ t none :: rest => t.instructions ++ BlockItem.instructionsList rest
  | .branch _ t (some f) :: rest =>
    t.instructions ++ f.instructions ++ BlockItem.instructionsList rest
  | .dispatch _ arms :: rest => BlockArm.instructionsList arms ++ BlockItem.instructionsList rest

/-- The records in the cases. -/
def BlockArm.instructionsList : List BlockArm → List Instruction
  | [] => []
  | ⟨_, block⟩ :: rest => block.instructions ++ BlockArm.instructionsList rest

end

/-- That every circuit in the records of the block is built. -/
def Block.OfBuilt (A : Policy) (b : Block) : Prop := ∀ i ∈ b.instructions, i.OfBuilt A

theorem ControlFlow.makeIfElse_eq_ok {condition : Condition} {t : Circuit} {f : Option Circuit}
    {flow : ControlFlow} (h : ControlFlow.makeIfElse condition t f = .ok flow) :
    flow = .ifElse condition t f := by
  cases f <;> simp only [ControlFlow.makeIfElse, Checking.seq_eq_ok_iff, pure, Except.pure,
    Except.ok.injEq] at h <;> exact h.2.2.symm

theorem ControlFlow.makeSwitch_eq_ok {target : SwitchTarget} {arms : List SwitchArm}
    {flow : ControlFlow} (h : ControlFlow.makeSwitch target arms = .ok flow) :
    flow = .switchCase target arms := by
  cases arms <;> simp only [ControlFlow.makeSwitch, Checking.seq_eq_ok_iff, pure, Except.pure,
    Except.ok.injEq] at h <;> exact h.2.2.symm

theorem ControlFlow.makeBox_eq_ok {body : Circuit} {duration : Option Duration}
    {flow : ControlFlow} (h : ControlFlow.makeBox body duration = .ok flow) :
    flow = .box body duration := by
  cases duration <;> simp only [ControlFlow.makeBox, Checking.seq_eq_ok_iff, pure, Except.pure,
    Except.ok.injEq] at h <;> exact h.2.symm

/-- If there is a block, it is closed. -/
theorem Block.closeOption_eq_ok {root : Content} {f : Footprint} {role : BodyRole}
    {b : Option Block} {body : Option Circuit} (h : Block.closeOption root f role b = .ok body) :
    List.Forall₂ (fun b body => b.close root f role = .ok body) b.toList body.toList := by
  cases b with
  | none =>
    cases h
    exact .nil
  | some b =>
    obtain ⟨body, hbody, h⟩ := Checking.bind_eq_ok_iff.1 h
    cases h
    exact .cons hbody .nil

mutual

/-- A closed block is a built body. -/
theorem Block.close_built {root : Content} {f : Footprint} {role : BodyRole} :
    ∀ {b : Block} {body : Circuit}, b.OfBuilt A → b.close root f role = .ok body →
      Content.Built A body.content
  | ⟨footprint, locals, items, ban⟩, body, hb, h => by
    simp only [Block.close] at h
    obtain ⟨content, hcontent, h⟩ := Checking.bind_eq_ok_iff.1 h
    cases h
    refine Edit.Keeps.finalState ?_ .empty hcontent
    refine (Content.prepareBody_keeps Content.Built.addBit Content.Built.addRegister
      Content.Built.addIdentifier).bind fun moved => ?_
    exact BlockItem.closeList_keeps (by simpa [Block.OfBuilt, Block.instructions] using hb)

/-- Closing the items of a block adds records with built bodies. -/
theorem BlockItem.closeList_keeps {root : Content} {f : Footprint}
    {qubits clbits : List (Nat × Nat)} :
    ∀ {items : List BlockItem}, (∀ i ∈ BlockItem.instructionsList items, i.OfBuilt A) →
      (BlockItem.closeList root f qubits clbits items).Keeps (Content.Built A)
  | [], _ => by
    simp only [BlockItem.closeList]
    exact .pure ()
  | .record i :: rest, h => by
    simp only [BlockItem.instructionsList, List.forall_mem_cons] at h
    simp only [BlockItem.closeList]
    exact (Content.Built.pushLocal h.1 _ _).bind fun _ => BlockItem.closeList_keeps h.2
  | .jump j :: rest, h => by
    simp only [BlockItem.closeList]
    refine (Content.Built.pushLocal ?_ _ _).bind fun _ =>
      BlockItem.closeList_keeps (by simpa [BlockItem.instructionsList] using h)
    simp [Instruction.OfBuilt, Instruction.make, Operation.circuits, ControlFlow.bodies]
  | .branch condition t none :: rest, h => by
    simp only [BlockItem.instructionsList, List.forall_mem_append] at h
    simp only [BlockItem.closeList]
    refine Edit.Keeps.ofExcept_bind fun t' ht => ?_
    refine Edit.Keeps.ofExcept_bind fun flow hflow => ?_
    obtain rfl := ControlFlow.makeIfElse_eq_ok hflow
    refine (Content.Built.pushLocal ?_ _ _).bind fun _ => BlockItem.closeList_keeps h.2
    simpa [Instruction.OfBuilt, Instruction.make, Operation.circuits, ControlFlow.bodies]
      using Block.close_built h.1 ht
  | .branch condition t (some e) :: rest, h => by
    simp only [BlockItem.instructionsList, List.forall_mem_append] at h
    simp only [BlockItem.closeList]
    refine Edit.Keeps.ofExcept_bind fun t' ht => ?_
    refine Edit.Keeps.ofExcept_bind fun e' he => ?_
    refine Edit.Keeps.ofExcept_bind fun flow hflow => ?_
    obtain rfl := ControlFlow.makeIfElse_eq_ok hflow
    refine (Content.Built.pushLocal ?_ _ _).bind fun _ => BlockItem.closeList_keeps h.2
    simpa [Instruction.OfBuilt, Instruction.make, Operation.circuits, ControlFlow.bodies]
      using And.intro (Block.close_built h.1.1 ht) (Block.close_built h.1.2 he)
  | .dispatch target arms :: rest, h => by
    simp only [BlockItem.instructionsList, List.forall_mem_append] at h
    simp only [BlockItem.closeList]
    refine Edit.Keeps.ofExcept_bind fun arms' harms => ?_
    refine Edit.Keeps.ofExcept_bind fun flow hflow => ?_
    obtain rfl := ControlFlow.makeSwitch_eq_ok hflow
    refine (Content.Built.pushLocal ?_ _ _).bind fun _ => BlockItem.closeList_keeps h.2
    simpa [Instruction.OfBuilt, Instruction.make, Operation.circuits, ControlFlow.bodies]
      using BlockArm.closeList_built h.1 harms

/-- Closed cases have built bodies. -/
theorem BlockArm.closeList_built {root : Content} {f : Footprint} :
    ∀ {arms : List BlockArm} {arms' : List SwitchArm},
      (∀ i ∈ BlockArm.instructionsList arms, i.OfBuilt A) →
      BlockArm.closeList root f arms = .ok arms' → ∀ a ∈ arms', Content.Built A a.body.content
  | [], arms', _, h => by
    simp only [BlockArm.closeList, Except.ok.injEq] at h
    simp [← h]
  | ⟨labels, block⟩ :: rest, arms', hin, h => by
    simp only [BlockArm.instructionsList, List.forall_mem_append] at hin
    simp only [BlockArm.closeList] at h
    obtain ⟨body, hbody, h⟩ := Checking.bind_eq_ok_iff.1 h
    obtain ⟨others, hothers, h⟩ := Checking.bind_eq_ok_iff.1 h
    cases h
    intro a ha
    rcases List.mem_cons.1 ha with rfl | ha
    · exact Block.close_built hin.1 hbody
    · exact BlockArm.closeList_built hin.2 hothers a ha

end

/-! ## New leaves and new bodies -/

/-- The same control flow but for the condition, the target or the duration. -/
inductive ControlFlow.Alike : ControlFlow → ControlFlow → Prop
  | ifElse (c c' : Condition) (t : Circuit) (f : Option Circuit) :
      Alike (.ifElse c t f) (.ifElse c' t f)
  | whileLoop (c c' : Condition) (b : Circuit) : Alike (.whileLoop c b) (.whileLoop c' b)
  | forLoop (i : LoopIndices) (p : Option Parameter) (b : Circuit) :
      Alike (.forLoop i p b) (.forLoop i p b)
  | switchCase (t t' : SwitchTarget) (arms : List SwitchArm) :
      Alike (.switchCase t arms) (.switchCase t' arms)
  | box (b : Circuit) (d d' : Option Duration) : Alike (.box b d) (.box b d')
  | jump (j : Jump) (q c : Nat) : Alike (.jump j q c) (.jump j q c)

namespace ControlFlow

variable {flow flow' : ControlFlow}

theorem Alike.bodies (h : Alike flow flow') : flow'.bodies = flow.bodies := by
  cases h <;> rfl

theorem Alike.loopParameter? (h : Alike flow flow') :
    flow'.loopParameter? = flow.loopParameter? := by
  cases h <;> rfl

theorem mapLeaves_eq_ok {f : Expr → Except CircuitError (Option Expr)}
    (h : flow.mapLeaves f = .ok flow') : Alike flow flow' := by
  cases flow with
  | ifElse c t e =>
    obtain ⟨c', -, h⟩ := Checking.bind_eq_ok_iff.1 h
    cases h
    exact .ifElse c c' t e
  | whileLoop c b =>
    obtain ⟨c', -, h⟩ := Checking.bind_eq_ok_iff.1 h
    cases h
    exact .whileLoop c c' b
  | forLoop i p b =>
    cases h
    exact .forLoop i p b
  | switchCase t arms =>
    obtain ⟨t', -, h⟩ := Checking.bind_eq_ok_iff.1 h
    cases h
    exact .switchCase t t' arms
  | box b d =>
    cases d with
    | none =>
      cases h
      exact .box b none none
    | some d =>
      obtain ⟨d', -, h⟩ := Checking.bind_eq_ok_iff.1 h
      cases h
      exact .box b (some d) (some d')
  | jump j q c =>
    cases h
    exact .jump j q c

theorem mapLeaves_answers {σ : Type} {f : Expr → Edit σ (Option Expr)} {s s' : σ}
    (h : flow.mapLeaves f s = .ok flow' s') : Alike flow flow' := by
  cases flow with
  | ifElse c t e =>
    obtain ⟨c', u, -, h⟩ := Edit.bind_eq_ok_iff.1 h
    cases h
    exact .ifElse c c' t e
  | whileLoop c b =>
    obtain ⟨c', u, -, h⟩ := Edit.bind_eq_ok_iff.1 h
    cases h
    exact .whileLoop c c' b
  | forLoop i p b =>
    cases h
    exact .forLoop i p b
  | switchCase t arms =>
    obtain ⟨t', u, -, h⟩ := Edit.bind_eq_ok_iff.1 h
    cases h
    exact .switchCase t t' arms
  | box b d =>
    cases d with
    | none =>
      cases h
      exact .box b none none
    | some d =>
      obtain ⟨d', u, -, h⟩ := Edit.bind_eq_ok_iff.1 h
      cases h
      exact .box b (some d) (some d')
  | jump j q c =>
    cases h
    exact .jump j q c

theorem bodies_withBodies {bodies : List Circuit} (h : bodies.length = flow.bodies.length) :
    (flow.withBodies bodies).bodies = bodies := by
  have hone : ∀ b : Circuit, bodies.length = 1 → [bodies.headD b] = bodies := by
    intro b hlen
    obtain ⟨x, rfl⟩ := List.length_eq_one_iff.1 hlen
    rfl
  cases flow with
  | ifElse c t f =>
    cases f with
    | none => exact hone t h
    | some e =>
      obtain ⟨x, y, rfl⟩ := List.length_eq_two.1 h
      rfl
  | whileLoop c b => exact hone b h
  | forLoop i p b => exact hone b h
  | switchCase t arms =>
    have hlen : arms.length = bodies.length := by simpa [ControlFlow.bodies] using h.symm
    show (List.zipWith _ arms bodies).map _ = bodies
    rw [List.map_zipWith]
    exact List.ext_getElem (by simp [hlen]) fun k hk hk' => by simp
  | box b d => exact hone b h
  | jump j q c => exact (List.length_eq_zero_iff.1 h).symm

theorem withBodies_bodies : flow.withBodies flow.bodies = flow := by
  cases flow with
  | ifElse c t e => cases e <;> rfl
  | switchCase t arms =>
    show switchCase t (List.zipWith _ arms (arms.map (·.body))) = _
    have hsame : ∀ arm : SwitchArm, (⟨arm.labels, arm.body⟩ : SwitchArm) = arm := fun arm => by
      cases arm
      rfl
    rw [List.zipWith_map_right, List.zipWith_self, List.map_id'' hsame]
  | whileLoop c b | forLoop i p b | box b d | jump j q c => rfl

theorem replaceBodies_eq_ok {bodies : List Circuit} (h : flow.replaceBodies bodies = .ok flow') :
    flow'.bodies = bodies := by
  unfold replaceBodies at h
  split at h
  · cases h
  · rename_i hlen
    have hlen : bodies.length = flow.bodies.length := Decidable.not_not.1 hlen
    split at h
    · rename_i hnil
      cases h
      rw [hnil] at hlen ⊢
      exact (List.length_eq_zero_iff.1 hlen).symm
    · obtain ⟨-, h⟩ := Checking.seq_eq_ok_iff.1 h
      cases h
      exact bodies_withBodies hlen

end ControlFlow

/-! ## Renaming -/

/-- The bodies are renamed one by one. -/
theorem ControlFlow.renameBodies_eq_ok {m : Renaming} {flow : ControlFlow}
    {bodies : List Circuit} (h : flow.renameBodies m = .ok bodies) :
    List.Forall₂ (fun b b' : Circuit => b.rename m = .ok b') flow.bodies bodies := by
  cases flow with
  | ifElse c t f =>
    cases f with
    | none =>
      simp only [ControlFlow.renameBodies] at h
      obtain ⟨t', ht, h⟩ := Checking.bind_eq_ok_iff.1 h
      cases h
      exact .cons ht .nil
    | some f =>
      simp only [ControlFlow.renameBodies] at h
      obtain ⟨t', ht, h⟩ := Checking.bind_eq_ok_iff.1 h
      obtain ⟨f', hf, h⟩ := Checking.bind_eq_ok_iff.1 h
      cases h
      exact .cons ht (.cons hf .nil)
  | whileLoop c b | forLoop i p b | box b d =>
    simp only [ControlFlow.renameBodies] at h
    obtain ⟨b', hb, h⟩ := Checking.bind_eq_ok_iff.1 h
    cases h
    exact .cons hb .nil
  | switchCase t arms =>
    simp only [ControlFlow.renameBodies] at h
    show List.Forall₂ _ (arms.map (·.body)) bodies
    -- the cases are renamed one after another
    induction arms generalizing bodies with
    | nil =>
      simp only [SwitchArm.renameBodies, Except.ok.injEq] at h
      exact h ▸ .nil
    | cons arm rest ih =>
      obtain ⟨labels, body⟩ := arm
      simp only [SwitchArm.renameBodies] at h
      obtain ⟨body', hbody, h⟩ := Checking.bind_eq_ok_iff.1 h
      obtain ⟨others, hothers, h⟩ := Checking.bind_eq_ok_iff.1 h
      cases h
      exact .cons hbody (ih hothers)
  | jump j q c =>
    simp only [ControlFlow.renameBodies, Except.ok.injEq] at h
    exact h ▸ .nil

/-- An operation under a renaming holds circuits that it held before, or what the renaming makes
of them. -/
theorem Operation.circuits_of_rename {m : Renaming} {op op' : Operation}
    (h : op.rename m = .ok op') :
    ∀ e ∈ op'.circuits, e ∈ op.circuits ∨ ∃ b ∈ op.circuits, b.rename m = .ok e := by
  intro e he
  cases op with
  | gate g | custom o | measure | reset | barrier w =>
    simp only [Operation.rename, Except.ok.injEq] at h
    exact .inl (h ▸ he)
  | store s | delay d =>
    simp only [Operation.rename] at h
    obtain ⟨mapped, -, h⟩ := Checking.bind_eq_ok_iff.1 h
    cases h
    exact absurd he List.not_mem_nil
  | control flow =>
    simp only [Operation.rename] at h
    obtain ⟨renamed, hrenamed, h⟩ := Checking.bind_eq_ok_iff.1 h
    split at h
    · obtain ⟨bodies, hbodies, h⟩ := Checking.bind_eq_ok_iff.1 h
      obtain ⟨flow', hflow, h⟩ := Checking.bind_eq_ok_iff.1 h
      cases h
      have he : e ∈ flow'.bodies := he
      rw [ControlFlow.replaceBodies_eq_ok hflow] at he
      exact .inr (Checking.exists_left (ControlFlow.renameBodies_eq_ok hbodies) he)
    · cases h
      have he : e ∈ renamed.bodies := he
      rw [(ControlFlow.mapLeaves_eq_ok hrenamed).bodies] at he
      exact .inl he

theorem Instruction.renameList_keeps {m : Renaming} {records : List Instruction}
    (h : ∀ i ∈ records, ∀ op, i.operation.rename m = .ok op →
      ∀ e ∈ op.circuits, Content.Built A e.content) :
    (Instruction.renameList m records).Keeps (Content.Built A) := by
  induction records with
  | nil =>
    simp only [Instruction.renameList]
    exact .pure ()
  | cons i rest ih =>
    obtain ⟨hfirst, hrest⟩ := List.forall_mem_cons.1 h
    obtain ⟨operation, qubits, clbits, label⟩ := i
    simp only [Instruction.renameList]
    refine Edit.Keeps.ofExcept_bind fun op hop => ?_
    have hbuilt : Instruction.OfBuilt A ⟨op, qubits, clbits, label⟩ := hfirst op hop
    exact (Content.Built.push hbuilt).bind fun _ => ih hrest

/-- A built circuit under a renaming is built. -/
theorem Circuit.rename_built {m : Renaming} {c d : Circuit} (hc : Content.Built A c.content)
    (h : c.rename m = .ok d) : Content.Built A d.content := by
  -- by induction on the depth of the circuit
  have hdepth := hc.everywhere_built
  generalize hcontent : c.content = content at hdepth
  induction hdepth generalizing c d with
  | @intro content hbuilt _ ih =>
    subst hcontent
    have hrecords : ∀ i ∈ c.content.records, ∀ op, i.operation.rename m = .ok op →
        ∀ e ∈ op.circuits, Content.Built A e.content := by
      intro i hi op hop e he
      rcases Operation.circuits_of_rename hop e he with he | ⟨b, hb, hrename⟩
      · exact hbuilt.ofBuilt hi e he
      · have hinside := Content.mem_circuits_iff.2 ⟨i, hi, hb⟩
        exact ih b hinside (hbuilt.inside hinside) hrename rfl
    obtain ⟨name, ⟨qubits, clbits, records, table, phase, identifiers, duration⟩, blocks⟩ := c
    simp only [Circuit.rename] at h
    obtain ⟨content, hcontent, h⟩ := Checking.bind_eq_ok_iff.1 h
    cases h
    refine Edit.Keeps.finalState ?_ (hbuilt.copyEmpty .drop) hcontent
    exact (Edit.Keeps.each fun i _ => Content.Built.addIdentifier _ _).bind fun _ =>
      Instruction.renameList_keeps hrecords

theorem ControlFlow.renameBodies_built {m : Renaming} {flow : ControlFlow} {bodies : List Circuit}
    (hin : ∀ e ∈ flow.bodies, Content.Built A e.content) (h : flow.renameBodies m = .ok bodies) :
    ∀ e ∈ bodies, Content.Built A e.content := by
  intro e he
  obtain ⟨b, hb, hrename⟩ := Checking.exists_left (ControlFlow.renameBodies_eq_ok h) he
  exact Circuit.rename_built (hin b hb) hrename

/-! ## The records of a splice -/

theorem LeafMap.operation_built {m : LeafMap} {op op' : Operation} {s s' : RegisterChoice}
    (hin : ∀ e ∈ op.circuits, Content.Built A e.content) (h : m.operation op s = .ok op' s') :
    ∀ e ∈ op'.circuits, Content.Built A e.content := by
  cases op with
  | control flow =>
    obtain ⟨mapped, u, hmapped, h⟩ := Edit.bind_eq_ok_iff.1 h
    -- bodies are only renamed if the renaming changes something
    split at h
    · obtain ⟨bodies, u', hbodies, h⟩ := Edit.bind_eq_ok_iff.1 h
      have hrename := (Edit.ofExcept_eq_ok_iff.1 hbodies).1
      obtain ⟨flow', u'', hflow, h⟩ := Edit.bind_eq_ok_iff.1 h
      have hreplace := (Edit.ofExcept_eq_ok_iff.1 hflow).1
      cases h
      show ∀ e ∈ flow'.bodies, _
      rw [ControlFlow.replaceBodies_eq_ok hreplace]
      exact ControlFlow.renameBodies_built hin hrename
    · cases h
      show ∀ e ∈ mapped.bodies, _
      rw [(ControlFlow.mapLeaves_answers hmapped).bodies]
      exact hin
  | store a =>
    obtain ⟨a', u, -, h⟩ := Edit.bind_eq_ok_iff.1 h
    cases h
    exact fun e he => absurd he List.not_mem_nil
  | delay d =>
    obtain ⟨d', u, -, h⟩ := Edit.bind_eq_ok_iff.1 h
    cases h
    exact fun e he => absurd he List.not_mem_nil
  | gate g | custom o | measure | reset | barrier w =>
    cases h
    exact hin

theorem LeafMap.records_built {m : LeafMap} {p : Placement} {records moved : List Instruction}
    {s s' : RegisterChoice} (hin : ∀ i ∈ records, i.OfBuilt A)
    (h : m.records p records s = .ok moved s') : ∀ i ∈ moved, i.OfBuilt A := by
  induction records generalizing moved s with
  | nil =>
    cases h
    exact fun i hi => absurd hi List.not_mem_nil
  | cons first rest ih =>
    obtain ⟨hfirst, hrest⟩ := List.forall_mem_cons.1 hin
    obtain ⟨op, u, hop, h⟩ := Edit.bind_eq_ok_iff.1 h
    obtain ⟨others, u', hothers, h⟩ := Edit.bind_eq_ok_iff.1 h
    cases h
    intro i hi
    rcases List.mem_cons.1 hi with rfl | hi
    · exact LeafMap.operation_built hfirst hop
    · exact ih hrest hothers i hi

/-- The records to be spliced in from a built circuit hold built circuits. -/
theorem Circuit.splice_built {c source : Circuit} {o : ComposeOptions} {p : Placement}
    {s : Splice} (hsource : Content.Built A source.content) (h : c.splice source o p = .ok s) :
    ∀ i ∈ s.records, i.OfBuilt A := by
  unfold Circuit.splice at h
  obtain ⟨images, -, h⟩ := Checking.bind_eq_ok_iff.1 h
  obtain ⟨plan, -, h⟩ := Checking.bind_eq_ok_iff.1 h
  simp only at h
  split at h
  · cases h
  · rename_i records choice hrecords
    cases h
    exact LeafMap.records_built (fun i hi => hsource.ofBuilt hi) hrecords

end QuantumCircuit
