import QuantumCircuit.Proofs.Sound

/-!
# Circuits reached by calls

A circuit is reached from a built store by the calls that add to the active scope,
by opening and closing blocks, and by composing (`Circuit.Reachable`). A block may
be entered with anything in its footprint, so the steps allow at least what the
builders do; that a builder stays within them when its bodies do is
`Builder.ifTest_reachable` and its siblings.

A call on the active scope declares something, jumps or does neither, and then adds
records (`Circuit.Call.run_cases`). What these steps keep, it keeps
(`Circuit.Call.keeps_of_onScope`).

The store of a reached circuit is built (`Circuit.Reachable.built`): whatever is
known of built stores holds of reached circuits, and of all circuits inside them.
-/

namespace QuantumCircuit

variable {A : Policy}

namespace Circuit

/-! ## Calls -/

/-- A call on a circuit. -/
inductive Call where
  /-- A call on the store. -/
  | store (k : Content.Call)
  | rename (name : String)
  | append (i : Instruction)
  | appendHandles (i : HandleInstruction)
  | appendOperation (op : Operation) (qubits : List (BitSpec .quantum))
    (clbits : List (BitSpec .classical))
  | barrier (qubits : List (BitSpec .quantum))
  | barrierAll
  | delay (d : Duration) (qubit : BitSpec .quantum)
  /-- Assign while the circuit runs. -/
  | write (target value : Expr)
  | addVar (v : Var) (initial : Expr)
  | declare (i : Identifier)
  | addOuter (i : Identifier) (kind : IdentifierKind)
  | addLoose (k : BitKind) (count stamp : Nat)
  | measureAll (stamp : Nat)
  | jump (j : Jump)
  | compose (source : Circuit) (o : ComposeOptions)

namespace Call

/-- Make the call. What it answers is left out. -/
def run : Call → Edit Circuit Unit
  | store k => Edit.within contentFocus k.run
  | rename name => modify fun c => { c with name }
  | append i => Circuit.append i
  | appendHandles i => Circuit.appendHandles i
  | appendOperation op qubits clbits => Circuit.appendOperation op qubits clbits
  | barrier qubits => Circuit.barrier qubits
  | barrierAll => Circuit.barrierAll
  | delay d qubit => Circuit.delay d qubit
  | write target value => Circuit.store target value
  | addVar v initial => Circuit.addVar v initial
  | declare i => Circuit.declare i
  | addOuter i kind => Circuit.addOuter i kind
  | addLoose k count stamp => do let _ ← Circuit.addLoose k count stamp
  | measureAll stamp => Circuit.measureAll stamp
  | jump j => Circuit.jump j
  | compose source o => Circuit.compose source o

/-- The circuits that the call hands in. -/
def circuits : Call → List Circuit
  | store k => k.records.flatMap (·.operation.circuits)
  | append i => i.operation.circuits
  | appendHandles i => i.operation.circuits
  | appendOperation op _ _ => op.circuits
  | compose source _ => [source]
  | _ => []

/-- Whether the policy allows the call. -/
def Allowed (A : Policy) (c : Circuit) : Call → Prop
  | store k => k.Allowed A c.content
  | _ => True

/-- Whether the call goes to the active scope. The others go to the store, or are made
only where no block is open. -/
def OnScope : Call → Prop
  | append _ | appendHandles _ | appendOperation _ _ _ | barrier _ | barrierAll | delay _ _
  | write _ _ | addVar _ _ | declare _ | jump _ => True
  | store _ | rename _ | addOuter _ _ | addLoose _ _ _ | measureAll _ | compose _ _ => False

/-- The records that a call on the scope adds, jumps left out. -/
def records (c : Circuit) : Call → Except CircuitError (List Instruction)
  | append r => .ok [r]
  | appendHandles r => do return [← c.content.instructionOf r]
  | appendOperation op qubits clbits => c.expand op qubits clbits
  | barrier qubits => do return [.barrier (← qubits.mapM c.content.resolveSpec).flatten]
  | barrierAll => .ok [.barrier (List.range c.numQubits)]
  | delay d qubit => c.expand (.delay d) [qubit] []
  | write target value => do return [.make (.store (← Store.make target value)) [] []]
  | addVar v initial => do return [.make (.store (← Store.make (.var v) initial)) [] []]
  | _ => .ok []

/-- What a call on the scope does before it adds its records. -/
def first : Call → Edit Circuit Unit
  | addVar v _ => Circuit.declare (.var v)
  | declare i => Circuit.declare i
  | jump j => Circuit.jump j
  | _ => pure ()

end Call

/-- The instructions that applying an operation comes to are all of that operation. -/
theorem operation_of_expand {c : Circuit} {op : Operation} {qubits : List (BitSpec .quantum)}
    {clbits : List (BitSpec .classical)} {rs : List Instruction}
    (h : c.expand op qubits clbits = .ok rs) : ∀ r ∈ rs, r.operation = op := by
  obtain ⟨qs, -, h⟩ := Checking.bind_eq_ok_iff.1 h
  obtain ⟨bs, -, h⟩ := Checking.bind_eq_ok_iff.1 h
  obtain ⟨applications, -, h⟩ := Checking.bind_eq_ok_iff.1 h
  cases h
  intro r hr
  obtain ⟨application, -, rfl⟩ := List.mem_map.1 hr
  rfl

namespace Call

variable {k : Call} {c d : Circuit}

/-- Of an operation all instructions are added, if the checks of all of them pass. -/
theorem appendOperation_cases (op : Operation) (qubits : List (BitSpec .quantum))
    (clbits : List (BitSpec .classical)) (c : Circuit) :
    (∃ e, Circuit.appendOperation op qubits clbits c = .error e c) ∨
      ∃ rs, c.expand op qubits clbits = .ok rs ∧
        (∀ r ∈ rs, (if c.inScope then c.content.checkOperands else c.content.check) r = .ok ()) ∧
        Circuit.appendOperation op qubits clbits c = Edit.each Circuit.append rs c := by
  refine (Edit.ofExcept_bind_cases (c.expand op qubits clbits) _ c).elim .inl ?_
  rintro ⟨rs, hrs, hrun⟩
  exact (Edit.ofExcept_bind_cases _ _ c).imp (fun ⟨e, he⟩ => ⟨e, hrun.trans he⟩)
    fun ⟨_, hchecked, he⟩ => ⟨rs, hrs, checkEach_eq_ok_iff.1 hchecked, hrun.trans he⟩

/-- A variable is declared and stored to, if four checks pass before that. -/
theorem addVar_cases (v : Var) (initial : Expr) (c : Circuit) :
    (∃ e, Circuit.addVar v initial c = .error e c) ∨
      ∃ s, Store.make (.var v) initial = .ok s ∧ c.checkDeclaration (.var v) = .ok () ∧
        c.checkAppend (.make (.store s) [] []) [.var v] = .ok () ∧
        Circuit.addVar v initial c = (do
          Circuit.declare (.var v)
          Circuit.append (.make (.store s) [] []) : Edit Circuit Unit) c := by
  refine (Edit.ofExcept_bind_cases (Store.make (.var v) initial) _ c).elim .inl ?_
  rintro ⟨s, hs, hrun⟩
  refine (Edit.ofExcept_bind_cases _ _ c).elim (fun ⟨e, he⟩ => .inl ⟨e, hrun.trans he⟩) ?_
  rintro ⟨_, -, hagain⟩
  replace hrun := hrun.trans hagain
  refine (Edit.ofExcept_bind_cases (c.checkDeclaration (.var v)) _ c).elim
    (fun ⟨e, he⟩ => .inl ⟨e, hrun.trans he⟩) ?_
  rintro ⟨_, hdeclarable, hagain⟩
  replace hrun := hrun.trans hagain
  exact (Edit.ofExcept_bind_cases (c.checkAppend (.make (.store s) [] []) [.var v]) _ c).imp
    (fun ⟨e, he⟩ => ⟨e, hrun.trans he⟩)
    fun ⟨_, hchecked, he⟩ => ⟨s, hs, hdeclarable, hchecked, hrun.trans he⟩

/-- A call on the scope is refused before it does anything, or it does what comes first and then
adds its records. -/
theorem run_cases (hk : k.OnScope) (c : Circuit) : (∃ e, k.run c = .error e c) ∨
    ∃ rs, k.records c = .ok rs ∧ k.run c = (do
      k.first
      Edit.each Circuit.append rs : Edit Circuit Unit) c := by
  -- a single record is added where nothing comes first
  have hone : ∀ r : Instruction, Circuit.append r c = (do
      (pure () : Edit Circuit Unit)
      Edit.each Circuit.append [r] : Edit Circuit Unit) c := fun r => by
    rw [Edit.each_singleton]
  cases k with
  | append r => exact .inr ⟨[r], rfl, hone r⟩
  | appendHandles r =>
    refine (Edit.ofExcept_bind_cases (c.content.instructionOf r) _ c).imp_right ?_
    rintro ⟨r', hr', hrun⟩
    exact ⟨[r'], Checking.bind_eq_ok_iff.2 ⟨r', hr', rfl⟩, hrun.trans (hone r')⟩
  | appendOperation op qubits clbits =>
    exact (appendOperation_cases op qubits clbits c).imp_right
      fun ⟨rs, hrs, _, hrun⟩ => ⟨rs, hrs, hrun⟩
  | barrier qubits =>
    refine (Edit.ofExcept_bind_cases (qubits.mapM c.content.resolveSpec) _ c).imp_right ?_
    rintro ⟨positions, hpositions, hrun⟩
    exact ⟨_, Checking.bind_eq_ok_iff.2 ⟨positions, hpositions, rfl⟩, hrun.trans (hone _)⟩
  | barrierAll => exact .inr ⟨_, rfl, hone _⟩
  | delay t qubit =>
    refine (Edit.ofExcept_bind_cases t.validate _ c).elim .inl ?_
    rintro ⟨_, -, hrun⟩
    exact (appendOperation_cases _ _ _ c).imp (fun ⟨e, he⟩ => ⟨e, hrun.trans he⟩)
      fun ⟨rs, hrs, _, he⟩ => ⟨rs, hrs, hrun.trans he⟩
  | write target value =>
    refine (Edit.ofExcept_bind_cases (Store.make target value) _ c).imp_right ?_
    rintro ⟨s, hs, hrun⟩
    exact ⟨_, Checking.bind_eq_ok_iff.2 ⟨s, hs, rfl⟩, hrun.trans (hone _)⟩
  | addVar v initial =>
    refine (addVar_cases v initial c).imp_right ?_
    rintro ⟨s, hs, -, -, hrun⟩
    refine ⟨_, Checking.bind_eq_ok_iff.2 ⟨s, hs, rfl⟩, hrun.trans ?_⟩
    simp only [first, Edit.each_singleton]
  | declare i => exact .inr ⟨[], rfl, (congrFun (bind_pure (Circuit.declare i)) c).symm⟩
  | jump j => exact .inr ⟨[], rfl, (congrFun (bind_pure (Circuit.jump j)) c).symm⟩
  | store _ | rename _ | addOuter _ _ | addLoose _ _ _ | measureAll _ | compose _ _ => cases hk

/-- If it answers, both have been done. -/
theorem run_eq_ok (hk : k.OnScope) (h : k.run c = .ok () d) :
    ∃ rs u, k.records c = .ok rs ∧ k.first c = .ok () u ∧
      Edit.each Circuit.append rs u = .ok () d := by
  rcases run_cases hk c with ⟨e, hrun⟩ | ⟨rs, hrs, hrun⟩
  · cases hrun.symm.trans h
  · obtain ⟨_, u, hfirst, hadd⟩ := Edit.bind_eq_ok_iff.1 (hrun.symm.trans h)
    exact ⟨rs, u, hrs, hfirst, hadd⟩

/-- The records hold no circuits but those that the call hands in. -/
theorem mem_circuits_of_records {rs : List Instruction} (h : k.records c = .ok rs)
    {r : Instruction} (hr : r ∈ rs) {e : Circuit} (he : e ∈ r.operation.circuits) :
    e ∈ k.circuits := by
  cases k with
  | append i =>
    cases h
    exact List.mem_singleton.1 hr ▸ he
  | appendHandles i =>
    obtain ⟨j, hj, h⟩ := Checking.bind_eq_ok_iff.1 h
    obtain ⟨_, -, hj⟩ := Checking.bind_eq_ok_iff.1 hj
    obtain ⟨_, -, hj⟩ := Checking.bind_eq_ok_iff.1 hj
    cases hj
    cases h
    rw [List.mem_singleton.1 hr] at he
    exact he
  | appendOperation op qubits clbits => exact operation_of_expand h r hr ▸ he
  | delay t qubit =>
    rw [operation_of_expand h r hr] at he
    exact he
  | barrier qubits | write target value | addVar v initial =>
    obtain ⟨_, -, h⟩ := Checking.bind_eq_ok_iff.1 h
    cases h
    rw [List.mem_singleton.1 hr] at he
    exact he
  | barrierAll =>
    cases h
    rw [List.mem_singleton.1 hr] at he
    exact he
  | store _ | rename _ | declare _ | addOuter _ _ | addLoose _ _ _ | measureAll _ | jump _
  | compose _ _ =>
    cases h
    exact absurd hr List.not_mem_nil

theorem first_keeps {P : Circuit → Prop} (hdeclare : ∀ i, (Circuit.declare i).Keeps P)
    (hjump : ∀ j, (Circuit.jump j).Keeps P) (k : Call) : k.first.Keeps P := by
  cases k with
  | addVar v initial => exact hdeclare _
  | declare i => exact hdeclare i
  | jump j => exact hjump j
  | _ => exact .pure ()

/-- What is kept by the first step of a call on the scope, and by adding records that hold no
circuits but those of the call, the call keeps. -/
theorem keeps_of_onScope {P : Circuit → Prop} (hk : k.OnScope) (hfirst : k.first.Keeps P)
    (happend : ∀ r : Instruction, (∀ e ∈ r.operation.circuits, e ∈ k.circuits) →
      (Circuit.append r).Keeps P) : k.run.Keeps P := by
  intro c d hc hd
  rw [Edit.leaves_iff] at hd
  rcases run_cases hk c with ⟨e, hrun⟩ | ⟨rs, hrs, hrun⟩
  · rw [Edit.leftBy, hrun] at hd
    exact hd ▸ hc
  · rw [Edit.leftBy, hrun] at hd
    refine Edit.Keeps.bind hfirst (fun _ => .each fun r hr => happend r ?_) c d hc
      (Edit.leaves_iff.2 hd)
    exact fun e he => mem_circuits_of_records hrs hr he

end Call

/-- The head of a builder. -/
inductive Head where
  | branch (condition : Condition)
  | loop (condition : Condition)
  | switch (target : SwitchTarget)
  | box (duration : Option Duration)

/-- Note what the head reads, and answer the block that its bodies start from. -/
def Head.run : Head → Edit Circuit Block
  | branch condition => openBranch condition
  | loop condition => openLoop condition
  | switch target => openSwitch target
  | box duration => openBox duration

/-- What uses keep, the heads of builders keep. -/
theorem Head.run_keeps {P : Circuit → Prop} (hP : ∀ u is, (useInScope u is).Keeps P) (h : Head) :
    h.run.Keeps P := by
  cases h with
  | branch condition | loop condition | switch target => exact opening_keeps hP
  | box duration => exact openBox_keeps hP

/-- The end of a builder, with the blocks of its bodies. -/
inductive Closing where
  | ifElse (condition : Condition) (t : Block) (f : Option Block)
  | whileLoop (condition : Condition) (body : Block)
  | forLoop (indices : LoopIndices) (parameter : Option Parameter) (body : Block)
  | switch (target : SwitchTarget) (arms : List BlockArm)
  | box (duration : Option Duration) (body : Block)

namespace Closing

/-- Close the blocks, and add what they become to the scope around them. -/
def run : Closing → Edit Circuit Unit
  | ifElse condition t f => closeIf condition t f
  | whileLoop condition body => closeBody .whileBody (ControlFlow.makeWhile condition) body
  | forLoop indices parameter body =>
    closeBody .forBody (fun body => .ok (.forLoop indices parameter body)) body
  | switch target arms => closeSwitch target arms
  | box duration body => closeBody .boxBody (ControlFlow.makeBox · duration) body

/-- The blocks of the bodies. -/
def blocks : Closing → List Block
  | ifElse _ t f => t :: f.toList
  | whileLoop _ body => [body]
  | forLoop _ _ body => [body]
  | switch _ arms => arms.map (·.block)
  | box _ body => [body]

end Closing

/-- A circuit that calls lead to, from a built store. Blocks are entered as builders
open them, without items, and what is closed was open on a reached circuit. -/
inductive Reachable (A : Policy) : Circuit → Prop
  | ofStore (name : String) {c : Content} : c.Built A → Reachable A ⟨name, c, []⟩
  | call {c d : Circuit} (k : Call) : Reachable A c → k.Allowed A c →
      (∀ e ∈ k.circuits, Content.Built A e.content) → k.run.Leaves c d → Reachable A d
  | head {c d : Circuit} (h : Head) : Reachable A c → h.run.Leaves c d → Reachable A d
  | enter {c : Circuit} (b : Block) : Reachable A c → b.items = [] →
      Reachable A { c with blocks := b :: c.blocks }
  | leave {c : Circuit} (depth : Nat) : Reachable A c → Reachable A (c.truncate depth)
  | close {c d : Circuit} (k : Closing) (made : Block → Circuit) : Reachable A c →
      (∀ b ∈ k.blocks, Reachable A (made b)) → (∀ b ∈ k.blocks, b ∈ (made b).blocks) →
      k.run.Leaves c d → Reachable A d

namespace Sound

theorem call {k : Call} {c d : Circuit} (hc : c.Sound A) (hk : k.Allowed A c)
    (hin : ∀ e ∈ k.circuits, Content.Built A e.content) (hd : k.run.Leaves c d) :
    d.Sound A := by
  by_cases hscope : k.OnScope
  · exact Call.keeps_of_onScope hscope (k.first_keeps declare jump)
      (fun r hr => append fun e he => hin e (hr e he)) c d hc hd
  cases k with
  | store k =>
    obtain ⟨u, hu, rfl⟩ := Edit.leaves_within_iff.1 hd
    refine hc.withContent (.call k hc.built hk (fun i hi e he => hin e ?_) hu)
    exact List.mem_flatMap.2 ⟨i, hi, he⟩
  | rename name => exact Edit.leaves_modify_iff.1 hd ▸ ⟨hc.built, hc.blocks⟩
  | addOuter i kind => exact addOuter i kind c d hc hd
  | addLoose k count stamp => exact ((addLoose k count stamp).bind fun _ => .pure ()) c d hc hd
  | measureAll stamp => exact measureAll stamp c d hc hd
  | compose source o => exact compose (hin source (List.mem_singleton.2 rfl)) o c d hc hd
  | append _ | appendHandles _ | appendOperation _ _ _ | barrier _ | barrierAll | delay _ _
  | write _ _ | addVar _ _ | declare _ | jump _ => exact absurd trivial hscope

theorem head (h : Head) : h.run.Keeps (Sound A) := h.run_keeps useInScope

theorem close {k : Closing} (h : ∀ b ∈ k.blocks, b.OfBuilt A) : k.run.Keeps (Sound A) := by
  cases k with
  | ifElse condition t f =>
    refine closeIf condition (h t List.mem_cons_self) fun b hb => ?_
    exact h b (List.mem_cons_of_mem _ (Option.mem_toList.2 hb))
  | whileLoop condition b =>
    refine closeBody (fun body flow hflow => ?_) (h b List.mem_cons_self)
    obtain ⟨-, hflow⟩ := Checking.seq_eq_ok_iff.1 hflow
    cases hflow
    rfl
  | forLoop indices parameter b =>
    refine closeBody (fun body flow hflow => ?_) (h b List.mem_cons_self)
    cases hflow
    rfl
  | switch target arms => exact closeSwitch target fun a ha => h a.block (List.mem_map_of_mem ha)
  | box duration b =>
    refine closeBody (fun body flow hflow => ?_) (h b List.mem_cons_self)
    rw [ControlFlow.makeBox_eq_ok hflow]
    rfl

end Sound

namespace Reachable

variable {c d : Circuit}

/-- A reached circuit has a built store, and its open blocks hold built circuits. -/
theorem sound (h : Reachable A c) : c.Sound A := by
  induction h with
  | ofStore name hc => exact ⟨hc, fun _ hb => absurd hb List.not_mem_nil⟩
  | call k _ hk hin hd ih => exact ih.call hk hin hd
  | head h _ hd ih => exact Sound.head h _ _ ih hd
  | enter b _ hb ih =>
    refine ⟨ih.built, fun b' hb' => ?_⟩
    rcases List.mem_cons.1 hb' with rfl | hb'
    · rw [Block.ofBuilt_iff, hb]
      exact fun i hi => absurd hi List.not_mem_nil
    · exact ih.blocks b' hb'
  | leave depth _ ih => exact ⟨ih.built, fun b hb => ih.blocks b (List.mem_of_mem_drop hb)⟩
  | close k made _ _ hmem hd ih ihmade =>
    exact Sound.close (fun b hb => (ihmade b hb).blocks b (hmem b hb)) _ _ ih hd

/-- The store of a reached circuit is built. -/
theorem built (h : Reachable A c) : c.content.Built A := h.sound.built

theorem empty (name : String) : Reachable A (Circuit.empty name) := .ofStore name .empty

theorem withSize (name : String) (numQubits numClbits stamp : Nat) :
    Reachable A (Circuit.withSize name numQubits numClbits stamp) :=
  .ofStore name (Sound.withSize name numQubits numClbits stamp).built

/-- A circuit inside a reached one can be taken out. -/
theorem inside (h : Reachable A c) (hd : d ∈ c.content.circuits) :
    Reachable A ⟨d.name, d.content, []⟩ :=
  .ofStore d.name (h.built.inside hd)

theorem copyEmpty (h : Reachable A c) (name : Option String) (mode : Content.IdentifierMode) :
    Reachable A (c.copyEmpty name mode) :=
  .ofStore _ (h.built.copyEmpty mode)

theorem compose {source : Circuit} (hsource : source.content.Built A) (o : ComposeOptions) :
    (Circuit.compose source o).Keeps (Reachable A) :=
  fun _ _ hc hd => .call (.compose source o) hc trivial
    (fun e he => by rwa [List.mem_singleton.1 he]) hd

theorem addExpanded {i : Instruction} (hi : i.OfBuilt A) :
    (Circuit.addExpanded i).Keeps (Reachable A) := by
  unfold Circuit.addExpanded
  split
  · rename_i definition _ hop
    refine compose (hi definition ?_) _
    rw [hop]
    exact List.mem_singleton.2 rfl
  · intro u v hu hv
    refine .call (.store (.push i)) hu trivial (fun e he => ?_) hv
    obtain ⟨j, hj, he⟩ := List.mem_flatMap.1 he
    exact hi e (by rwa [List.mem_singleton.1 hj] at he)

theorem decompose (h : Reachable A c) (hd : c.decompose = .ok d) : Reachable A d := by
  unfold Circuit.decompose at hd
  split at hd
  · cases hd
  · exact Edit.Keeps.finalState (.each fun i hi => addExpanded (h.built.ofBuilt hi))
      (h.copyEmpty none .alike) hd

/-- The empty circuit for a stack of two has a built store and no open blocks. -/
theorem tensorFrame_keeps (k : BitKind) (low high : Circuit) :
    (Circuit.addBitsOfBoth k low high).Keeps fun c => c.content.Built A ∧ c.blocks = [] := by
  refine .within fun c u hc hu => ⟨?_, hc.2⟩
  refine ((Edit.Keeps.each fun bit _ => ?_).bind fun _ => .each fun r _ => ?_) _ u hc.1 hu
  · exact (Content.Built.addBit bit).bind fun _ => .pure ()
  · exact Content.Built.addRegister r

theorem tensorFrame_built {high low frame : Circuit} {stamp : Nat}
    (h : tensorFrame low high stamp = .ok frame) : frame.content.Built A ∧ frame.blocks = [] := by
  unfold tensorFrame at h
  simp only at h
  split at h
  · cases h
    exact ⟨(withSize (A := A) _ _ _ _).built, rfl⟩
  · refine Edit.Keeps.finalState (P := fun c => c.content.Built A ∧ c.blocks = [])
      ((tensorFrame_keeps _ _ _).bind fun _ => ?_) ⟨.empty, rfl⟩ h
    split
    · exact .within fun c u hc hu => ⟨Content.Built.addRegister _ _ u hc.1 hu, hc.2⟩
    · exact tensorFrame_keeps _ _ _

theorem tensorFrame_reachable {high low frame : Circuit} {stamp : Nat}
    (h : tensorFrame low high stamp = .ok frame) : Reachable A frame := by
  obtain ⟨hbuilt, hblocks⟩ := tensorFrame_built (A := A) h
  obtain ⟨name, content, blocks⟩ := frame
  cases hblocks
  exact .ofStore name hbuilt

theorem tensor {high low : Circuit} {stamp : Nat} (hhigh : Reachable A high)
    (hlow : Reachable A low) (hc : Circuit.tensor high low stamp = .ok c) : Reachable A c := by
  unfold Circuit.tensor at hc
  obtain ⟨-, hc⟩ := Checking.seq_eq_ok_iff.1 hc
  obtain ⟨frame, hframe, hc⟩ := Checking.bind_eq_ok_iff.1 hc
  exact Edit.Keeps.finalState ((compose hlow.built _).bind fun _ => compose hhigh.built _)
    (tensorFrame_reachable hframe) hc

end Reachable

theorem Head.run_items {h : Head} {c d : Circuit} {b : Block} (hb : h.run c = .ok b d) :
    b.items = [] := by
  have hseeded : ∀ (content : Content) u ban,
      Block.seeded content u ban = .ok b → b.items = [] := by
    intro content u ban hb
    obtain ⟨positions, -, hb⟩ := Checking.bind_eq_ok_iff.1 hb
    cases hb
    rfl
  cases h with
  | branch condition | switch target | loop condition =>
    obtain ⟨-, u, -, hb⟩ := Edit.bind_eq_ok_iff.1 hb
    obtain ⟨-, v, -, hb⟩ := Edit.bind_eq_ok_iff.1 hb
    obtain ⟨c, w, -, hb⟩ := Edit.bind_eq_ok_iff.1 hb
    exact hseeded _ _ _ (Edit.ofExcept_eq_ok_iff.1 hb).1
  | box duration =>
    cases duration with
    | none =>
      cases hb
      rfl
    | some d =>
      obtain ⟨-, u, -, hb⟩ := Edit.bind_eq_ok_iff.1 hb
      obtain ⟨-, v, -, hb⟩ := Edit.bind_eq_ok_iff.1 hb
      cases hb
      rfl

end Circuit

/-! ## Builders -/

namespace Builder

variable {σ : Type} {at_ : Focus σ Circuit}

/-- That the part in focus is a reached circuit. -/
def Reaches (A : Policy) (at_ : Focus σ Circuit) (s : σ) : Prop := (at_.get s).Reachable A

/-- A block that was open on a reached circuit. -/
def Made (A : Policy) (b : Block) : Prop := ∃ c : Circuit, c.Reachable A ∧ b ∈ c.blocks

theorem within_reaches (hget : ∀ c s, at_.get (at_.set c s) = c) {α : Type}
    {e : Edit Circuit α} (h : e.Keeps (Circuit.Reachable A)) :
    (Edit.within at_ e).Keeps (Reaches A at_) :=
  .within fun s u hs hu => by
    unfold Reaches
    rw [hget]
    exact h _ u hs hu

theorem head_reaches (hget : ∀ c s, at_.get (at_.set c s) = c) (h : Circuit.Head) :
    (Edit.within at_ h.run).Keeps (Reaches A at_) :=
  within_reaches hget fun _ _ hc hd => .head h hc hd

theorem close_reaches (hget : ∀ c s, at_.get (at_.set c s) = c) {k : Circuit.Closing}
    (h : ∀ b ∈ k.blocks, Made A b) : (Edit.within at_ k.run).Keeps (Reaches A at_) := by
  classical
  refine within_reaches hget fun c d hc hd => ?_
  refine .close k (fun b => if hb : b ∈ k.blocks then (h b hb).choose else c) hc
    (fun b hb => ?_) (fun b hb => ?_) hd
  · rw [dif_pos hb]
    exact (h b hb).choose_spec.1
  · rw [dif_pos hb]
    exact (h b hb).choose_spec.2

/-- The state in which the body of a builder starts. -/
def entered (at_ : Focus σ Circuit) (block : Block) (s : σ) : σ :=
  at_.set { at_.get s with blocks := block :: (at_.get s).blocks } s

/-- However a body ends, what is left is what it left, perhaps with fewer blocks. -/
theorem runBlock_leaves {block : Block} {body : Edit σ Unit} {s t : σ}
    (h : (runBlock at_ block body).Leaves s t) :
    ∃ u, body.Leaves (entered at_ block s) u ∧
      (t = u ∨ ∃ depth, t = at_.set ((at_.get u).truncate depth) u) := by
  cases hbody : body (entered at_ block s) with
  | error e u =>
    refine ⟨u, .of_error hbody, .inr ⟨(at_.get s).blocks.length, ?_⟩⟩
    simp only [entered] at hbody
    rcases h with ⟨a, h⟩ | ⟨e, h⟩ <;>
      simp only [runBlock, hbody, reduceCtorEq, EStateM.Result.error.injEq] at h
    exact h.2.symm
  | ok a u =>
    refine ⟨u, .of_ok hbody, ?_⟩
    simp only [entered] at hbody
    rcases h with ⟨b, h⟩ | ⟨e, h⟩ <;> simp only [runBlock, hbody] at h <;> split at h
    · rename_i hlen
      split at h
      · rename_i top outer hblocks
        cases h
        refine .inr ⟨(at_.get s).blocks.length, ?_⟩
        -- exactly the block of the body is left to be taken away
        have hone : (at_.get u).blocks.length - (at_.get s).blocks.length = 1 := by omega
        rw [Circuit.truncate, hone, hblocks]
        rfl
      · cases h
    · cases h
    · split at h
      · cases h
      · cases h
        exact .inl rfl
    · cases h
      exact .inr ⟨_, rfl⟩

/-- The block that is answered was open when the body ended. -/
theorem runBlock_answers {block top : Block} {body : Edit σ Unit} {s t : σ}
    (h : runBlock at_ block body s = .ok top t) :
    ∃ u, body.Leaves (entered at_ block s) u ∧ top ∈ (at_.get u).blocks := by
  cases hbody : body (entered at_ block s) with
  | error e u =>
    simp only [entered] at hbody
    simp only [runBlock, hbody, reduceCtorEq] at h
  | ok a u =>
    refine ⟨u, .of_ok hbody, ?_⟩
    simp only [entered] at hbody
    simp only [runBlock, hbody] at h
    split at h
    · split at h
      · rename_i outer hblocks
        cases h
        rw [hblocks]
        exact List.mem_cons_self
      · cases h
    · cases h

section

variable (hget : ∀ c s, at_.get (at_.set c s) = c)
include hget

theorem entered_reaches {block : Block} (hblock : block.items = []) {body : Edit σ Unit}
    (hbody : body.Keeps (Reaches A at_)) {s u : σ} (hs : Reaches A at_ s)
    (hu : body.Leaves (entered at_ block s) u) : Reaches A at_ u := by
  refine hbody _ u ?_ hu
  unfold Reaches entered
  rw [hget]
  exact .enter block hs hblock

theorem runBlock_reaches {block : Block} (hblock : block.items = []) {body : Edit σ Unit}
    (hbody : body.Keeps (Reaches A at_)) : (runBlock at_ block body).Keeps (Reaches A at_) := by
  intro s t hs ht
  obtain ⟨u, hu, hend⟩ := runBlock_leaves ht
  have hreach := entered_reaches hget hblock hbody hs hu
  rcases hend with rfl | ⟨depth, rfl⟩
  · exact hreach
  · unfold Reaches
    rw [hget]
    exact .leave depth hreach

theorem runBlock_made {block top : Block} (hblock : block.items = []) {body : Edit σ Unit}
    (hbody : body.Keeps (Reaches A at_)) {s t : σ} (hs : Reaches A at_ s)
    (h : runBlock at_ block body s = .ok top t) : Made A top := by
  obtain ⟨u, hu, htop⟩ := runBlock_answers h
  exact ⟨at_.get u, entered_reaches hget hblock hbody hs hu, htop⟩

/-- A builder with one body: head, body, end. -/
theorem oneBody_reaches (h : Circuit.Head) (k : Block → Circuit.Closing)
    (hk : ∀ b, (k b).blocks = [b]) {body : Edit σ Unit} (hbody : body.Keeps (Reaches A at_)) :
    (do
      let template ← Edit.within at_ h.run
      let block ← runBlock at_ template body
      Edit.within at_ (k block).run : Edit σ Unit).Keeps (Reaches A at_) := by
  intro s t hs ht
  rcases Edit.leaves_bind_iff.1 ht with ⟨e, he⟩ | ⟨template, u, hu, ht⟩
  · exact head_reaches hget h s t hs (.of_error he)
  · have hru := head_reaches hget h s u hs (.of_ok hu)
    obtain ⟨d, hd, -⟩ := Edit.within_eq_ok_iff.1 hu
    have hitems := Circuit.Head.run_items hd
    rcases Edit.leaves_bind_iff.1 ht with ⟨e, he⟩ | ⟨b, v, hv, ht⟩
    · exact runBlock_reaches hget hitems hbody u t hru (.of_error he)
    · have hrv := runBlock_reaches hget hitems hbody u v hru (.of_ok hv)
      refine close_reaches hget (fun b' hb' => ?_) v t hrv ht
      rw [hk, List.mem_singleton] at hb'
      exact hb' ▸ runBlock_made hget hitems hbody hru hv

theorem ifTest_reachable (condition : Condition) {body : Edit σ Unit}
    (hbody : body.Keeps (Reaches A at_)) :
    (ifTest at_ condition body).Keeps (Reaches A at_) :=
  oneBody_reaches hget (.branch condition) (fun b => .ifElse condition b none) (fun _ => rfl) hbody

theorem whileLoop_reachable (condition : Condition) {body : Edit σ Unit}
    (hbody : body.Keeps (Reaches A at_)) :
    (whileLoop at_ condition body).Keeps (Reaches A at_) :=
  oneBody_reaches hget (.loop condition) (fun b => .whileLoop condition b) (fun _ => rfl) hbody

theorem box_reachable (duration : Option Duration) {body : Edit σ Unit}
    (hbody : body.Keeps (Reaches A at_)) :
    (box at_ duration body).Keeps (Reaches A at_) :=
  oneBody_reaches hget (.box duration) (fun b => .box duration b) (fun _ => rfl) hbody

theorem forLoop_reachable (indices : LoopIndices) (parameter : Option Parameter)
    {body : Edit σ Unit} (hbody : body.Keeps (Reaches A at_)) :
    (forLoop at_ indices parameter body).Keeps (Reaches A at_) := by
  intro s t hs ht
  rcases Edit.leaves_bind_iff.1 ht with ⟨e, he⟩ | ⟨b, v, hv, ht⟩
  · exact runBlock_reaches hget rfl hbody s t hs (.of_error he)
  · have hrv := runBlock_reaches hget rfl hbody s v hs (.of_ok hv)
    refine close_reaches hget (k := .forLoop indices parameter b) (fun b' hb' => ?_) v t hrv ht
    rw [List.mem_singleton.1 hb']
    exact runBlock_made hget rfl hbody hs hv

theorem ifElse_reachable (condition : Condition) {trueBody falseBody : Edit σ Unit}
    (ht : trueBody.Keeps (Reaches A at_)) (hf : falseBody.Keeps (Reaches A at_)) :
    (ifElse at_ condition trueBody falseBody).Keeps (Reaches A at_) := by
  intro s z hs hz
  rcases Edit.leaves_bind_iff.1 hz with ⟨e, he⟩ | ⟨template, u, hu, hz⟩
  · exact head_reaches hget (.branch condition) s z hs (.of_error he)
  · have hru := head_reaches hget (.branch condition) s u hs (.of_ok hu)
    obtain ⟨d, hd, -⟩ := Edit.within_eq_ok_iff.1 hu
    have hitems := Circuit.Head.run_items (h := .branch condition) hd
    rcases Edit.leaves_bind_iff.1 hz with ⟨e, he⟩ | ⟨b, v, hv, hz⟩
    · exact runBlock_reaches hget hitems ht u z hru (.of_error he)
    · have hrv := runBlock_reaches hget hitems ht u v hru (.of_ok hv)
      rcases Edit.leaves_bind_iff.1 hz with ⟨e, he⟩ | ⟨b', w, hw, hz⟩
      · exact runBlock_reaches hget hitems hf v z hrv (.of_error he)
      · have hrw := runBlock_reaches hget hitems hf v w hrv (.of_ok hw)
        refine close_reaches hget (k := .ifElse condition b (some b')) (fun x hx => ?_) w z hrw hz
        rcases List.mem_cons.1 hx with rfl | hx
        · exact runBlock_made hget hitems ht hru hv
        · rw [List.mem_singleton.1 hx]
          exact runBlock_made hget hitems hf hrv hw

/-- That the cases so far are blocks that were open on reached circuits. -/
structure MadeCases (A : Policy) (cases : SwitchCases) : Prop where
  template : cases.template.items = []
  arms : ∀ a ∈ cases.arms, Made A a.block

theorem switchCase_reachable (labels : List CaseLabel) {body : Edit σ Unit}
    (hbody : body.Keeps (Reaches A at_)) {cases : SwitchCases} (hcases : MadeCases A cases) :
    (switchCase at_ labels body cases).Keeps (Reaches A at_) ∧
      ∀ s cases' t, Reaches A at_ s → switchCase at_ labels body cases s = .ok cases' t →
        MadeCases A cases' := by
  constructor
  · refine (Edit.Keeps.ofExcept _).bind fun _ => (Edit.Keeps.ofExcept _).bind fun _ => ?_
    exact (runBlock_reaches hget hcases.template hbody).bind fun _ => .pure _
  · intro s cases' t hs h
    obtain ⟨_, -, h⟩ := Edit.ofExcept_bind_eq_ok_iff.1 h
    obtain ⟨_, -, h⟩ := Edit.ofExcept_bind_eq_ok_iff.1 h
    obtain ⟨b, v, hv, h⟩ := Edit.bind_eq_ok_iff.1 h
    cases h
    refine ⟨hcases.template, fun a ha => ?_⟩
    rcases List.mem_append.1 ha with ha | ha
    · exact hcases.arms a ha
    · rw [List.mem_singleton.1 ha]
      exact runBlock_made hget hcases.template hbody hs hv

theorem switch_reachable (target : SwitchTarget) {cases : SwitchCases → Edit σ SwitchCases}
    (hkeeps : ∀ sc, MadeCases A sc → (cases sc).Keeps (Reaches A at_))
    (hmade : ∀ sc, MadeCases A sc → ∀ s sc' t, Reaches A at_ s → cases sc s = .ok sc' t →
      MadeCases A sc') :
    (switch at_ target cases).Keeps (Reaches A at_) := by
  intro s z hs hz
  rcases Edit.leaves_bind_iff.1 hz with ⟨e, he⟩ | ⟨template, u, hu, hz⟩
  · exact head_reaches hget (.switch target) s z hs (.of_error he)
  · have hru := head_reaches hget (.switch target) s u hs (.of_ok hu)
    obtain ⟨d, hd, -⟩ := Edit.within_eq_ok_iff.1 hu
    have hnew : MadeCases A ⟨template, []⟩ :=
      ⟨Circuit.Head.run_items (h := .switch target) hd, fun a ha => absurd ha List.not_mem_nil⟩
    rcases Edit.leaves_bind_iff.1 hz with ⟨e, he⟩ | ⟨collected, v, hv, hz⟩
    · exact hkeeps _ hnew u z hru (.of_error he)
    · have hrv := hkeeps _ hnew u v hru (.of_ok hv)
      have hcollected := hmade _ hnew u collected v hru hv
      refine close_reaches hget (k := .switch target collected.arms) (fun b hb => ?_) v z hrv hz
      obtain ⟨a, ha, rfl⟩ := List.mem_map.1 hb
      exact hcollected.arms a ha

end

end Builder

end QuantumCircuit
