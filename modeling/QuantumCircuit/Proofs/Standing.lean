import QuantumCircuit.Proofs.Moving
import QuantumCircuit.Proofs.Settling

/-!
# What stands for what in a splice

While the records of a source are moved, a register is chosen or made for every register
that they read. Which one it is depends in the end on the finished list of aliases only:
it is the first register of the destination, or else the first alias, over the mapped
bits (`LeafMap.standIn`). So the moved records can be read off the finished aliases
record by record (`LeafMap.records_settle`).

Moving keeps the kind of every operation (`LeafMap.sameKind_of_operationAmong`), and the
registers that it reads are replaced one by one by those that stand for them
(`LeafMap.registers_of_operationAmong`).
-/

namespace QuantumCircuit

/-! ## Kinds of operations -/

/-- The same control flow, but for what it reads itself and for what its bodies hold. -/
inductive ControlFlow.SameKind : ControlFlow → ControlFlow → Prop
  | ifElse {c c' : Condition} {t t' : Circuit} {f f' : Option Circuit} :
      f'.isSome = f.isSome → SameKind (.ifElse c t f) (.ifElse c' t' f')
  | whileLoop {c c' : Condition} {b b' : Circuit} : SameKind (.whileLoop c b) (.whileLoop c' b')
  | forLoop {indices : LoopIndices} {parameter : Option Parameter} {b b' : Circuit} :
      SameKind (.forLoop indices parameter b) (.forLoop indices parameter b')
  | switchCase {t t' : SwitchTarget} {arms arms' : List SwitchArm} :
      arms'.map (·.labels) = arms.map (·.labels) →
      SameKind (.switchCase t arms) (.switchCase t' arms')
  | box {b b' : Circuit} {d d' : Option Duration} :
      d'.isSome = d.isSome → SameKind (.box b d) (.box b' d')
  | jump {j : Jump} {qubits clbits : Nat} :
      SameKind (.jump j qubits clbits) (.jump j qubits clbits)

/-- The same operation, but for expressions in it and for what its bodies hold. -/
inductive Operation.SameKind : Operation → Operation → Prop
  | refl {op : Operation} : SameKind op op
  | delay {d d' : Duration} : SameKind (.delay d) (.delay d')
  | store {a a' : Store} : SameKind (.store a) (.store a')
  | control {flow flow' : ControlFlow} :
      flow.SameKind flow' → SameKind (.control flow) (.control flow')

namespace ControlFlow

variable {flow flow' flow'' : ControlFlow}

theorem SameKind.trans (h : flow.SameKind flow') (h' : flow'.SameKind flow'') :
    flow.SameKind flow'' := by
  cases h with
  | ifElse h =>
    cases h' with
    | ifElse h' => exact .ifElse (h'.trans h)
  | whileLoop =>
    cases h'
    exact .whileLoop
  | forLoop =>
    cases h'
    exact .forLoop
  | switchCase h =>
    cases h' with
    | switchCase h' => exact .switchCase (h'.trans h)
  | box h =>
    cases h' with
    | box h' => exact .box (h'.trans h)
  | jump =>
    cases h'
    exact .jump

/-- Replacing leaves changes no kind. -/
theorem sameKind_of_mapLeaves {f : Expr → Except CircuitError (Option Expr)}
    (h : flow.mapLeaves f = .ok flow') : flow.SameKind flow' := by
  cases flow with
  | ifElse c t e =>
    obtain ⟨c', -, h⟩ := Checking.bind_eq_ok_iff.1 h
    cases h
    exact .ifElse rfl
  | whileLoop c b =>
    obtain ⟨c', -, h⟩ := Checking.bind_eq_ok_iff.1 h
    cases h
    exact .whileLoop
  | switchCase t arms =>
    obtain ⟨t', -, h⟩ := Checking.bind_eq_ok_iff.1 h
    cases h
    exact .switchCase rfl
  | box b d =>
    cases d with
    | none =>
      cases h
      exact .box rfl
    | some d =>
      obtain ⟨d', -, h⟩ := Checking.bind_eq_ok_iff.1 h
      cases h
      exact .box rfl
  | forLoop i p b =>
    cases h
    exact .forLoop
  | jump j q c =>
    cases h
    exact .jump

theorem sameKind_withBodies {bodies : List Circuit} (h : bodies.length = flow.bodies.length) :
    flow.SameKind (flow.withBodies bodies) := by
  cases flow with
  | ifElse c t f => cases f <;> exact .ifElse rfl
  | whileLoop c b => exact .whileLoop
  | forLoop i p b => exact .forLoop
  | switchCase t arms =>
    refine .switchCase ?_
    have hlen : arms.length = bodies.length := by simpa [ControlFlow.bodies] using h.symm
    rw [List.map_zipWith]
    exact List.ext_getElem (by simp [hlen]) fun k hk hk' => by simp
  | box b d => exact .box rfl
  | jump j q c => exact .jump

/-- New bodies, as many as before, change no kind. -/
theorem SameKind.replaceBodies {bodies : List Circuit} (hkind : flow.SameKind flow')
    (h : flow'.replaceBodies bodies = .ok flow'') : flow.SameKind flow'' := by
  have hlen : bodies.length = flow'.bodies.length := by
    unfold ControlFlow.replaceBodies at h
    split at h
    · cases h
    · exact Decidable.not_not.1 ‹_›
  rcases eq_withBodies_of_replaceBodies h with rfl | rfl
  · exact hkind.trans (sameKind_withBodies hlen)
  · exact hkind

end ControlFlow

/-! ## Registers by their bits -/

namespace LeafMap

variable {m : LeafMap} {aliases : List ClassicalRegister} {r image : ClassicalRegister}

/-- The register that stands for `r` when these are all the aliases: the first of the
destination, or else of the aliases, over the mapped bits. -/
def standIn (m : LeafMap) (aliases : List ClassicalRegister) (r : ClassicalRegister) :
    Except CircuitError ClassicalRegister := do
  let bits ← r.bits.mapM m.clbit
  match (m.registers ++ aliases).find? (·.bits == bits) with
  | some image => return image
  | none => throw (.registerNotFound r.name)

theorem standIn_eq_ok_iff :
    m.standIn aliases r = .ok image ↔ ∃ bits, r.bits.mapM m.clbit = .ok bits ∧
      (m.registers ++ aliases).find? (·.bits == bits) = some image := by
  unfold standIn
  rw [Checking.bind_eq_ok_iff]
  refine exists_congr fun bits => and_congr_right fun _ => ?_
  cases (m.registers ++ aliases).find? (·.bits == bits) <;>
    simp [pure, Except.pure, throw, throwThe, MonadExceptOf.throw]

/-- What stands for a register is there, over the bits that its bits go to. -/
theorem standIn_bits (h : m.standIn aliases r = .ok image) :
    image ∈ m.registers ++ aliases ∧
      List.Forall₂ (fun b b' => m.clbit b = .ok b') r.bits image.bits := by
  obtain ⟨bits, hbits, hfind⟩ := standIn_eq_ok_iff.1 h
  have heq : image.bits = bits := by simpa using List.find?_some hfind
  exact ⟨List.mem_of_find?_eq_some hfind, heq ▸ Checking.mapM_eq_ok_iff.1 hbits⟩

/-- Only the bits of a register count. -/
theorem standIn_congr {r' : ClassicalRegister} (hbits : r'.bits = r.bits)
    (h : m.standIn aliases r = .ok image) : m.standIn aliases r' = .ok image := by
  rw [standIn_eq_ok_iff] at h ⊢
  rwa [hbits]

/-- The register that stands for `r`; one that nothing stands for is left as it is. -/
def imageAmong (m : LeafMap) (aliases : List ClassicalRegister) (r : ClassicalRegister) :
    ClassicalRegister :=
  match m.standIn aliases r with
  | .ok found => found
  | .error _ => r

theorem imageAmong_of_standIn {found : ClassicalRegister} (h : m.standIn aliases r = .ok found) :
    m.imageAmong aliases r = found := by
  rw [imageAmong, h]

/-- Aliases that come later stand behind. -/
theorem standIn_of_prefix {later : List ClassicalRegister} (hlater : aliases <+: later)
    (h : m.standIn aliases r = .ok image) : m.standIn later r = .ok image := by
  obtain ⟨bits, hbits, hfind⟩ := standIn_eq_ok_iff.1 h
  obtain ⟨more, rfl⟩ := hlater
  refine standIn_eq_ok_iff.2 ⟨bits, hbits, ?_⟩
  rw [← List.append_assoc, List.find?_append, hfind]
  rfl

/-- That all choices so far are what the aliases so far say, and that each alias was
needed: no register of the destination has its bits. -/
structure Settled (m : LeafMap) (s : RegisterChoice) : Prop where
  chosen : ∀ e ∈ s.chosen, m.standIn s.aliases e.1 = .ok e.2
  needed : ∀ a ∈ s.aliases, ∀ q ∈ m.registers, q.bits ≠ a.bits

/-- A choice more, with the aliases it takes, leaves all choices settled. -/
theorem Settled.choose {s s' : RegisterChoice} (hs : m.Settled s)
    (hchosen : s'.chosen = s.chosen ++ [(r, image)]) (haliases : s.aliases <+: s'.aliases)
    (himage : m.standIn s'.aliases r = .ok image)
    (hneeded : ∀ a ∈ s'.aliases, ∀ q ∈ m.registers, q.bits ≠ a.bits) : m.Settled s' := by
  refine ⟨fun e he => ?_, hneeded⟩
  rw [hchosen] at he
  rcases List.mem_append.1 he with he | he
  · exact standIn_of_prefix haliases (hs.chosen e he)
  · rw [List.mem_singleton.1 he]
    exact himage

theorem register_settles (r : ClassicalRegister) :
    Settles m.Settled (·.aliases) (fun later => m.standIn later r) (m.register r) := by
  intro s image s' hs h
  cases register_chooses h with
  | before hfound hbits =>
    have hstands := standIn_congr hbits (hs.chosen _ hfound)
    exact ⟨hs, List.prefix_rfl, fun later hlater => standIn_of_prefix hlater hstands,
      fun _ _ => rfl⟩
  | there hall hequal =>
    have hstands : m.standIn s.aliases r = .ok image := standIn_eq_ok_iff.2 ⟨_, hall, hequal⟩
    exact ⟨hs.choose rfl List.prefix_rfl hstands hs.needed, List.prefix_rfl,
      fun later hlater => standIn_of_prefix hlater hstands, fun _ _ => rfl⟩
  | made hall hequal hbits _ =>
    -- nothing else has these bits, now or with the alias
    have hstands : m.standIn (s.aliases ++ [image]) r = .ok image := by
      refine standIn_eq_ok_iff.2 ⟨_, hall, ?_⟩
      rw [← List.append_assoc, List.find?_append, hequal]
      simp [hbits]
    refine ⟨hs.choose rfl (List.prefix_append _ _) hstands fun a ha q hq => ?_,
      List.prefix_append _ _, fun later hlater => standIn_of_prefix hlater hstands, fun b hb => ?_⟩
    · rcases List.mem_append.1 ha with ha | ha
      · exact hs.needed a ha q hq
      · rw [List.mem_singleton.1 ha, hbits]
        simpa using List.find?_eq_none.1 hequal q (List.mem_append_left _ hq)
    · obtain ⟨bits', hbits', hfound⟩ := standIn_eq_ok_iff.1 hb
      rw [hall] at hbits'
      cases hbits'
      rw [hequal] at hfound
      cases hfound

/-! ## Leaves, operations and records -/

/-- The leaf that stands for a leaf of the source when these are all the aliases. -/
def leafAmong (m : LeafMap) (aliases : List ClassicalRegister) :
    Expr → Except CircuitError (Option Expr)
  | .clbit bit => do return some (.clbit (← m.clbit bit))
  | .register r => do return some (.register (← m.standIn aliases r))
  | e => .ok (m.identifiers.leaf? e)

theorem leafAmong_ofIdentifier (aliases : List ClassicalRegister) (i : Identifier) :
    m.leafAmong aliases (.ofIdentifier i) = .ok (m.identifiers.leaf? (.ofIdentifier i)) := by
  cases i <;> rfl

theorem leaf_settles (e : Expr) :
    Settles m.Settled (·.aliases) (fun later => m.leafAmong later e) (m.leaf e) := by
  cases e with
  | clbit bit =>
    exact (Settles.ofExcept (m.clbit bit)).bind fun image => Settles.sequential.pure _
  | register r => exact (register_settles r).bind fun image => Settles.sequential.pure _
  | var | stretch | value | unary | binary | cast | index => exact Settles.sequential.pure _

theorem keepsLeafSorts (h : KeepsSorts m.identifiers) (aliases : List ClassicalRegister) :
    KeepsLeafSorts (m.leafAmong aliases) where
  identifier i o ho := by
    cases (leafAmong_ofIdentifier aliases i).symm.trans ho
    exact ⟨_, leaf?_ofIdentifier h i⟩
  clbit bit o ho := by
    obtain ⟨image, -, ho⟩ := Checking.bind_eq_ok_iff.1 ho
    cases ho
    exact ⟨image, rfl⟩
  register r o ho := by
    obtain ⟨image, -, ho⟩ := Checking.bind_eq_ok_iff.1 ho
    cases ho
    exact ⟨image, rfl⟩
  value v t o ho := by
    cases ho
    rfl

theorem takesPlace_leafAmong_iff {aliases : List ClassicalRegister} {r' : ClassicalRegister} :
    TakesPlace (m.leafAmong aliases) r r' ↔ m.standIn aliases r = .ok r' := by
  show (m.standIn aliases r >>= fun image => pure (some (Expr.register image))) = _ ↔ _
  cases m.standIn aliases r <;> simp [bind, Except.bind, pure, Except.pure]

/-- The operation as it stands in the destination when these are all the aliases. -/
def operationAmong (m : LeafMap) (aliases : List ClassicalRegister) :
    Operation → Except CircuitError Operation
  | .store s => do return .store (← s.mapLeaves (m.leafAmong aliases))
  | .delay d => do return .delay (← d.mapLeaves (m.leafAmong aliases))
  | .control flow => do
    let mapped ← flow.mapLeaves (m.leafAmong aliases)
    if m.identifiers.changesAny then
      let bodies ← flow.renameBodies m.identifiers
      return .control (← mapped.replaceBodies bodies)
    else return .control mapped
  | op => .ok op

/-- The record as it stands in the destination when these are all the aliases. -/
def recordAmong (m : LeafMap) (aliases : List ClassicalRegister) (p : Placement) (i : Instruction) :
    Except CircuitError Instruction := do
  let op ← m.operationAmong aliases i.operation
  return { i.remapped (fun q => p.qubits.getD q q) (fun b => p.clbits.getD b b) with
    operation := op }

section Related

variable {ι : Type} {R : (α : Type) → (ι → Except CircuitError α) → Edit RegisterChoice α → Prop}
  (hR : Sequencing R)
  (hof : m.identifiers.changesAny = true → ∀ {α : Type} (r : Except CircuitError α),
    R α (fun _ => r) (Edit.ofExcept r))
  {m' : LeafMap} (hsame : m'.identifiers = m.identifiers) {among : ι → List ClassicalRegister}
include hR hof hsame

theorem operation_related (op : Operation)
    (hleaf : ∀ x ∈ op.nodes, R _ (fun i => m.leafAmong (among i) x) (m'.leaf x)) :
    R _ (fun i => m.operationAmong (among i) op) (m'.operation op) := by
  cases op with
  | store s => exact hR.bind (s.mapLeaves_related hR hleaf) fun s' => hR.pure _
  | delay d => exact hR.bind (d.mapLeaves_related hR hleaf) fun d' => hR.pure _
  | control flow =>
    simp only [operation, operationAmong, hsame]
    refine hR.bind (flow.mapLeaves_related hR hleaf) fun mapped => ?_
    split
    · have hof := @hof ‹_›
      exact hR.bind (hof _) fun bodies => hR.bind (hof _) fun flow' => hR.pure _
    · exact hR.pure _
  | gate | custom | measure | reset | barrier => exact hR.pure _

/-- What relates the leaves relates the records. Bodies are computed, if anything is renamed. -/
theorem records_related (p : Placement) (records : List Instruction)
    (hleaf : ∀ i ∈ records, ∀ x ∈ i.operation.nodes,
      R _ (fun i => m.leafAmong (among i) x) (m'.leaf x)) :
    R _ (fun i => records.mapM (m.recordAmong (among i) p)) (m'.records p records) := by
  induction records with
  | nil => exact hR.pure _
  | cons i rest ih =>
    obtain ⟨hi, hrest⟩ := List.forall_mem_cons.1 hleaf
    have hboth := hR.bind (operation_related hR hof hsame i.operation hi) fun op =>
      hR.bind (ih hrest) fun moved => hR.pure ({ i.remapped (fun q => p.qubits.getD q q)
        (fun b => p.clbits.getD b b) with operation := op } :: moved)
    refine cast (congrArg (fun g => R _ g _) (funext fun later => ?_)) hboth
    rw [List.mapM_cons]
    simp only [recordAmong, bind_assoc, pure_bind]
    rfl

end Related

/-- The moved records are those that the finished aliases say, one by one. -/
theorem records_settle (p : Placement) (records : List Instruction) :
    Settles m.Settled (·.aliases) (fun later => records.mapM (m.recordAmong later p))
      (m.records p records) :=
  records_related Settles.sequential.sequencing (fun _ => Settles.sequential.ofExcept) rfl p records
    fun _ _ x _ => leaf_settles x

/-- How an operation of control flow is moved: its leaves first, then its bodies. -/
theorem controlAmong_eq_ok {flow : ControlFlow} {op' : Operation}
    (h : m.operationAmong aliases (.control flow) = .ok op') :
    ∃ mapped flow', flow.mapLeaves (m.leafAmong aliases) = .ok mapped ∧ op' = .control flow' ∧
      flow.SameKind flow' ∧ flow'.classicalUse = mapped.classicalUse := by
  obtain ⟨mapped, hmapped, h⟩ := Checking.bind_eq_ok_iff.1 h
  have hkind := ControlFlow.sameKind_of_mapLeaves hmapped
  split at h
  · obtain ⟨bodies, -, h⟩ := Checking.bind_eq_ok_iff.1 h
    obtain ⟨flow', hreplace, h⟩ := Checking.bind_eq_ok_iff.1 h
    cases h
    refine ⟨mapped, flow', hmapped, rfl, hkind.replaceBodies hreplace, ?_⟩
    rcases ControlFlow.eq_withBodies_of_replaceBodies hreplace with rfl | rfl
    · exact ControlFlow.classicalUse_withBodies _
    · rfl
  · cases h
    exact ⟨mapped, mapped, hmapped, rfl, hkind, rfl⟩

theorem sameKind_of_operationAmong {op op' : Operation}
    (h : m.operationAmong aliases op = .ok op') :
    op.SameKind op' := by
  cases op with
  | store a =>
    obtain ⟨a', -, h⟩ := Checking.bind_eq_ok_iff.1 h
    cases h
    exact .store
  | delay d =>
    obtain ⟨d', -, h⟩ := Checking.bind_eq_ok_iff.1 h
    cases h
    exact .delay
  | control flow =>
    obtain ⟨mapped, flow', -, rfl, hkind, -⟩ := controlAmong_eq_ok h
    exact .control hkind
  | gate | custom | measure | reset | barrier =>
    cases h
    exact .refl

/-- The registers read by a moved operation stand one by one for those read before. -/
theorem registers_of_operationAmong (hm : KeepsSorts m.identifiers) {op op' : Operation}
    (h : m.operationAmong aliases op = .ok op') :
    List.Forall₂ (fun r r' => m.standIn aliases r = .ok r') op.classicalUse.registers
      op'.classicalUse.registers := by
  have hsorts := keepsLeafSorts hm aliases
  cases op with
  | store a =>
    obtain ⟨a', ha, h⟩ := Checking.bind_eq_ok_iff.1 h
    cases h
    exact (Store.registers_of_mapLeaves hsorts ha).imp fun _ _ => takesPlace_leafAmong_iff.1
  | control flow =>
    obtain ⟨mapped, flow', hmapped, rfl, -, huse⟩ := controlAmong_eq_ok h
    show List.Forall₂ _ flow.classicalUse.registers flow'.classicalUse.registers
    rw [huse]
    exact (ControlFlow.registers_of_mapLeaves hsorts hmapped).imp
      fun _ _ => takesPlace_leafAmong_iff.1
  | delay d =>
    obtain ⟨d', -, h⟩ := Checking.bind_eq_ok_iff.1 h
    cases h
    exact .nil
  | gate | custom | measure | reset | barrier =>
    cases h
    exact .nil

end LeafMap

end QuantumCircuit
