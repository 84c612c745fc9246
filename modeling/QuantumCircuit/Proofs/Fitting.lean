import QuantumCircuit.Proofs.Listing
import QuantumCircuit.Proofs.Store

/-!
# Records that fit their store

A record fits a store when its operands are there, are as many as the operation
takes and all different, and the identifiers, clbits and registers that the
operation names are there too. That, and names that stay unambiguous, is all that
adding a record asks for (`Content.check_eq_ok_iff`).

In every built store, and in every circuit inside one, the bit lists are sound and
all records fit (`Content.Built.orderly`).
-/

namespace QuantumCircuit

/-! ## Identifier tables -/

namespace IdentifierTable

variable {t t' : IdentifierTable} {i j : Identifier} {kind : IdentifierKind}

theorem get?_eq_none_of_check (h : t.check i kind = .ok ()) : t.get? i.name = none := by
  unfold check at h
  cases hget : t.get? i.name with
  | none => rfl
  | some found =>
    rw [hget] at h
    simp only at h
    split at h <;> cases h

theorem added_eq_ok_iff :
    t.added i kind = .ok t' ↔ t.check i kind = .ok () ∧ t.insert i kind = t' := by
  unfold added
  rw [Checking.seq_eq_ok_iff]
  simp [pure, Except.pure]

@[simp] theorem entries_insert :
    (t.insert i kind).entries = Assoc.insert i.name (i, kind) t.entries := by
  unfold insert count
  cases i <;> cases kind <;> rfl

theorem not_mem_names_iff {name : String} : t.get? name = none ↔ name ∉ t.names := by
  rw [get?, Option.map_eq_none_iff, Assoc.find?_eq_none_iff]
  rfl

theorem hasName_iff {name : String} : t.hasName name ↔ name ∈ t.names :=
  Assoc.contains_iff_mem_keys name t.entries

/-- An identifier is there if it is what its name finds. -/
theorem contains_iff_find? :
    t.contains i ↔ ∃ kind, Assoc.find? i.name t.entries = some (i, kind) := by
  unfold contains kind?
  cases Assoc.find? i.name t.entries with
  | none => simp
  | some e =>
    obtain ⟨found, kind⟩ := e
    by_cases heq : found = i <;> simp [heq]

theorem mem_names_of_contains (h : t.contains i) : i.name ∈ t.names := by
  obtain ⟨kind, hfound⟩ := contains_iff_find?.1 h
  exact List.mem_map_of_mem (f := Prod.fst) (Assoc.mem_of_find? hfound)

theorem toList_insert (h : t.get? i.name = none) :
    (t.insert i kind).toList = t.toList ++ [(i, kind)] := by
  have hmem : i.name ∉ Assoc.keys t.entries := not_mem_names_iff.1 h
  rw [toList, entries_insert, Assoc.insert_of_not_mem hmem, List.map_append]
  rfl

theorem names_insert (h : t.get? i.name = none) :
    (t.insert i kind).names = t.names ++ [i.name] := by
  have hmem : i.name ∉ Assoc.keys t.entries := not_mem_names_iff.1 h
  rw [names, entries_insert, Assoc.keys_insert, if_neg hmem]
  rfl

theorem contains_insert_iff (h : t.get? i.name = none) :
    (t.insert i kind).contains j ↔ t.contains j ∨ j = i := by
  have hnone : Assoc.find? i.name t.entries = none :=
    (Assoc.find?_eq_none_iff _ _).2 (not_mem_names_iff.1 h)
  rw [contains_iff_find?, contains_iff_find?, entries_insert, Assoc.find?_insert]
  by_cases hname : i.name = j.name
  · rw [if_pos hname, ← hname, hnone]
    simp [eq_comm]
  · have hne : j ≠ i := fun heq => hname (heq ▸ rfl)
    simp [hname, hne]

/-- An identifier that is found stands in the list, with the kind it has. -/
theorem mem_toList_of_contains (h : t.contains i) : ∃ kind, (i, kind) ∈ t.toList := by
  obtain ⟨kind, hfound⟩ := contains_iff_find?.1 h
  exact ⟨kind, List.mem_map.2 ⟨_, Assoc.mem_of_find? hfound, rfl⟩⟩

end IdentifierTable

/-! ## What operations name -/

/-- What an operation may name without having it as an operand. -/
structure Surroundings where
  identifiers : Identifier → Prop
  clbits : Clbit → Prop
  registers : ClassicalRegister → Prop

/-- What is there in the store. -/
def Content.surroundings (c : Content) : Surroundings where
  identifiers i := c.identifiers.contains i
  clbits bit := bit ∈ c.clbits.bits
  registers r := c.clbits.hasRegister r

/-- That the surroundings hold all identifiers, clbits and registers listed. -/
structure Surroundings.Cover (S : Surroundings) (identifiers : List Identifier)
    (use : ClassicalUse) : Prop where
  identifiers : ∀ i ∈ identifiers, S.identifiers i
  clbits : ∀ bit ∈ use.clbits, S.clbits bit
  registers : ∀ r ∈ use.registers, S.registers r

/-- The operation names nothing else. -/
abbrev Operation.ReadsOnly (S : Surroundings) (op : Operation) : Prop :=
  S.Cover op.identifiers op.classicalUse

/-- The record has its operands and all that it names in the store. -/
structure Instruction.Fits (c : Content) (i : Instruction) : Prop where
  qubits : ∀ q ∈ i.qubits, q < c.numQubits
  clbits : ∀ b ∈ i.clbits, b < c.numClbits
  qubitCount : i.qubits.length = i.operation.numQubits
  clbitCount : i.clbits.length = i.operation.numClbits
  qubitsNodup : i.qubits.Nodup
  clbitsNodup : i.clbits.Nodup
  reads : i.operation.ReadsOnly c.surroundings

namespace Instruction

variable {i : Instruction} {c : Content}

/-- The number of operands makes no difference. -/
theorem repeated?_eq (operands : List Nat) :
    repeated? operands = Distinct.firstRepeat? operands := by
  unfold repeated?
  split
  · exact Distinct.firstRepeatInPlace?_eq operands
  · rfl

theorem checkUnique_eq_ok_iff {kind : BitKind} {operation : String} {operands : List Nat} :
    checkUnique kind operation operands = .ok () ↔ operands.Nodup := by
  rw [← Distinct.firstRepeat?_eq_none_iff, ← repeated?_eq]
  unfold checkUnique
  cases repeated? operands <;> simp

theorem checkCounts_eq_ok_iff {op : Operation} {qubits clbits : Nat} :
    checkCounts op qubits clbits = .ok () ↔ qubits = op.numQubits ∧ clbits = op.numClbits := by
  unfold checkCounts
  split
  · simp [*]
  · split
    · simp [*]
    · simp_all

theorem checkShape_eq_ok_iff :
    i.checkShape = .ok () ↔ (i.qubits.length = i.operation.numQubits ∧
      i.clbits.length = i.operation.numClbits) ∧ i.qubits.Nodup ∧ i.clbits.Nodup := by
  unfold checkShape
  rw [Checking.seq_eq_ok_iff, Checking.seq_eq_ok_iff, checkCounts_eq_ok_iff, checkUnique_eq_ok_iff,
    checkUnique_eq_ok_iff]

end Instruction

namespace Content

variable {c d : Content} {i : Instruction}

theorem checkOperands_eq_ok_iff :
    c.checkOperands i = .ok () ↔ ((∀ q ∈ i.qubits, q < c.numQubits) ∧
      ∀ b ∈ i.clbits, b < c.numClbits) ∧ i.checkShape = .ok () := by
  have hposition : ∀ {k : BitKind} (l : BitList k) (n : Nat),
      l.checkPosition n = .ok () ↔ n < l.size := by
    intro k l n
    unfold BitList.checkPosition
    split <;> simp [*]
  unfold checkOperands
  rw [Checking.seq_eq_ok_iff, Checking.seq_eq_ok_iff, checkEach_eq_ok_iff, checkEach_eq_ok_iff,
    and_assoc]
  simp only [hposition]
  rfl

theorem checkDeclared_eq_ok_iff {j : Identifier} :
    c.checkDeclared [] j = .ok () ↔ c.identifiers.contains j := by
  unfold checkDeclared
  split <;> simp_all

theorem checkRegister_eq_ok_iff {r : ClassicalRegister} :
    c.checkRegister r = .ok () ↔ c.clbits.hasRegister r := by
  unfold checkRegister
  split <;> simp [*]

theorem resolve_eq_ok_iff (h : c.clbits.Sound) {bit : Clbit} {operation : Option String} :
    (do let _ ← c.clbits.resolve bit operation : Except CircuitError Unit) = .ok () ↔
      bit ∈ c.clbits.bits := by
  rw [← h.contains_iff]
  unfold BitList.resolve BitList.indexOf? BitList.contains
  cases c.clbits.find? bit <;> simp [bind, Except.bind, pure, Except.pure]

/-- What adding a record asks for. -/
theorem check_eq_ok_iff (h : c.clbits.Sound) :
    c.check i = .ok () ↔
      i.Fits c ∧ c.table.check (i.operation.freeParameters.map (·.2)) = .ok () := by
  unfold check checkWith
  simp only
  rw [Checking.seq_eq_ok_iff, Checking.seq_eq_ok_iff, Checking.seq_eq_ok_iff,
    Checking.seq_eq_ok_iff, checkOperands_eq_ok_iff, Instruction.checkShape_eq_ok_iff]
  simp only [checkEach_eq_ok_iff, checkDeclared_eq_ok_iff, checkRegister_eq_ok_iff,
    resolve_eq_ok_iff h]
  constructor
  · rintro ⟨⟨⟨hq, hb⟩, ⟨hqc, hbc⟩, hqn, hbn⟩, htable, hi, hu, hr⟩
    exact ⟨⟨hq, hb, hqc, hbc, hqn, hbn, hi, hu, hr⟩, htable⟩
  · rintro ⟨⟨hq, hb, hqc, hbc, hqn, hbn, hi, hu, hr⟩, htable⟩
    exact ⟨⟨⟨hq, hb⟩, ⟨hqc, hbc⟩, hqn, hbn⟩, htable, hi, hu, hr⟩

/-! ## Adding an identifier -/

section Identifiers

variable {i : Identifier} {kind : IdentifierKind}

/-- A new identifier has the name of no classical register and of no other identifier. -/
theorem checkIdentifier_eq_ok_iff : c.checkIdentifier i kind = .ok () ↔
    (c.clbits.register? i.name).isSome = false ∧ c.identifiers.check i kind = .ok () := by
  unfold checkIdentifier
  cases (c.clbits.register? i.name).isSome <;> simp

theorem get?_eq_none_of_checkIdentifier (h : c.checkIdentifier i kind = .ok ()) :
    c.identifiers.get? i.name = none :=
  IdentifierTable.get?_eq_none_of_check (checkIdentifier_eq_ok_iff.1 h).2

/-- An identifier comes in if it passes the check, and nothing happens if not. -/
theorem addIdentifier_apply :
    addIdentifier i kind c = match c.checkIdentifier i kind with
      | .ok () => .ok () { c with identifiers := c.identifiers.insert i kind }
      | .error e => .error e c := by
  rw [addIdentifier, Edit.get_bind_apply]
  cases hcheck : c.checkIdentifier i kind with
  | error e => rfl
  | ok u =>
    have htable := (checkIdentifier_eq_ok_iff.1 hcheck).2
    refine (Edit.bind_apply_of_ok (Edit.ofExcept_eq_ok_iff.2 ⟨rfl, rfl⟩)).trans ?_
    refine Edit.within_eq_ok_iff.2 ⟨_, Edit.update_eq_ok_iff.2 ?_, rfl⟩
    exact IdentifierTable.added_eq_ok_iff.2 ⟨htable, rfl⟩

theorem addIdentifier_eq_ok_iff :
    addIdentifier i kind c = .ok () d ↔ c.checkIdentifier i kind = .ok () ∧
      d = { c with identifiers := c.identifiers.insert i kind } := by
  rw [addIdentifier_apply]
  cases c.checkIdentifier i kind <;> simp [eq_comm]

theorem addIdentifier_eq_error_iff {e : CircuitError} :
    addIdentifier i kind c = .error e d ↔ c.checkIdentifier i kind = .error e ∧ d = c := by
  rw [addIdentifier_apply]
  cases c.checkIdentifier i kind <;> simp [eq_comm]

end Identifiers

/-! ## The invariant -/

/-- That nothing is there in `c` which is not there in `d`. -/
structure Within (c d : Content) : Prop where
  qubits : c.qubits.Extends d.qubits
  clbits : c.clbits.Extends d.clbits
  identifiers : ∀ i, c.identifiers.contains i → d.identifiers.contains i

/-- Sound bit lists, and records that fit. -/
structure Orderly (c : Content) : Prop where
  qubits : c.qubits.Sound
  clbits : c.clbits.Sound
  fits : ∀ i ∈ c.records, i.Fits c

end Content

theorem Instruction.Fits.within {c d : Content} {i : Instruction} (h : i.Fits c)
    (hcd : c.Within d) : i.Fits d where
  qubits q hq := Nat.lt_of_lt_of_le (h.qubits q hq) hcd.qubits.size_le
  clbits b hb := Nat.lt_of_lt_of_le (h.clbits b hb) hcd.clbits.size_le
  qubitCount := h.qubitCount
  clbitCount := h.clbitCount
  qubitsNodup := h.qubitsNodup
  clbitsNodup := h.clbitsNodup
  reads :=
    { identifiers := fun i hi => hcd.identifiers i (h.reads.identifiers i hi)
      clbits := fun bit hbit => hcd.clbits.bits.subset (h.reads.clbits bit hbit)
      registers := fun r hr => hcd.clbits.hasRegister (h.reads.registers r hr) }

namespace Content

variable {c d : Content}

namespace Orderly

/-- The store has grown, its records have not. -/
theorem grow (h : c.Orderly) (hcd : c.Within d) (hqubits : d.qubits.Sound)
    (hclbits : d.clbits.Sound) (hrecords : ∀ i ∈ d.records, i ∈ c.records) : d.Orderly :=
  ⟨hqubits, hclbits, fun i hi => (h.fits i (hrecords i hi)).within hcd⟩

/-- Only bits, registers, identifiers and records matter. -/
theorem congr (h : c.Orderly) (hqubits : d.qubits = c.qubits) (hclbits : d.clbits = c.clbits)
    (hidentifiers : d.identifiers = c.identifiers) (hrecords : ∀ i ∈ d.records, i ∈ c.records) :
    d.Orderly := by
  refine h.grow ⟨?_, ?_, ?_⟩ ?_ ?_ hrecords
  · exact hqubits ▸ .refl _
  · exact hclbits ▸ .refl _
  · exact fun _ => hidentifiers ▸ id
  · exact hqubits ▸ h.qubits
  · exact hclbits ▸ h.clbits

theorem withBits {k : BitKind} {l : BitList k} (h : c.Orderly)
    (hl : ((bitFocus k).get c).Extends l) (hsound : l.Sound) :
    ((bitFocus k).set l c).Orderly := by
  cases k with
  | quantum => exact h.grow ⟨hl, .refl _, fun _ hi => hi⟩ hsound h.clbits fun _ hi => hi
  | classical => exact h.grow ⟨.refl _, hl, fun _ hi => hi⟩ h.qubits hsound fun _ hi => hi

theorem bits (h : c.Orderly) (k : BitKind) : ((bitFocus k).get c).Sound := by
  cases k with
  | quantum => exact h.qubits
  | classical => exact h.clbits

/-- An edit of the bits of one kind that keeps them sound and takes none away. -/
theorem within {α : Type} {k : BitKind} {e : Edit (BitList k) α}
    (hsound : e.Keeps BitList.Sound) (hext : ∀ l l', e.Leaves l l' → l.Extends l') :
    (Edit.within (bitFocus k) e).Keeps Orderly :=
  .within fun _ u hc hu => hc.withBits (hext _ u hu) (hsound _ u (hc.bits k) hu)

theorem addBit {k : BitKind} (bit : Bit k) : (Content.addBit bit).Keeps Orderly :=
  within (.add bit true) fun _ _ => .add_leaves

theorem addRegister {k : BitKind} (r : Register k) : (Content.addRegister r).Keeps Orderly := by
  have hwithin : (Edit.within (bitFocus k) (BitList.addRegister r)).Keeps Orderly :=
    within (BitList.addRegister_keeps_sound r) fun l l' hl =>
      BitList.addRegister_keeps_extends l r l l' (.refl l) hl
  cases k with
  | quantum => exact hwithin
  | classical => exact .read fun _ => (Edit.Keeps.ofExcept _).bind fun _ => hwithin

theorem addIdentifier (i : Identifier) (kind : IdentifierKind) :
    (Content.addIdentifier i kind).Keeps Orderly := by
  refine .read fun _ => (Edit.Keeps.ofExcept _).bind fun _ => .within fun c u hc hu => ?_
  rcases Edit.leaves_update_iff.1 hu with hu | ⟨-, rfl⟩
  · obtain ⟨hcheck, rfl⟩ := IdentifierTable.added_eq_ok_iff.1 hu
    have hnone := IdentifierTable.get?_eq_none_of_check hcheck
    refine hc.grow ⟨.refl _, .refl _, fun j hj => ?_⟩ hc.qubits hc.clbits fun _ hi => hi
    exact (IdentifierTable.contains_insert_iff hnone).2 (.inl hj)
  · exact hc.congr rfl rfl rfl fun _ hi => hi

/-- Records that fit may come in, in any order. -/
theorem withRecords (h : c.Orderly) {records : List Instruction}
    (hrecords : ∀ i ∈ records, i ∈ c.records ∨ i.Fits c) (hqubits : d.qubits = c.qubits)
    (hclbits : d.clbits = c.clbits) (hidentifiers : d.identifiers = c.identifiers)
    (hd : d.records = records) : d.Orderly := by
  have hsame : c.Within d := ⟨hqubits ▸ .refl _, hclbits ▸ .refl _, fun _ => hidentifiers ▸ id⟩
  refine ⟨hqubits ▸ h.qubits, hclbits ▸ h.clbits, fun i hi => ?_⟩
  rcases hrecords i (hd ▸ hi) with hi | hi
  · exact (h.fits i hi).within hsame
  · exact hi.within hsame

end Orderly

/-- An assignment leaves bits, registers and identifiers as they are. -/
theorem assign_frame {s : Binding Float} (h : c.assign s = .ok d) :
    d.qubits = c.qubits ∧ d.clbits = c.clbits ∧ d.identifiers = c.identifiers := by
  obtain ⟨-, assigned, -, rfl⟩ := assign_eq_ok_iff.1 h
  obtain ⟨_, _, heq⟩ := c.exists_reassigned_eq s assigned
  rw [heq]
  exact ⟨rfl, rfl, rfl⟩

end Content

namespace ControlFlow

/-- The width of a jump, which has no bodies to take it from. -/
def jumpWidth? : ControlFlow → Option (Nat × Nat)
  | jump _ qubits clbits => some (qubits, clbits)
  | _ => none

variable {flow flow' : ControlFlow}

theorem numQubits_eq : flow.numQubits =
    (flow.jumpWidth?.map (·.1)).getD ((flow.bodies.head?.map (·.numQubits)).getD 0) := by
  cases flow <;> rfl

theorem numClbits_eq : flow.numClbits =
    (flow.jumpWidth?.map (·.2)).getD ((flow.bodies.head?.map (·.numClbits)).getD 0) := by
  cases flow <;> rfl

/-- The width is that of the jump, or of the first body. -/
theorem width_congr {R : Circuit → Circuit → Prop} (hjump : flow'.jumpWidth? = flow.jumpWidth?)
    (hbodies : List.Forall₂ R flow.bodies flow'.bodies)
    (hR : ∀ b b', R b b' → b'.numQubits = b.numQubits ∧ b'.numClbits = b.numClbits) :
    flow'.numQubits = flow.numQubits ∧ flow'.numClbits = flow.numClbits := by
  rw [numQubits_eq, numQubits_eq, numClbits_eq, numClbits_eq, hjump]
  generalize flow.bodies = bodies at hbodies ⊢
  generalize flow'.bodies = bodies' at hbodies ⊢
  cases hbodies with
  | nil => exact ⟨rfl, rfl⟩
  | cons hfirst _ => simp [hR _ _ hfirst]

theorem jumpWidth?_assign {s : Binding Float} (h : flow.assign s = .ok flow') :
    flow'.jumpWidth? = flow.jumpWidth? := by
  cases flow with
  | ifElse c t f =>
    obtain ⟨t', -, h⟩ := Checking.bind_eq_ok_iff.1 h
    obtain ⟨f', -, h⟩ := Checking.bind_eq_ok_iff.1 h
    cases h
    rfl
  | whileLoop c b =>
    obtain ⟨b', -, h⟩ := Checking.bind_eq_ok_iff.1 h
    cases h
    rfl
  | forLoop i p b =>
    cases p <;>
    · obtain ⟨b', -, h⟩ := Checking.bind_eq_ok_iff.1 h
      cases h
      rfl
  | switchCase t arms =>
    obtain ⟨arms', -, h⟩ := Checking.bind_eq_ok_iff.1 h
    cases h
    rfl
  | box b d =>
    obtain ⟨b', -, h⟩ := Checking.bind_eq_ok_iff.1 h
    cases h
    rfl
  | jump j q c =>
    cases h
    rfl

end ControlFlow

/-- An assigned operation takes as many operands and names the same things. -/
theorem Operation.assign_outside {s : Binding Float} {op op' : Operation}
    (h : op.assign s = .ok op') :
    op'.numQubits = op.numQubits ∧ op'.numClbits = op.numClbits ∧
      op'.identifiers = op.identifiers ∧ op'.classicalUse = op.classicalUse := by
  cases op with
  | control flow =>
    obtain ⟨flow', hflow, h⟩ := Checking.bind_eq_ok_iff.1 h
    cases h
    obtain ⟨hbodies, -, hown, huse, -⟩ := ControlFlow.assign_eq_ok hflow
    have hassigned : List.Forall₂ (fun b b' : Circuit => b.assign (flow.innerBinding s) = .ok b')
        flow.bodies flow'.bodies := List.forall₂_map_left_iff.1 hbodies
    have hframe : ∀ b b' : Circuit, b.assign (flow.innerBinding s) = .ok b' →
        b'.content.qubits = b.content.qubits ∧ b'.content.clbits = b.content.clbits ∧
          b'.content.identifiers = b.content.identifiers := fun b b' hb =>
      Content.assign_frame (Circuit.assign_eq_ok_iff.1 hb).1
    -- widths and identifiers of control flow are those of its bodies, which assigning keeps
    obtain ⟨hqubits, hclbits⟩ := ControlFlow.width_congr (ControlFlow.jumpWidth?_assign hflow)
      hassigned fun b b' hb => by
        obtain ⟨hq, hc, -⟩ := hframe b b' hb
        exact ⟨congrArg BitList.size hq, congrArg BitList.size hc⟩
    refine ⟨hqubits, hclbits, ?_, huse⟩
    show Distinct.union _ _ = Distinct.union _ _
    rw [hown]
    congr 1
    refine Checking.flatMap_congr hassigned fun b b' hb => ?_
    rw [(hframe b b' hb).2.2]
  | custom o =>
    obtain ⟨o', ho, h⟩ := Checking.bind_eq_ok_iff.1 h
    cases h
    obtain ⟨definition, -, rfl⟩ := CustomOp.assign_eq_ok ho
    exact ⟨rfl, rfl, rfl, rfl⟩
  | gate g =>
    cases h
    cases g <;> exact ⟨rfl, rfl, rfl, rfl⟩
  | measure | reset | barrier w | delay d | store a =>
    cases h
    exact ⟨rfl, rfl, rfl, rfl⟩

/-- A record still fits once its operation has been assigned. -/
theorem Instruction.Fits.assign {s : Binding Float} {c : Content} {i : Instruction}
    {op : Operation} (h : i.Fits c) (hop : i.operation.assign s = .ok op) :
    Instruction.Fits c { i with operation := op } := by
  obtain ⟨hqubits, hclbits, hidentifiers, huse⟩ := Operation.assign_outside hop
  refine ⟨h.qubits, h.clbits, h.qubitCount.trans hqubits.symm, h.clbitCount.trans hclbits.symm,
    h.qubitsNodup, h.clbitsNodup, ?_⟩
  exact ⟨hidentifiers ▸ h.reads.identifiers, huse ▸ h.reads.clbits, huse ▸ h.reads.registers⟩

namespace Content

theorem Orderly.assign {s : Binding Float} {c d : Content} (h : c.Orderly)
    (hd : c.assign s = .ok d) : d.Orderly := by
  obtain ⟨hqubits, hclbits, hidentifiers⟩ := assign_frame hd
  refine ⟨hqubits ▸ h.qubits, hclbits ▸ h.clbits, fun i' hi' => ?_⟩
  have hwithin : c.Within d := ⟨hqubits ▸ .refl _, hclbits ▸ .refl _, fun _ => hidentifiers ▸ id⟩
  obtain ⟨-, assigned, hassigned, rfl⟩ := assign_eq_ok_iff.1 hd
  rw [reassigned_records] at hi'
  obtain ⟨hlength, hat⟩ := Instruction.assignList_eq_ok hassigned
  obtain ⟨k, hk⟩ := List.getElem?_of_mem hi'
  have hlt : k < c.records.length := hlength ▸ (List.getElem?_eq_some_iff.1 hk).1
  obtain ⟨op, rfl, hop⟩ := hat k _ _ (List.getElem?_eq_getElem hlt) hk
  have hfits := (h.fits _ (List.getElem_mem hlt)).within hwithin
  rcases hop with ⟨-, hop⟩ | ⟨-, rfl⟩
  · exact hfits.assign hop
  · generalize c.records[k] = i at hfits ⊢
    obtain ⟨operation, qubits, clbits, label⟩ := i
    exact hfits

theorem orderly_invariant : Invariant .any Orderly where
  empty := ⟨BitList.sound_empty, BitList.sound_empty, fun _ hi => absurd hi List.not_mem_nil⟩
  addBit := .addBit
  addRegister := .addRegister
  addIdentifier := .addIdentifier
  snoc c i hc hi := by
    refine hc.withRecords (fun j hj => ?_) rfl rfl rfl rfl
    rcases List.mem_append.1 hj with hj | hj
    · exact .inl hj
    · rw [List.mem_singleton.1 hj]
      exact .inr ((check_eq_ok_iff hc.clbits).1 hi).1
  front c front hc hfront _ := by
    refine hc.withRecords (fun j hj => ?_) rfl rfl rfl rfl
    rcases List.mem_append.1 hj with hj | hj
    · exact .inr ((check_eq_ok_iff hc.clbits).1 (hfront j hj)).1
    · exact .inl hj
  pop c i d hc hd := by
    obtain ⟨-, rfl⟩ := pop?_eq_some_iff.1 hd
    exact hc.congr rfl rfl rfl fun j hj => List.dropLast_subset _ hj
  clear c hc := hc.congr rfl rfl rfl fun j hj => absurd hj List.not_mem_nil
  setPhase phase c d hc hd := by
    rcases setPhase_leaves hd with rfl | rfl <;> exact hc.congr rfl rfl rfl fun _ hi => hi
  setDuration t c hc := hc.congr rfl rfl rfl fun _ hi => hi
  listParameters c d hc hd := by
    obtain rfl := listParameters_leaves_iff.1 hd
    exact hc.congr rfl rfl rfl fun _ hi => hi
  copyEmpty c mode hc := ⟨hc.qubits, hc.clbits, fun _ hi => absurd hi List.not_mem_nil⟩
  assign c s d hc _ hd := hc.assign hd

/-- Built stores are orderly. -/
theorem Built.orderly {A : Policy} {c : Content} (h : c.Built A) : c.Orderly :=
  (h.everywhere_any orderly_invariant).here

end Content

end QuantumCircuit
