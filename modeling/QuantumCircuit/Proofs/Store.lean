import QuantumCircuit.Proofs.Keeping
import QuantumCircuit.Proofs.Nesting

/-!
# Stores built by calls

A content is reached from the empty one by calls, each of which may answer or be
refused (`Content.Built`). The operations handed to a call hold circuits that
are built in the same way, and so is every circuit taken out of a record. A policy
says which assignments may be made; `Policy.any` allows all.

An invariant of stores is a property that every call keeps (`Content.Invariant`).
It holds of every built store, and of all circuits inside it
(`Content.Built.everywhere`).
-/

namespace QuantumCircuit

/-- Which assignments may be made to which contents. -/
abbrev Policy := Content → Binding Float → Prop

/-- All assignments may be made. -/
def Policy.any : Policy := fun _ _ => True

namespace Content

/-- A call on a store. -/
inductive Call where
  | addBit (k : BitKind) (bit : Bit k)
  | addRegister (k : BitKind) (r : Register k)
  | addIdentifier (i : Identifier) (kind : IdentifierKind)
  | push (i : Instruction)
  | insertFront (front : List Instruction)
  | pop
  | clear
  | setPhase (phase : Angle)
  | setDuration (d : Option UInt64)
  | listParameters
  | copyEmpty (mode : IdentifierMode)
  | assign (s : Binding Float) (strict : Bool)

namespace Call

/-- Make the call. What it answers is left out. -/
def run : Call → Edit Content Unit
  | addBit _ bit => do let _ ← Content.addBit bit
  | addRegister _ r => Content.addRegister r
  | addIdentifier i kind => Content.addIdentifier i kind
  | push i => Content.push i
  | insertFront front => Content.insertFront front
  | pop => modify fun c => (c.pop?.map (·.2)).getD c
  | clear => modify Content.clear
  | setPhase phase => Content.setPhase phase
  | setDuration d => modify (Content.setDuration d)
  | listParameters => do let _ ← Content.listParameters
  | copyEmpty mode => modify (·.copyEmpty mode)
  | assign s strict => assignParameters s strict

/-- The records that the call hands in. -/
def records : Call → List Instruction
  | push i => [i]
  | insertFront front => front
  | _ => []

/-- Whether the policy allows the call. -/
def Allowed (A : Policy) (c : Content) : Call → Prop
  | assign s _ => A c s
  | _ => True

end Call

/-- A store that calls make out of the empty one, and any circuit inside such a store. -/
inductive Built (A : Policy) : Content → Prop
  | empty : Built A .empty
  | call {c d : Content} (k : Call) : Built A c → k.Allowed A c →
      (∀ i ∈ k.records, ∀ e ∈ i.operation.circuits, Built A e.content) →
      k.run.Leaves c d → Built A d
  | inside {c : Content} {d : Circuit} : Built A c → d ∈ c.circuits → Built A d.content

/-- A property that every call keeps; of an assignment, `T` may be relied on. -/
structure Invariant (T : Policy) (P : Content → Prop) : Prop where
  empty : P .empty
  addBit : ∀ {k : BitKind} (bit : Bit k), (Content.addBit bit).Keeps P
  addRegister : ∀ {k : BitKind} (r : Register k), (Content.addRegister r).Keeps P
  addIdentifier : ∀ i kind, (Content.addIdentifier i kind).Keeps P
  snoc : ∀ c i, P c → c.check i = .ok () → P (c.snoc i)
  front : ∀ (c : Content) front, P c → (∀ i ∈ front, c.check i = .ok ()) →
    c.table.check (front.flatMap fun i => i.operation.freeParameters.map (·.2)) = .ok () →
    P (c.withRecords (front ++ c.records))
  pop : ∀ c i d, P c → c.pop? = some (i, d) → P d
  clear : ∀ c, P c → P c.clear
  setPhase : ∀ phase, (Content.setPhase phase).Keeps P
  setDuration : ∀ d c, P c → P (Content.setDuration d c)
  listParameters : Content.listParameters.Keeps P
  copyEmpty : ∀ c mode, P c → P (c.copyEmpty mode)
  assign : ∀ c s d, P c → T c s → c.assign s = .ok d → P d

/-! ## What one call does -/

section Focus

variable {k : BitKind} (l : BitList k) (c : Content)

@[simp] theorem bitFocus_set_records : ((bitFocus k).set l c).records = c.records := by
  cases k <;> rfl

@[simp] theorem bitFocus_set_table : ((bitFocus k).set l c).table = c.table := by
  cases k <;> rfl

@[simp] theorem bitFocus_set_phase : ((bitFocus k).set l c).phase = c.phase := by
  cases k <;> rfl

@[simp] theorem bitFocus_set_identifiers :
    ((bitFocus k).set l c).identifiers = c.identifiers := by
  cases k <;> rfl

end Focus

/-- What adding a bit leaves behind: the bits of its kind may have changed. -/
theorem addBit_leaves {k : BitKind} {bit : Bit k} {c d : Content}
    (h : (addBit bit).Leaves c d) : ∃ l, d = (bitFocus k).set l c := by
  obtain ⟨l, -, rfl⟩ := Edit.leaves_within_iff.1 h
  exact ⟨l, rfl⟩

/-- What adding a register leaves behind: the bits of its kind may have changed. -/
theorem addRegister_leaves {k : BitKind} {r : Register k} {c d : Content}
    (h : (addRegister r).Leaves c d) : ∃ l, d = (bitFocus k).set l c := by
  cases k with
  | quantum =>
    obtain ⟨l, -, rfl⟩ := Edit.leaves_within_iff.1 h
    exact ⟨l, rfl⟩
  | classical =>
    simp only [addRegister, Edit.leaves_get_bind_iff] at h
    rcases Edit.leaves_ofExcept_bind_iff.1 h with ⟨_, -, h⟩ | ⟨-, rfl⟩
    · obtain ⟨l, -, rfl⟩ := Edit.leaves_within_iff.1 h
      exact ⟨l, rfl⟩
    · exact ⟨d.clbits, by cases d; rfl⟩

/-- What adding an identifier leaves behind: the identifiers may have changed. -/
theorem addIdentifier_leaves {i : Identifier} {kind : IdentifierKind} {c d : Content}
    (h : (addIdentifier i kind).Leaves c d) : ∃ t, d = { c with identifiers := t } := by
  simp only [addIdentifier, Edit.leaves_get_bind_iff] at h
  rcases Edit.leaves_ofExcept_bind_iff.1 h with ⟨_, -, h⟩ | ⟨-, rfl⟩
  · obtain ⟨t, -, rfl⟩ := Edit.leaves_within_iff.1 h
    exact ⟨t, rfl⟩
  · exact ⟨d.identifiers, by cases d; rfl⟩

/-- That the phase, the records and the index of what they use are the same. -/
structure SameUses (c d : Content) : Prop where
  phase : d.phase = c.phase
  records : d.records = c.records
  table : d.table = c.table

theorem addBit_sameUses {k : BitKind} {bit : Bit k} {c d : Content}
    (h : (addBit bit).Leaves c d) : c.SameUses d := by
  obtain ⟨l, rfl⟩ := addBit_leaves h
  exact ⟨bitFocus_set_phase l c, bitFocus_set_records l c, bitFocus_set_table l c⟩

theorem addRegister_sameUses {k : BitKind} {r : Register k} {c d : Content}
    (h : (addRegister r).Leaves c d) : c.SameUses d := by
  obtain ⟨l, rfl⟩ := addRegister_leaves h
  exact ⟨bitFocus_set_phase l c, bitFocus_set_records l c, bitFocus_set_table l c⟩

theorem addIdentifier_sameUses {i : Identifier} {kind : IdentifierKind} {c d : Content}
    (h : (addIdentifier i kind).Leaves c d) : c.SameUses d := by
  obtain ⟨t, rfl⟩ := addIdentifier_leaves h
  exact ⟨rfl, rfl, rfl⟩

/-- To read the parameters is to note their order, and never refused. -/
theorem listParameters_leaves_iff {c d : Content} :
    listParameters.Leaves c d ↔ d = { c with table := c.table.remembered } := by
  constructor
  · rintro (⟨a, h⟩ | ⟨e, h⟩) <;> cases h
    rfl
  · rintro rfl
    exact .of_ok (a := c.parameters) rfl

theorem push_leaves_iff {i : Instruction} {c d : Content} :
    (push i).Leaves c d ↔ c.check i = .ok () ∧ d = c.snoc i ∨ c.check i ≠ .ok () ∧ d = c := by
  rw [push, Edit.leaves_update_iff]
  cases h : c.check i with
  | ok u => simp [bind, Except.bind, pure, Except.pure, eq_comm]
  | error e => simp [bind, Except.bind]

theorem push_eq_ok_iff {i : Instruction} {c d : Content} :
    push i c = .ok () d ↔ c.check i = .ok () ∧ d = c.snoc i := by
  rw [push, Edit.update_eq_ok_iff, Checking.seq_eq_ok_iff]
  simp only [pure, Except.pure, Except.ok.injEq, eq_comm]

theorem insertFront_eq_ok_iff {front : List Instruction} {c d : Content} :
    insertFront front c = .ok () d ↔ (∀ i ∈ front, c.check i = .ok ()) ∧
      c.table.check (front.flatMap fun i => i.operation.freeParameters.map (·.2)) = .ok () ∧
      d = c.withRecords (front ++ c.records) := by
  rw [insertFront, Edit.update_eq_ok_iff, Checking.seq_eq_ok_iff, Checking.seq_eq_ok_iff,
    checkEach_eq_ok_iff]
  simp only [pure, Except.pure, Except.ok.injEq, eq_comm]

theorem insertFront_leaves {front : List Instruction} {c d : Content}
    (h : (insertFront front).Leaves c d) :
    (d = c.withRecords (front ++ c.records) ∧ (∀ i ∈ front, c.check i = .ok ()) ∧
      c.table.check (front.flatMap fun i => i.operation.freeParameters.map (·.2)) = .ok ()) ∨
    d = c := by
  rcases h with ⟨_, h⟩ | ⟨e, h⟩
  · obtain ⟨hcheck, htable, rfl⟩ := insertFront_eq_ok_iff.1 h
    exact .inl ⟨rfl, hcheck, htable⟩
  · exact .inr (Edit.update_eq_error_iff.1 h).2.symm

/-- What setting the phase leaves behind: the new phase, or the old one with its
parameters given up and taken back. -/
theorem setPhase_leaves {phase : Angle} {c d : Content} (h : (setPhase phase).Leaves c d) :
    let without := c.table.untrackPhase c.phase.parameters
    d = { c with
      table := without.trackPhase phase.normalizedPhase.parameters
      phase := phase.normalizedPhase } ∨
    d = { c with table := without.trackPhase c.phase.parameters } := by
  simp only [Edit.Leaves, setPhase] at h
  split at h <;> simp only [reduceCtorEq, exists_false, or_false, false_or,
    EStateM.Result.ok.injEq, EStateM.Result.error.injEq] at h
  · obtain ⟨-, -, rfl⟩ := h
    exact .inl rfl
  · obtain ⟨-, -, rfl⟩ := h
    exact .inr rfl

theorem assignParameters_leaves {s : Binding Float} {strict : Bool} {c d : Content}
    (h : (assignParameters s strict).Leaves c d) : c.assign s = .ok d ∨ d = c := by
  rcases Edit.leaves_update_iff.1 h with h | ⟨-, rfl⟩
  · split at h
    · cases h
    · exact .inl h
  · exact .inr rfl

theorem pop?_eq_some_iff {c d : Content} {i : Instruction} :
    c.pop? = some (i, d) ↔ c.records.getLast? = some i ∧ d = { c with
      records := c.records.dropLast
      table := c.table.untrackRecord (c.records.length - 1) i.operation.freeParameters
      duration := none } := by
  unfold pop?
  cases c.records.getLast? with
  | none => simp
  | some j =>
    simp only [Option.map_some, Option.some.injEq, Prod.mk.injEq]
    constructor
    · rintro ⟨rfl, rfl⟩
      exact ⟨rfl, rfl⟩
    · rintro ⟨rfl, rfl⟩
      exact ⟨rfl, rfl⟩

namespace Call

theorem leaves_addBit_iff {kind : BitKind} {bit : Bit kind} {c d : Content} :
    (addBit kind bit).run.Leaves c d ↔ (Content.addBit bit).Leaves c d :=
  Edit.leaves_bind_pure_iff

theorem leaves_listParameters_iff {c d : Content} :
    listParameters.run.Leaves c d ↔ d = { c with table := c.table.remembered } :=
  Edit.leaves_bind_pure_iff.trans listParameters_leaves_iff

/-- To take away the last record of none is to do nothing. -/
theorem leaves_pop {c d : Content} (h : pop.run.Leaves c d) :
    d = c ∨ ∃ i, c.pop? = some (i, d) := by
  obtain rfl := Edit.leaves_modify_iff.1 h
  cases hp : c.pop? with
  | none => exact .inl rfl
  | some last => exact .inr ⟨last.1, rfl⟩

/-- A call brings in no records but those handed to it, unless it assigns. -/
theorem mem_records {k : Call} {c d : Content} (h : k.run.Leaves c d)
    (hk : ∀ s strict, k ≠ assign s strict) {i : Instruction} (hi : i ∈ d.records) :
    i ∈ c.records ∨ i ∈ k.records := by
  cases k with
  -- calls on the bits and on the identifiers leave the records alone, refused or not
  | addBit _ bit => exact .inl ((addBit_sameUses (leaves_addBit_iff.1 h)).records ▸ hi)
  | addRegister _ r => exact .inl ((addRegister_sameUses h).records ▸ hi)
  | addIdentifier j kind => exact .inl ((addIdentifier_sameUses h).records ▸ hi)
  | push j =>
    rcases push_leaves_iff.1 h with ⟨-, rfl⟩ | ⟨-, rfl⟩
    · exact List.mem_append.1 hi
    · exact .inl hi
  | insertFront front =>
    rcases insertFront_leaves h with ⟨rfl, -⟩ | rfl
    · exact (List.mem_append.1 hi).symm
    · exact .inl hi
  | pop =>
    rcases leaves_pop h with rfl | ⟨j, hp⟩
    · exact .inl hi
    · -- what is left are the records before the last one
      obtain ⟨-, rfl⟩ := pop?_eq_some_iff.1 hp
      exact .inl (List.dropLast_subset _ hi)
  | clear =>
    cases Edit.leaves_modify_iff.1 h
    exact absurd hi List.not_mem_nil
  | setPhase phase =>
    rcases setPhase_leaves h with rfl | rfl
    · exact .inl hi
    · exact .inl hi
  | setDuration t =>
    cases Edit.leaves_modify_iff.1 h
    exact .inl hi
  | listParameters =>
    obtain rfl := leaves_listParameters_iff.1 h
    exact .inl hi
  | copyEmpty mode =>
    cases Edit.leaves_modify_iff.1 h
    exact absurd hi List.not_mem_nil
  | assign s strict => exact absurd rfl (hk s strict)

end Call

/-! ## Invariants -/

variable {T A : Policy} {P : Content → Prop}

/-- A call keeps an invariant of the store it is made on. -/
theorem Invariant.call (inv : Invariant T P) {k : Call} {c d : Content} (hc : P c)
    (hk : k.Allowed T c) (h : k.run.Leaves c d) : P d := by
  cases k with
  | addBit _ bit => exact inv.addBit bit c d hc (Call.leaves_addBit_iff.1 h)
  | addRegister _ r => exact inv.addRegister r c d hc h
  | addIdentifier i kind => exact inv.addIdentifier i kind c d hc h
  | push i =>
    rcases push_leaves_iff.1 h with ⟨hcheck, rfl⟩ | ⟨-, rfl⟩
    · exact inv.snoc c i hc hcheck
    · exact hc
  | insertFront front =>
    rcases insertFront_leaves h with ⟨rfl, heach, htable⟩ | rfl
    · exact inv.front c front hc heach htable
    · exact hc
  | pop =>
    rcases Call.leaves_pop h with rfl | ⟨i, hp⟩
    · exact hc
    · exact inv.pop c i d hc hp
  | clear => exact Edit.leaves_modify_iff.1 h ▸ inv.clear c hc
  | setPhase phase => exact inv.setPhase phase c d hc h
  | setDuration t => exact Edit.leaves_modify_iff.1 h ▸ inv.setDuration t c hc
  | listParameters => exact inv.listParameters c d hc (Edit.leaves_bind_pure_iff.1 h)
  | copyEmpty mode => exact Edit.leaves_modify_iff.1 h ▸ inv.copyEmpty c mode hc
  | assign s strict =>
    rcases assignParameters_leaves h with h | rfl
    · exact inv.assign c s d hc hk h
    · exact hc

/-- An invariant holds of every built store and of all circuits inside it, if it may
rely on `T` at all the assignments that the policy lets happen and that are made. -/
theorem Built.everywhere (inv : Invariant T P)
    (hT : ∀ c s d, Built A c → A c s → c.assign s = .ok d → ∀ e t, Assigns c s e t → T e t)
    {c : Content} (h : Built A c) : Everywhere P c := by
  induction h with
  | empty => exact .intro inv.empty fun d hd => absurd hd List.not_mem_nil
  | inside _ hd ih => exact ih.inside hd
  | @call c d k hc hk _ hrun ih ihin =>
    by_cases hassign : ∃ s strict, k = .assign s strict
    · obtain ⟨s, strict, rfl⟩ := hassign
      rcases assignParameters_leaves hrun with h | rfl
      · exact ih.assign h fun e t e' het he heq =>
          inv.assign e t e' he (hT c s d hc hk h e t het) heq
      · exact ih
    · have hother : ∀ s strict, k ≠ .assign s strict := fun s strict heq =>
        hassign ⟨s, strict, heq⟩
      have hallowed : k.Allowed T c := by
        cases k <;> first | trivial | exact absurd rfl (hother _ _)
      refine .intro (inv.call ih.here hallowed hrun) fun e he => ?_
      obtain ⟨i, hi, he⟩ := mem_circuits_iff.1 he
      rcases Call.mem_records hrun hother hi with hi | hi
      · exact ih.record hi he
      · exact ihin i hi e he

/-- An invariant that relies on nothing holds of every built store, at every depth. -/
theorem Built.everywhere_any (inv : Invariant .any P) {c : Content} (h : Built A c) :
    Everywhere P c :=
  h.everywhere inv fun _ _ _ _ _ _ _ _ _ => trivial

/-- A built store is built at every depth. -/
theorem Built.everywhere_built {c : Content} (h : Built A c) : Everywhere (Built A) c := by
  -- only that the depth comes to an end is proved by calls
  have hdepth : Everywhere (fun _ => True) c := h.everywhere_any
    { empty := trivial
      addBit := fun _ _ _ _ _ => trivial
      addRegister := fun _ _ _ _ _ => trivial
      addIdentifier := fun _ _ _ _ _ _ => trivial
      snoc := fun _ _ _ _ => trivial
      front := fun _ _ _ _ _ => trivial
      pop := fun _ _ _ _ _ => trivial
      clear := fun _ _ => trivial
      setPhase := fun _ _ _ _ _ => trivial
      setDuration := fun _ _ _ => trivial
      listParameters := fun _ _ _ _ => trivial
      copyEmpty := fun _ _ _ => trivial
      assign := fun _ _ _ _ _ _ => trivial }
  induction hdepth with
  | intro _ _ ih => exact .intro h fun d hd => ih d hd (h.inside hd)

end Content

end QuantumCircuit
