import QuantumCircuit.Circuit.Metrics
import QuantumCircuit.Proofs.Leaves
import QuantumCircuit.Proofs.Positions
import QuantumCircuit.Proofs.Reach
import QuantumCircuit.Proofs.Settling
import Mathlib.Data.List.Chain
import Mathlib.Data.List.Fold
import Mathlib.Order.Bounds.Basic
import Mathlib.Order.MinMax

/-!
# The depth of a circuit is the length of its critical path

A chain is an increasing list of positions of records, none of them a barrier, each of which shares
a wire with the next (`Content.Chain`). The depth is worked out in one pass that keeps a level for
each wire. What the pass keeps up: the level of a wire is the length of a longest chain that ends
with a record on the wire, and the depth the length of a longest chain of all (`Reach.Measures`).
One record more makes a longest chain among those that end on its wires longer by one, and changes
no other (`Reach.Measures.step`). So it is for all records (`Circuit.Reachable.depth_eq_longest`).

Which wires a record is on is said of its operands and of the parts of its expressions
(`Instruction.On`), and not through the lists that the pass goes by (`Instruction.mem_wires_iff`).
-/

namespace QuantumCircuit

/-! ## Wires -/

/-- The parts of the condition, target or store, which say what the operation does. How long it
takes is not among them. -/
def Operation.decidingNodes : Operation → List Expr
  | .store a => a.nodes
  | .control (.ifElse c _ _) | .control (.whileLoop c _) => c.nodes
  | .control (.switchCase t _) => t.nodes
  | _ => []

/-- That a record is on a wire. -/
inductive Instruction.On (c : Content) (i : Instruction) : Wire → Prop
  | qubit {n : Nat} : n ∈ i.qubits → On c i (.qubit n)
  | clbit {n : Nat} : n ∈ i.clbits → On c i (.clbit n)
  /-- The condition, target or store has the clbit in it. -/
  | reads {bit : Clbit} {n : Nat} : .clbit bit ∈ i.operation.decidingNodes →
      c.clbits.get? n = some bit → On c i (.clbit n)
  /-- The condition, target or store has a register of the clbit in it. -/
  | readsIn {r : ClassicalRegister} {bit : Clbit} {n : Nat} :
      .register r ∈ i.operation.decidingNodes → bit ∈ r.bits → c.clbits.get? n = some bit →
      On c i (.clbit n)
  /-- An expression of the operation has the identifier in it. -/
  | names {e : Expr} {x : Identifier} : e ∈ i.operation.nodes → e.ownIdentifier? = some x →
      On c i (.identifier x)
  /-- A body captures the identifier. -/
  | captures {b : Circuit} {x : Identifier} : b ∈ i.operation.bodies →
      (x, .capture) ∈ b.content.identifiers.toList → On c i (.identifier x)

/-- That two records share a wire. -/
def Instruction.Meets (c : Content) (i j : Instruction) : Prop := ∃ w, i.On c w ∧ j.On c w

namespace Operation

variable {op : Operation}

/-- What conditions, targets and stores use is what their parts are. -/
theorem classicalUse_eq : op.classicalUse =
    ⟨op.decidingNodes.filterMap (·.ownClbit?), op.decidingNodes.filterMap (·.ownRegister?)⟩ := by
  have hcondition : ∀ c : Condition, c.classicalUse =
      ⟨c.nodes.filterMap (·.ownClbit?), c.nodes.filterMap (·.ownRegister?)⟩ := by
    intro c
    cases c <;> rfl
  have htarget : ∀ t : SwitchTarget, t.classicalUse =
      ⟨t.nodes.filterMap (·.ownClbit?), t.nodes.filterMap (·.ownRegister?)⟩ := by
    intro t
    cases t <;> rfl
  cases op with
  | store a => simp [classicalUse, decidingNodes, Store.nodes, ClassicalUse.append,
      ClassicalUse.ofExpr, Expr.clbits, Expr.registers]
  | control flow =>
    cases flow with
    | ifElse c t e => exact hcondition c
    | whileLoop c b => exact hcondition c
    | switchCase t arms => exact htarget t
    | forLoop indices p b | box b d | jump j m n => rfl
  | gate g | custom op | measure | reset | barrier width | delay d => rfl

theorem mem_clbits_iff {bit : Clbit} :
    bit ∈ op.classicalUse.clbits ↔ .clbit bit ∈ op.decidingNodes := by
  rw [classicalUse_eq, List.mem_filterMap]
  constructor
  · rintro ⟨e, he, heq⟩
    cases e <;> cases heq
    exact he
  · exact fun h => ⟨_, h, rfl⟩

theorem mem_registers_iff {r : ClassicalRegister} :
    r ∈ op.classicalUse.registers ↔ .register r ∈ op.decidingNodes := by
  rw [classicalUse_eq, List.mem_filterMap]
  constructor
  · rintro ⟨e, he, heq⟩
    cases e <;> cases heq
    exact he
  · exact fun h => ⟨_, h, rfl⟩

/-- The identifiers that control flow reads itself are those in its expressions. -/
theorem mem_ownIdentifiers_iff {flow : ControlFlow} {x : Identifier} :
    x ∈ flow.ownIdentifiers ↔ ∃ e ∈ flow.nodes, e.ownIdentifier? = some x := by
  cases flow with
  | ifElse c t e | whileLoop c b =>
    cases c with
    | expr e => exact Expr.mem_identifiers_iff
    | clbit b v | register r v =>
      simp [ControlFlow.ownIdentifiers, Condition.identifiers, ControlFlow.nodes, Condition.nodes,
        Expr.ownIdentifier?]
  | switchCase t arms =>
    cases t with
    | expr e => exact Expr.mem_identifiers_iff
    | clbit b | register r =>
      simp [ControlFlow.ownIdentifiers, SwitchTarget.identifiers, ControlFlow.nodes,
        SwitchTarget.nodes, Expr.ownIdentifier?]
  | box b d =>
    cases d with
    | none => simp [ControlFlow.ownIdentifiers, ControlFlow.nodes]
    | some d =>
      cases d with
      | expr e => exact Expr.mem_identifiers_iff
      | dt steps =>
        simp [ControlFlow.ownIdentifiers, Duration.identifiers, ControlFlow.nodes, Duration.nodes]
  | forLoop indices p b | jump j m n => simp [ControlFlow.ownIdentifiers, ControlFlow.nodes]

theorem mem_identifiers_iff {x : Identifier} : x ∈ op.identifiers ↔
    (∃ e ∈ op.nodes, e.ownIdentifier? = some x) ∨
      ∃ b ∈ op.bodies, (x, .capture) ∈ b.content.identifiers.toList := by
  cases op with
  | store a =>
    show x ∈ Distinct.union _ _ ↔ (∃ e ∈ a.target.nodes ++ a.value.nodes, _) ∨ _
    rw [Distinct.mem_union, Expr.mem_identifiers_iff, Expr.mem_identifiers_iff]
    simp [bodies, or_and_right, exists_or]
  | delay d =>
    cases d with
    | dt steps => simp [identifiers, Duration.identifiers, nodes, Duration.nodes, bodies]
    | expr e =>
      show x ∈ e.identifiers ↔ (∃ n ∈ e.nodes, _) ∨ _
      rw [Expr.mem_identifiers_iff]
      simp [bodies]
  | control flow =>
    show x ∈ Distinct.union _ _ ↔ (∃ e ∈ flow.nodes, _) ∨ ∃ b ∈ flow.bodies, _
    rw [Distinct.mem_union, mem_ownIdentifiers_iff, List.mem_flatMap]
    refine or_congr_right (exists_congr fun b => and_congr_right fun _ => ?_)
    simp [IdentifierTable.ofKind]
  | gate g | custom op | measure | reset | barrier width => simp [identifiers, nodes, bodies]

end Operation

namespace Instruction

variable {c : Content} {i j : Instruction} {w : Wire}

/-- The wires that are listed are those that the record is on. -/
theorem mem_wires_iff (hc : c.clbits.Exact) : w ∈ i.wires c ↔ i.On c w := by
  simp only [wires, List.mem_append, List.mem_map, List.mem_filterMap, ClassicalUse.allClbits,
    List.mem_flatMap, Operation.mem_clbits_iff, Operation.mem_registers_iff,
    Operation.mem_identifiers_iff, hc.indexOf?_eq_some_iff]
  constructor
  · rintro (((⟨n, hn, rfl⟩ | ⟨n, hn, rfl⟩) | ⟨n, ⟨bit, hbit | ⟨r, hr, hbit⟩, hn⟩, rfl⟩) |
      ⟨x, ⟨e, he, hx⟩ | ⟨b, hb, hx⟩, rfl⟩)
    · exact .qubit hn
    · exact .clbit hn
    · exact .reads hbit hn
    · exact .readsIn hr hbit hn
    · exact .names he hx
    · exact .captures hb hx
  · intro h
    cases h with
    | qubit hn => exact .inl (.inl (.inl ⟨_, hn, rfl⟩))
    | clbit hn => exact .inl (.inl (.inr ⟨_, hn, rfl⟩))
    | reads hbit hn => exact .inl (.inr ⟨_, ⟨_, .inl hbit, hn⟩, rfl⟩)
    | readsIn hr hbit hn => exact .inl (.inr ⟨_, ⟨_, .inr ⟨_, hr, hbit⟩, hn⟩, rfl⟩)
    | names he hx => exact .inr ⟨_, .inl ⟨_, he, hx⟩, rfl⟩
    | captures hb hx => exact .inr ⟨_, .inr ⟨_, hb, hx⟩, rfl⟩

/-- A record meets another if it is on one of the wires of the other. -/
theorem meets_iff (hc : c.clbits.Exact) : j.Meets c i ↔ ∃ w ∈ i.wires c, j.On c w :=
  exists_congr fun w => by rw [mem_wires_iff hc, and_comm]

theorem isDirective_iff : i.isDirective ↔ ∃ width, i.operation = .barrier width := by
  unfold isDirective Operation.isDirective
  cases i.operation <;> simp

end Instruction

/-! ## Chains -/

namespace Content

/-- Positions in `rs`, in increasing order, of records that are no barriers, each of which shares a
wire with the next. -/
structure Chain (c : Content) (rs : List Instruction) (ks : List Nat) : Prop where
  increasing : ks.Pairwise (· < ·)
  active : ∀ k ∈ ks, ∃ i, rs[k]? = some i ∧ ∀ width, i.operation ≠ .barrier width
  linked : ks.IsChain fun j k =>
    ∃ i i', rs[j]? = some i ∧ rs[k]? = some i' ∧ i.Meets c i'

/-- That the last position, if there is one, is that of a record of the sort. -/
def EndsWith (rs : List Instruction) (sort : Instruction → Prop) (ks : List Nat) : Prop :=
  ∀ k ∈ ks.getLast?, ∃ i, rs[k]? = some i ∧ sort i

variable {c : Content} {rs : List Instruction} {i : Instruction} {ks : List Nat}
  {sort : Instruction → Prop}

namespace Chain

theorem nil : c.Chain rs [] := ⟨.nil, by simp, .nil⟩

theorem lt (h : c.Chain rs ks) {k : Nat} (hk : k ∈ ks) : k < rs.length := by
  obtain ⟨j, hj, -⟩ := h.active k hk
  exact (List.getElem?_eq_some_iff.1 hj).1

/-- Among the records that were there a record more makes no difference. -/
theorem append_iff (hks : ∀ k ∈ ks, k < rs.length) : c.Chain (rs ++ [i]) ks ↔ c.Chain rs ks := by
  have hold : ∀ k ∈ ks, (rs ++ [i])[k]? = rs[k]? := fun k hk => List.getElem?_append_left (hks k hk)
  have hlinked : (ks.IsChain fun j k =>
      ∃ a b, (rs ++ [i])[j]? = some a ∧ (rs ++ [i])[k]? = some b ∧ a.Meets c b) ↔
      ks.IsChain fun j k => ∃ a b, rs[j]? = some a ∧ rs[k]? = some b ∧ a.Meets c b := by
    refine ⟨fun h => h.imp_of_mem_imp fun j k hj hk => ?_,
      fun h => h.imp_of_mem_imp fun j k hj hk => ?_⟩
    · rw [hold j hj, hold k hk]
      exact id
    · rw [hold j hj, hold k hk]
      exact id
  constructor
  · intro h
    refine ⟨h.increasing, fun k hk => ?_, hlinked.1 h.linked⟩
    exact hold k hk ▸ h.active k hk
  · intro h
    refine ⟨h.increasing, fun k hk => ?_, hlinked.2 h.linked⟩
    exact (hold k hk).symm ▸ h.active k hk

end Chain

/-- What chains there are with one record more: those that were there, and those that go on with the
record, unless it is a barrier, from one it meets. -/
theorem chain_append_iff : c.Chain (rs ++ [i]) ks ↔ c.Chain rs ks ∨
    (∀ width, i.operation ≠ .barrier width) ∧
      ∃ js, ks = js ++ [rs.length] ∧ c.Chain rs js ∧ EndsWith rs (·.Meets c i) js := by
  have hnew : (rs ++ [i])[rs.length]? = some i := List.getElem?_concat_length
  constructor
  · intro h
    rcases List.eq_nil_or_concat ks with rfl | ⟨js, k, rfl⟩
    · exact .inl .nil
    rw [List.concat_eq_append] at h ⊢
    have hbelow : ∀ j ∈ js, j < k := fun j hj =>
      (List.pairwise_append.1 h.increasing).2.2 j hj k (List.mem_singleton.2 rfl)
    have hk : k < rs.length + 1 := by
      simpa using h.lt (List.mem_append_right js (List.mem_singleton.2 rfl))
    rcases Nat.lt_or_eq_of_le (Nat.le_of_lt_succ hk) with hlt | rfl
    · -- the new record is not in the chain
      refine .inl ((Chain.append_iff fun j hj => ?_).1 h)
      rcases List.mem_append.1 hj with hj | hj
      · exact Nat.lt_trans (hbelow j hj) hlt
      · exact List.mem_singleton.1 hj ▸ hlt
    · refine .inr ⟨?_, js, rfl, ?_, ?_⟩
      · obtain ⟨i', hi', hactive⟩ :=
          h.active rs.length (List.mem_append_right js (List.mem_singleton.2 rfl))
        cases hnew.symm.trans hi'
        exact hactive
      · refine (Chain.append_iff (i := i) hbelow).1 ⟨?_, fun j hj => ?_, ?_⟩
        · exact (List.pairwise_append.1 h.increasing).1
        · exact h.active j (List.mem_append_left _ hj)
        · exact (List.isChain_append.1 h.linked).1
      · intro j hj
        obtain ⟨a, b, ha, hb, hmeets⟩ :=
          (List.isChain_append.1 h.linked).2.2 j hj rs.length rfl
        rw [List.getElem?_append_left (hbelow j (List.mem_of_getLast? hj))] at ha
        cases hnew.symm.trans hb
        exact ⟨a, ha, hmeets⟩
  · rintro (h | ⟨hactive, js, rfl, h, hends⟩)
    · exact (Chain.append_iff fun k hk => h.lt hk).2 h
    · have hjs := (Chain.append_iff (i := i) fun k hk => h.lt hk).2 h
      refine ⟨?_, ?_, ?_⟩
      · rw [List.pairwise_append]
        refine ⟨h.increasing, List.pairwise_singleton _ _, fun j hj k hk => ?_⟩
        exact List.mem_singleton.1 hk ▸ h.lt hj
      · refine List.forall_mem_append.2 ⟨hjs.active, ?_⟩
        exact List.forall_mem_singleton.2 ⟨i, hnew, hactive⟩
      · refine List.isChain_append.2 ⟨hjs.linked, .singleton _, fun j hj k hk => ?_⟩
        obtain ⟨a, ha, hmeets⟩ := hends j hj
        cases hk
        refine ⟨a, i, ?_, hnew, hmeets⟩
        rwa [List.getElem?_append_left (h.lt (List.mem_of_getLast? hj))]

/-! ## Longest chains -/

/-- That `n` is the greatest length of the chains that end with a record of the sort, or are
empty. -/
def Longest (c : Content) (rs : List Instruction) (sort : Instruction → Prop) (n : Nat) : Prop :=
  IsGreatest {n | ∃ ks, c.Chain rs ks ∧ EndsWith rs sort ks ∧ ks.length = n} n

namespace Longest

variable {m n : Nat} {P Q : Instruction → Prop}

/-- No chain but the empty one ends with no record. -/
theorem none : c.Longest rs (fun _ => False) 0 := by
  refine ⟨⟨[], .nil, by simp [EndsWith], rfl⟩, ?_⟩
  rintro n ⟨ks, -, hends, rfl⟩
  rcases List.eq_nil_or_concat ks with rfl | ⟨js, k, rfl⟩
  · exact Nat.le_refl _
  · obtain ⟨-, -, hfalse⟩ := hends k (by simp)
    exact hfalse.elim

theorem of_nil : c.Longest [] sort 0 := by
  refine ⟨⟨[], .nil, by simp [EndsWith], rfl⟩, ?_⟩
  rintro n ⟨ks, hchain, -, rfl⟩
  cases ks with
  | nil => exact Nat.le_refl _
  | cons k rest => exact absurd (hchain.lt List.mem_cons_self) (Nat.not_lt_zero k)

/-- A chain that ends in one of two ways is no longer than a longest of either. -/
theorem or (h : c.Longest rs P m) (h' : c.Longest rs Q n) :
    c.Longest rs (fun i => P i ∨ Q i) (max m n) := by
  have hends : ∀ ks, EndsWith rs (fun i => P i ∨ Q i) ks ↔ EndsWith rs P ks ∨ EndsWith rs Q ks := by
    intro ks
    unfold EndsWith
    cases ks.getLast? with
    | none => simp
    | some k => simp [and_or_left, exists_or]
  unfold Longest
  simp only [hends, or_and_right, and_or_left, exists_or]
  exact IsGreatest.union h h'

/-- Of several wires, a longest chain that ends on any is one that ends on the one where it is
longest. -/
theorem onAny {level : Wire → Nat} (h : ∀ w, c.Longest rs (·.On c w) (level w)) (ws : List Wire) :
    c.Longest rs (fun i => ∃ w ∈ ws, i.On c w) ((ws.map level).foldr max 0) := by
  induction ws with
  | nil => simpa using none
  | cons w rest ih => simpa [or_and_right, exists_or] using (h w).or ih

/-- A record that no chain may end with, or a barrier, does not matter. -/
theorem skip (h : c.Longest rs sort n) (hi : (∃ width, i.operation = .barrier width) ∨ ¬ sort i) :
    c.Longest (rs ++ [i]) sort n := by
  suffices hsame : ∀ ks, (c.Chain (rs ++ [i]) ks ∧ EndsWith (rs ++ [i]) sort ks) ↔
      c.Chain rs ks ∧ EndsWith rs sort ks by
    unfold Longest at h ⊢
    simp only [← and_assoc, hsame] at h ⊢
    exact h
  intro ks
  have hold : c.Chain rs ks → (EndsWith (rs ++ [i]) sort ks ↔ EndsWith rs sort ks) := by
    intro hks
    refine forall₂_congr fun k hk => ?_
    rw [List.getElem?_append_left (hks.lt (List.mem_of_getLast? hk))]
  rw [chain_append_iff]
  constructor
  · rintro ⟨hks | ⟨hactive, js, rfl, -, -⟩, hends⟩
    · exact ⟨hks, (hold hks).1 hends⟩
    · -- a chain that goes on with the record ends with it
      obtain ⟨i', hi', hsort⟩ := hends rs.length (by simp)
      cases List.getElem?_concat_length.symm.trans hi'
      rcases hi with ⟨width, hwidth⟩ | hnot
      · exact absurd hwidth (hactive width)
      · exact absurd hsort hnot
  · exact fun ⟨hks, hends⟩ => ⟨.inl hks, (hold hks).2 hends⟩

/-- A record that a chain may end with goes on from a longest chain among those it goes on from. -/
theorem extend (h : c.Longest rs sort m) (hi : ∀ width, i.operation ≠ .barrier width)
    (hsort : sort i) (hmeets : c.Longest rs (·.Meets c i) n) :
    c.Longest (rs ++ [i]) sort (max m (n + 1)) := by
  have hold : ∀ ks, c.Chain rs ks → EndsWith rs sort ks →
      c.Chain (rs ++ [i]) ks ∧ EndsWith (rs ++ [i]) sort ks := by
    intro ks hks hends
    refine ⟨chain_append_iff.2 (.inl hks), fun k hk => ?_⟩
    rw [List.getElem?_append_left (hks.lt (List.mem_of_getLast? hk))]
    exact hends k hk
  refine ⟨?_, ?_⟩
  · rcases max_choice m (n + 1) with hmax | hmax
    · obtain ⟨ks, hks, hends, hlength⟩ := h.1
      exact ⟨ks, (hold ks hks hends).1, (hold ks hks hends).2, hlength.trans hmax.symm⟩
    · obtain ⟨js, hjs, hends, hlength⟩ := hmeets.1
      refine ⟨js ++ [rs.length], chain_append_iff.2 (.inr ⟨hi, js, rfl, hjs, hends⟩), ?_, ?_⟩
      · intro k hk
        obtain rfl : rs.length = k := by simpa using hk
        exact ⟨i, List.getElem?_concat_length, hsort⟩
      · rw [hmax, List.length_append, hlength]
        rfl
  · rintro l ⟨ks, hks, hends, rfl⟩
    rcases chain_append_iff.1 hks with hks | ⟨-, js, rfl, hjs, hjends⟩
    · refine (h.2 ⟨ks, hks, fun k hk => ?_, rfl⟩).trans (le_max_left _ _)
      rw [← List.getElem?_append_left (hks.lt (List.mem_of_getLast? hk))]
      exact hends k hk
    · rw [List.length_append]
      exact (Nat.succ_le_succ (hmeets.2 ⟨js, hjs, hjends, rfl⟩)).trans (le_max_right _ _)

end Longest

end Content

/-! ## The pass over the records -/

namespace Reach

/-- How far the longest chain reaches on the wire. -/
def level (r : Reach) (w : Wire) : Nat := (Assoc.find? w r.levels).getD 0

/-- How far it reaches on any of the wires. -/
def height (r : Reach) (ws : List Wire) : Nat := (ws.map r.level).foldr max 0

variable {r : Reach} {ws : List Wire} {c : Content} {rs : List Instruction} {i : Instruction}

theorem foldl_max_eq_height :
    (ws.filterMap fun w => Assoc.find? w r.levels).foldl max 0 = r.height ws := by
  rw [List.foldl_eq_foldr]
  unfold height level
  induction ws with
  | nil => rfl
  | cons w rest ih =>
    cases hw : Assoc.find? w r.levels <;> simp [hw, ih]

theorem depth_step : (r.step ws).depth = max r.depth (r.height ws + 1) := by
  unfold step
  rw [foldl_max_eq_height]

/-- A step takes the wires of the record up by one from the highest of them. -/
theorem level_step (w : Wire) :
    (r.step ws).level w = if w ∈ ws then r.height ws + 1 else r.level w := by
  have hfold : ∀ (l : Nat) (levels : List (Wire × Nat)),
      Assoc.find? w (ws.foldl (fun levels w => Assoc.insert w l levels) levels) =
        if w ∈ ws then some l else Assoc.find? w levels := by
    intro l
    induction ws with
    | nil => simp
    | cons v rest ih =>
      intro levels
      rw [List.foldl_cons, ih, Assoc.find?_insert]
      by_cases hv : v = w
      · simp [hv]
      · simp [hv, Ne.symm hv]
  unfold level step
  rw [foldl_max_eq_height, hfold]
  split <;> rfl

/-- What the pass has noted is right for the records it has gone through. -/
structure Measures (c : Content) (rs : List Instruction) (r : Reach) : Prop where
  level : ∀ w, c.Longest rs (·.On c w) (r.level w)
  depth : c.Longest rs (fun _ => True) r.depth

namespace Measures

theorem start : Measures c [] ⟨[], 0⟩ := ⟨fun _ => .of_nil, .of_nil⟩

/-- A barrier is passed over. -/
theorem skip (h : Measures c rs r) (hi : ∃ width, i.operation = .barrier width) :
    Measures c (rs ++ [i]) r :=
  ⟨fun w => (h.level w).skip (.inl hi), h.depth.skip (.inl hi)⟩

theorem step (hc : c.clbits.Exact) (h : Measures c rs r)
    (hi : ∀ width, i.operation ≠ .barrier width) :
    Measures c (rs ++ [i]) (r.step (i.wires c)) := by
  have hmeets : c.Longest rs (·.Meets c i) (r.height (i.wires c)) := by
    simp only [Instruction.meets_iff hc]
    exact Content.Longest.onAny h.level (i.wires c)
  refine ⟨fun w => ?_, ?_⟩
  · rw [level_step]
    split
    · rename_i hw
      have hon : i.On c w := (Instruction.mem_wires_iff hc).1 hw
      -- what ends on the wire meets the record, so the old level is no higher
      have hle : r.level w ≤ r.height (i.wires c) := by
        obtain ⟨ks, hks, hends, hlength⟩ := (h.level w).1
        refine hmeets.2 ⟨ks, hks, fun k hk => ?_, hlength⟩
        obtain ⟨j, hj, hjw⟩ := hends k hk
        exact ⟨j, hj, w, hjw, hon⟩
      have hmax := (h.level w).extend hi hon hmeets
      rwa [max_eq_right (Nat.le_succ_of_le hle)] at hmax
    · rename_i hw
      exact (h.level w).skip (.inr fun hon => hw ((Instruction.mem_wires_iff hc).2 hon))
  · rw [depth_step]
    exact h.depth.extend hi trivial hmeets

/-- So the whole pass notes what is right. -/
theorem run (hc : c.clbits.Exact) (rs : List Instruction) :
    Measures c rs ((rs.filter (!·.isDirective)).foldl (fun r i => r.step (i.wires c)) ⟨[], 0⟩) := by
  induction rs using List.reverseRecOn with
  | nil => exact start
  | append_singleton rs i ih =>
    rw [List.filter_append, List.foldl_append]
    by_cases hi : i.isDirective = true
    · simpa [hi] using ih.skip (Instruction.isDirective_iff.1 hi)
    · have hactive : ∀ width, i.operation ≠ .barrier width := fun width hwidth =>
        hi (Instruction.isDirective_iff.2 ⟨width, hwidth⟩)
      simpa [hi] using ih.step hc hactive

end Measures

end Reach

namespace Circuit

variable {A : Policy} {c : Circuit}

/-- The depth of a circuit that is reached is the greatest length of a chain of its records: of
positions in increasing order of records that are no barriers, each sharing a wire with the next. It
is zero exactly if all records are barriers. -/
theorem Reachable.depth_eq_longest (h : c.Reachable A) :
    IsGreatest {n | ∃ ks, c.content.Chain c.content.records ks ∧ ks.length = n} c.depth ∧
      (c.depth = 0 ↔ ∀ i ∈ c.content.records, ∃ width, i.operation = .barrier width) := by
  have hmeasures := Reach.Measures.run h.built.exact.clbits c.content.records
  have hgreatest : IsGreatest
      {n | ∃ ks, c.content.Chain c.content.records ks ∧ ks.length = n} c.depth := by
    have hends : ∀ ks, c.content.Chain c.content.records ks →
        Content.EndsWith c.content.records (fun _ => True) ks := by
      intro ks hks k hk
      obtain ⟨i, hi, -⟩ := hks.active k (List.mem_of_getLast? hk)
      exact ⟨i, hi, trivial⟩
    obtain ⟨⟨ks, hks, -, hlength⟩, hupper⟩ := hmeasures.depth
    refine ⟨⟨ks, hks, hlength⟩, ?_⟩
    rintro n ⟨js, hjs, rfl⟩
    exact hupper ⟨js, hjs, hends js hjs, rfl⟩
  refine ⟨hgreatest, ?_, fun hall => ?_⟩
  · intro hzero i hi
    by_contra hactive
    -- a record that is no barrier is a chain by itself
    obtain ⟨k, hk⟩ := List.getElem?_of_mem hi
    have hone : c.content.Chain c.content.records [k] :=
      ⟨List.pairwise_singleton _ _, List.forall_mem_singleton.2
        ⟨i, hk, fun width hwidth => hactive ⟨width, hwidth⟩⟩, .singleton k⟩
    have hle : 1 ≤ c.depth := hgreatest.2 ⟨[k], hone, rfl⟩
    omega
  · obtain ⟨ks, hks, hlength⟩ := hgreatest.1
    cases ks with
    | nil => exact hlength.symm
    | cons k rest =>
      obtain ⟨i, hi, hactive⟩ := hks.active k List.mem_cons_self
      obtain ⟨width, hwidth⟩ := hall i (List.mem_of_getElem? hi)
      exact absurd hwidth (hactive width)

/-- A flag that is false at first, a qubit that is measured, and the flag set from what came out.
The other qubit meets the rest at a barrier only. -/
def flagFromMeasurement : Circuit :=
  let flag : Var := ⟨"flag", .bool, ⟨0, 0⟩⟩
  let outcome : Clbit := .loose .classical ⟨1, 0⟩
  ⟨"c", Content.empty.after
    [.addBit .quantum (.loose .quantum ⟨2, 0⟩), .addBit .quantum (.loose .quantum ⟨2, 1⟩),
      .addBit .classical outcome, .addIdentifier (.var flag) .declare,
      .push (.make (.store ⟨.var flag, .literal (.bool false)⟩) [] []),
      .push (.make (.gate (.fixed .h)) [0] []), .push (.make .measure [0] [0]),
      .push (.make (.barrier 2) [0, 1] []),
      .push (.make (.store ⟨.var flag, .clbit outcome⟩) [] []),
      .push (.make (.gate (.fixed .h)) [1] [])], []⟩

/-- The longest chain goes through the qubit, the clbit and the flag. -/
theorem depth_flagFromMeasurement : flagFromMeasurement.Reachable .any ∧
    flagFromMeasurement.content.records.length = 6 ∧
    IsGreatest {n | ∃ ks, flagFromMeasurement.content.Chain flagFromMeasurement.content.records ks ∧
      ks.length = n} 3 ∧
    ¬ ∀ i ∈ flagFromMeasurement.content.records, ∃ width, i.operation = .barrier width := by
  have hreach : flagFromMeasurement.Reachable .any := .ofStore "c" (.empty_after rfl)
  have hdepth : flagFromMeasurement.depth = 3 := by decide +kernel
  obtain ⟨hgreatest, hzero⟩ := hreach.depth_eq_longest
  rw [hdepth] at hgreatest hzero
  refine ⟨hreach, by decide +kernel, hgreatest, fun hall => absurd (hzero.2 hall) (by decide)⟩

end Circuit

end QuantumCircuit
