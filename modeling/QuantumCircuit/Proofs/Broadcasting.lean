import QuantumCircuit.Circuit.Broadcast
import QuantumCircuit.Proofs.Fitting

/-!
# What broadcasting answers

Gates, measurements, resets and delays go through their slots in step: the `i`-th application
takes the `i`-th bit of every slot, and the only bit of a slot that has no other
(`Operation.Lockstep`). There are as many applications as bits in the longest slot, and one if
there are no slots.

Which slots are taken depends on how many there are. Two slots may differ in length if one of them
has a single bit, three may not (`Operation.Combinable`), and a measurement repeats a single qubit
but never a clbit. `Operation.broadcast_exact` puts this together.
-/

namespace QuantumCircuit.Operation

variable {Q C α : Type}

/-! ## The rule -/

/-- What a slot gives the `i`-th application: its `i`-th bit, or its only one. -/
def turn? (i : Nat) (slot : List α) : Option α :=
  if slot.length = 1 then slot.head? else slot[i]?

/-- The number of bits in the longest slot, and one if there are no slots. -/
def rounds (qubits : List (List Q)) (clbits : List (List C)) : Nat :=
  (qubits.map List.length ++ clbits.map List.length).max?.getD 1

/-- The applications that go through the slots in step. -/
structure Lockstep (qubits : List (List Q)) (clbits : List (List C))
    (out : List (List Q × List C)) : Prop where
  length : out.length = rounds qubits clbits
  operands : ∀ i a, out[i]? = some a →
    a.1.map some = qubits.map (turn? i) ∧ a.2.map some = clbits.map (turn? i)

/-- That the slots of a gate have lengths that go together: for two slots a single bit is enough,
more have to be equally long. -/
def Combinable (slots : List (List Q)) : Prop :=
  slots.length ≤ 1 ∨
  slots.length = 2 ∧ ((∀ s ∈ slots, ∀ t ∈ slots, s.length = t.length) ∨ ∃ s ∈ slots, s.length = 1) ∨
  3 ≤ slots.length ∧ ∀ s ∈ slots, ∀ t ∈ slots, s.length = t.length

/-- The operations that go through their slots in step. -/
def Stepped (op : Operation) : Prop :=
  op.isGate = true ∧ op.numClbits = 0 ∨ op = measure ∨ op = reset ∨ ∃ d, op = delay d

theorem turn?_of_getElem? {i : Nat} {slot : List α} {x : α} (h : slot[i]? = some x) :
    turn? i slot = some x := by
  unfold turn?
  split
  · rename_i hone
    obtain ⟨y, rfl⟩ := List.length_eq_one_iff.1 hone
    cases i with
    | zero => exact h
    | succ i => simp at h
  · exact h

@[simp] theorem turn?_singleton (i : Nat) (x : α) : turn? i [x] = some x := rfl

/-- Where all slots are long enough, each of them has a bit at the position. -/
theorem map_filterMap_getElem? {slots : List (List α)} {i n : Nat} (hi : i < n)
    (h : ∀ slot ∈ slots, slot.length = n) :
    (slots.filterMap (·[i]?)).map some = slots.map (turn? i) := by
  induction slots with
  | nil => rfl
  | cons slot rest ih =>
    obtain ⟨hslot, hrest⟩ := List.forall_mem_cons.1 h
    obtain ⟨x, hx⟩ : ∃ x, slot[i]? = some x := ⟨_, List.getElem?_eq_getElem (hslot ▸ hi)⟩
    rw [List.filterMap_cons, hx, List.map_cons, List.map_cons, turn?_of_getElem? hx, ih hrest]

/-! ## Going through the slots -/

namespace Lockstep

/-- Every application takes a bit of each slot. -/
theorem lengths {qubits : List (List Q)} {clbits : List (List C)} {out : List (List Q × List C)}
    (h : Lockstep qubits clbits out) {a : List Q × List C} (ha : a ∈ out) :
    a.1.length = qubits.length ∧ a.2.length = clbits.length := by
  obtain ⟨i, hi⟩ := List.getElem?_of_mem ha
  obtain ⟨hqubits, hclbits⟩ := h.operands i a hi
  exact ⟨by simpa using congrArg List.length hqubits, by simpa using congrArg List.length hclbits⟩

/-- Without slots there is one application, to nothing. -/
theorem none : Lockstep ([] : List (List Q)) ([] : List (List C)) [([], [])] where
  length := rfl
  operands i a h := by
    obtain rfl := List.mem_singleton.1 (List.mem_of_getElem? h)
    exact ⟨rfl, rfl⟩

/-- One slot gives an application for each bit. -/
theorem one (slot : List Q) :
    Lockstep [slot] ([] : List (List C)) (slot.map fun q => ([q], [])) where
  length := List.length_map _
  operands i a h := by
    rw [List.getElem?_map] at h
    obtain ⟨q, hq, rfl⟩ := Option.map_eq_some_iff.1 h
    simp [turn?_of_getElem? hq]

/-- Two slots of one length are paired. -/
theorem pair {first second : List Q} (h : first.length = second.length) :
    Lockstep [first, second] ([] : List (List C))
      (List.zipWith (fun x y => ([x, y], [])) first second) where
  length := by simp [rounds, h]
  operands i a ha := by
    obtain ⟨x, y, hx, hy, rfl⟩ := List.getElem?_zipWith_eq_some.1 ha
    simp [turn?_of_getElem? hx, turn?_of_getElem? hy]

/-- A single bit in front goes with each bit of the other slot. -/
theorem repeatFirst (x : Q) {slot : List Q} (h : slot ≠ []) :
    Lockstep [[x], slot] ([] : List (List C)) (slot.map fun y => ([x, y], [])) where
  length := by
    have hpos := List.length_pos_iff.2 h
    simp [rounds]
    omega
  operands i a ha := by
    rw [List.getElem?_map] at ha
    obtain ⟨y, hy, rfl⟩ := Option.map_eq_some_iff.1 ha
    simp [turn?_of_getElem? hy]

/-- A single bit at the end goes with each bit of the other slot. -/
theorem repeatSecond {slot : List Q} (h : slot ≠ []) (y : Q) :
    Lockstep [slot, [y]] ([] : List (List C)) (slot.map fun x => ([x, y], [])) where
  length := by
    have hpos := List.length_pos_iff.2 h
    simp [rounds]
    omega
  operands i a ha := by
    rw [List.getElem?_map] at ha
    obtain ⟨x, hx, rfl⟩ := Option.map_eq_some_iff.1 ha
    simp [turn?_of_getElem? hx]

/-- Any slots of one length may be gone through position by position. -/
theorem equal {slots : List (List Q)} {n : Nat} (hsome : slots ≠ [])
    (h : ∀ slot ∈ slots, slot.length = n) :
    Lockstep slots ([] : List (List C))
      ((List.range n).map fun i => (slots.filterMap (·[i]?), [])) where
  length := by
    have hlengths : slots.map List.length = List.replicate slots.length n := by
      rw [List.eq_replicate_iff]
      exact ⟨List.length_map _, List.forall_mem_map.2 h⟩
    have hpos := List.length_pos_iff.2 hsome
    rw [rounds, hlengths, List.map_nil, List.append_nil, List.max?_replicate_of_pos hpos]
    simp
  operands i a ha := by
    rw [List.getElem?_map] at ha
    obtain ⟨j, hj, rfl⟩ := Option.map_eq_some_iff.1 ha
    obtain ⟨hi, hij⟩ := List.getElem?_eq_some_iff.1 hj
    rw [List.getElem_range] at hij
    rw [List.length_range] at hi
    subst hij
    exact ⟨map_filterMap_getElem? hi h, rfl⟩

/-- Qubits and clbits of one number are measured in pairs. -/
theorem measured {qubits : List Q} {clbits : List C} (h : qubits.length = clbits.length) :
    Lockstep [qubits] [clbits] (List.zipWith (fun q c => ([q], [c])) qubits clbits) where
  length := by simp [rounds, h]
  operands i a ha := by
    obtain ⟨q, c, hq, hc, rfl⟩ := List.getElem?_zipWith_eq_some.1 ha
    simp [turn?_of_getElem? hq, turn?_of_getElem? hc]

/-- A single qubit is measured into each of the clbits. -/
theorem measuredOften (q : Q) {clbits : List C} (h : clbits ≠ []) :
    Lockstep [[q]] [clbits] (clbits.map fun c => ([q], [c])) where
  length := by
    have hpos := List.length_pos_iff.2 h
    simp [rounds]
    omega
  operands i a ha := by
    rw [List.getElem?_map] at ha
    obtain ⟨c, hc, rfl⟩ := Option.map_eq_some_iff.1 ha
    simp [turn?_of_getElem? hc]

end Lockstep

/-! ## Gates -/

theorem combinable_of_equal {slots : List (List Q)}
    (h : ∀ s ∈ slots, ∀ t ∈ slots, s.length = t.length) : Combinable slots := by
  rcases Nat.lt_trichotomy slots.length 2 with hlength | hlength | hlength
  · exact .inl (by omega)
  · exact .inr (.inl ⟨hlength, .inl h⟩)
  · exact .inr (.inr ⟨hlength, h⟩)

theorem combinable_of_single {first second : List Q} (h : first.length = 1 ∨ second.length = 1) :
    Combinable [first, second] := by
  refine .inr (.inl ⟨rfl, .inr ?_⟩)
  rcases h with h | h
  · exact ⟨first, by simp, h⟩
  · exact ⟨second, by simp, h⟩

/-- Three slots or more go together only if they are equally long. -/
theorem Combinable.equal_of_three {slots : List (List Q)} (h : Combinable slots)
    (hthree : 3 ≤ slots.length) : ∀ s ∈ slots, ∀ t ∈ slots, s.length = t.length := by
  rcases h with hone | ⟨htwo, -⟩ | ⟨-, hequal⟩
  · omega
  · omega
  · exact hequal

theorem Combinable.of_pair {first second : List Q} (h : Combinable [first, second]) :
    first.length = second.length ∨ first.length = 1 ∨ second.length = 1 := by
  rcases h with hone | ⟨-, hequal | ⟨s, hs, hsingle⟩⟩ | ⟨hthree, -⟩
  · simp at hone
  · exact .inl (hequal first (by simp) second (by simp))
  · rcases List.mem_pair.1 hs with rfl | rfl
    · exact .inr (.inl hsingle)
    · exact .inr (.inr hsingle)
  · simp at hthree

theorem any_isEmpty_iff {slots : List (List Q)} : slots.any (·.isEmpty) = true ↔ [] ∈ slots := by
  simp

/-- A gate goes through slots that are filled and go together. -/
theorem broadcastGate_steps {op : Operation} {slots : List (List Q)} {out : List (List Q × List C)}
    (h : op.broadcastGate slots = .ok out) :
    Lockstep slots [] out ∧ [] ∉ slots ∧ Combinable slots := by
  unfold broadcastGate at h
  split at h
  · cases h
  · rename_i hany
    have hfilled : [] ∉ slots := fun hmem => hany (any_isEmpty_iff.2 hmem)
    have hsome : ∀ slot ∈ slots, slot ≠ [] := fun slot hslot heq => hfilled (heq ▸ hslot)
    rcases slots with _ | ⟨first, _ | ⟨second, _ | ⟨third, rest⟩⟩⟩
    · cases h
      exact ⟨.none, hfilled, .inl (Nat.zero_le 1)⟩
    · cases h
      exact ⟨.one first, hfilled, .inl (Nat.le_refl 1)⟩
    · simp only at h
      split at h
      · rename_i hequal
        cases h
        exact ⟨.pair hequal, hfilled, combinable_of_equal (by simp [hequal])⟩
      · split at h
        · cases h
          exact ⟨.repeatFirst _ (hsome second (by simp)), hfilled, combinable_of_single (.inl rfl)⟩
        · cases h
          exact ⟨.repeatSecond (hsome first (by simp)) _, hfilled, combinable_of_single (.inr rfl)⟩
        · cases h
    · simp only at h
      split at h
      · rename_i hequal
        cases h
        have hlengths : ∀ slot ∈ first :: second :: third :: rest, slot.length = first.length := by
          refine List.forall_mem_cons.2 ⟨rfl, fun slot hslot => ?_⟩
          exact eq_of_beq (List.all_eq_true.1 hequal slot hslot)
        refine ⟨.equal (by simp) hlengths, hfilled, combinable_of_equal fun s hs t ht => ?_⟩
        exact (hlengths s hs).trans (hlengths t ht).symm
      · cases h

/-- All such slots are taken. -/
theorem broadcastGate_answers (op : Operation) {slots : List (List Q)} (hfilled : [] ∉ slots)
    (h : Combinable slots) : ∃ out : List (List Q × List C), op.broadcastGate slots = .ok out := by
  unfold broadcastGate
  rw [if_neg fun hany => hfilled (any_isEmpty_iff.1 hany)]
  rcases slots with _ | ⟨first, _ | ⟨second, _ | ⟨third, rest⟩⟩⟩
  · exact ⟨_, rfl⟩
  · exact ⟨_, rfl⟩
  · simp only
    split
    · exact ⟨_, rfl⟩
    · rename_i hunequal
      rcases h.of_pair with hequal | hfirst | hsecond
      · exact absurd hequal hunequal
      · obtain ⟨x, rfl⟩ := List.length_eq_one_iff.1 hfirst
        exact ⟨_, rfl⟩
      · obtain ⟨y, rfl⟩ := List.length_eq_one_iff.1 hsecond
        split
        · exact ⟨_, rfl⟩
        · exact ⟨_, rfl⟩
        · rename_i hnone
          exact absurd rfl (hnone y)
  · have hequal := h.equal_of_three (by simp)
    have hall : (second :: third :: rest).all (·.length == first.length) = true := by
      rw [List.all_eq_true]
      intro slot hslot
      rw [hequal slot (List.mem_cons_of_mem first hslot) first List.mem_cons_self, beq_self_eq_true]
    simp only [if_pos hall]
    exact ⟨_, rfl⟩

/-! ## Measurements -/

theorem broadcastMeasure_steps {op : Operation} {qubits : List Q} {clbits : List C}
    {out : List (List Q × List C)} (h : op.broadcastMeasure qubits clbits = .ok out) :
    Lockstep [qubits] [clbits] out ∧
      (qubits.length = clbits.length ∨ qubits.length = 1 ∧ clbits ≠ []) := by
  unfold broadcastMeasure at h
  split at h
  · rename_i hequal
    cases h
    exact ⟨.measured hequal, .inl hequal⟩
  · split at h
    · cases h
      exact ⟨.measuredOften _ (List.cons_ne_nil _ _), .inr ⟨rfl, List.cons_ne_nil _ _⟩⟩
    · cases h

theorem broadcastMeasure_answers (op : Operation) {qubits : List Q} {clbits : List C}
    (h : qubits.length = clbits.length ∨ qubits.length = 1 ∧ clbits ≠ []) :
    ∃ out, op.broadcastMeasure qubits clbits = .ok out := by
  unfold broadcastMeasure
  split
  · exact ⟨_, rfl⟩
  · rename_i hunequal
    rcases h with hequal | ⟨hone, hsome⟩
    · exact absurd hequal hunequal
    · obtain ⟨q, rfl⟩ := List.length_eq_one_iff.1 hone
      obtain ⟨c, rest, rfl⟩ := List.exists_cons_of_ne_nil hsome
      exact ⟨_, rfl⟩

/-! ## All of them -/

section Broadcast

variable {op : Operation} {qubits : List (List Q)} {clbits : List (List C)}
  {out : List (List Q × List C)}

/-- Whatever is not a barrier takes so many slots as it has operands. -/
theorem slots_of_broadcast (hop : ∀ width, op ≠ barrier width)
    (h : op.broadcast qubits clbits = .ok out) :
    qubits.length = op.numQubits ∧ clbits.length = op.numClbits := by
  unfold broadcast at h
  split at h
  · exact absurd rfl (hop _)
  · exact Instruction.checkCounts_eq_ok_iff.1 (Checking.seq_eq_ok_iff.1 h).1

/-- A gate goes through its slots, if there are as many as it has operands. -/
theorem broadcast_gate_eq_ok_iff (hgate : op.isGate = true) :
    op.broadcast qubits clbits = .ok out ↔
      (qubits.length = op.numQubits ∧ clbits.length = op.numClbits) ∧
        op.broadcastGate qubits = .ok out := by
  cases op with
  | gate g | custom o =>
    unfold broadcast
    simp only
    rw [Checking.seq_eq_ok_iff, Instruction.checkCounts_eq_ok_iff, if_pos hgate]
  | measure | reset | barrier width | delay d | store s | control flow => cases hgate

theorem broadcast_measure_eq_ok_iff :
    measure.broadcast qubits clbits = .ok out ↔
      ∃ q c, qubits = [q] ∧ clbits = [c] ∧ measure.broadcastMeasure q c = .ok out := by
  constructor
  · intro h
    obtain ⟨hqubits, hclbits⟩ := slots_of_broadcast (by simp) h
    obtain ⟨q, rfl⟩ := List.length_eq_one_iff.1 hqubits
    obtain ⟨c, rfl⟩ := List.length_eq_one_iff.1 hclbits
    exact ⟨q, c, rfl, rfl, h⟩
  · rintro ⟨q, c, rfl, rfl, h⟩
    exact h

/-- A reset or a delay is applied to each bit of its slot. -/
theorem broadcast_single_eq_ok_iff (hop : op = reset ∨ ∃ d, op = delay d) :
    op.broadcast qubits clbits = .ok out ↔
      ∃ q, qubits = [q] ∧ clbits = [] ∧ out = q.map fun x => ([x], []) := by
  constructor
  · intro h
    have hcounts := slots_of_broadcast (by rcases hop with rfl | ⟨d, rfl⟩ <;> simp) h
    rcases hop with rfl | ⟨d, rfl⟩
    all_goals
      obtain ⟨q, rfl⟩ := List.length_eq_one_iff.1 hcounts.1
      obtain rfl := List.length_eq_zero_iff.1 hcounts.2
      cases h
      exact ⟨q, rfl, rfl, rfl⟩
  · rintro ⟨q, rfl, rfl, rfl⟩
    rcases hop with rfl | ⟨d, rfl⟩ <;> rfl

/-- What goes through its slots in step does so. -/
theorem Stepped.lockstep (hop : op.Stepped) (h : op.broadcast qubits clbits = .ok out) :
    Lockstep qubits clbits out := by
  rcases hop with ⟨hgate, hnone⟩ | rfl | hsingle
  · obtain ⟨⟨-, hclbits⟩, hanswer⟩ := (broadcast_gate_eq_ok_iff hgate).1 h
    obtain rfl := List.length_eq_zero_iff.1 (hclbits.trans hnone)
    exact (broadcastGate_steps hanswer).1
  · obtain ⟨q, c, rfl, rfl, h⟩ := broadcast_measure_eq_ok_iff.1 h
    exact (broadcastMeasure_steps h).1
  · obtain ⟨q, rfl, rfl, rfl⟩ := (broadcast_single_eq_ok_iff hsingle).1 h
    exact .one q

/-- A gate without clbits takes slots of qubits, as many as it has operands, none of them empty and
of lengths that go together. A measurement takes one slot of each kind, with as many clbits as
qubits or with some clbits for a single qubit; resets and delays take any one slot. What is taken is
gone through in step, so every application has the operands that the operation takes. -/
theorem broadcast_exact (qubits : List (List Q)) (clbits : List (List C)) :
    (∀ op : Operation, op.isGate = true → op.numClbits = 0 →
      ((∃ out, op.broadcast qubits clbits = .ok out) ↔
        qubits.length = op.numQubits ∧ clbits = [] ∧ [] ∉ qubits ∧ Combinable qubits)) ∧
    ((∃ out, measure.broadcast qubits clbits = .ok out) ↔
      ∃ q c, qubits = [q] ∧ clbits = [c] ∧ (q.length = c.length ∨ q.length = 1 ∧ c ≠ [])) ∧
    (∀ op : Operation, op = reset ∨ (∃ d, op = delay d) →
      ((∃ out, op.broadcast qubits clbits = .ok out) ↔ ∃ q, qubits = [q] ∧ clbits = [])) ∧
    ∀ (op : Operation) (out : List (List Q × List C)), op.Stepped →
      op.broadcast qubits clbits = .ok out → Lockstep qubits clbits out ∧
        ∀ a ∈ out, a.1.length = op.numQubits ∧ a.2.length = op.numClbits := by
  refine ⟨fun op hgate hnone => ?_, ?_, fun op hop => ?_, fun op out hop h => ?_⟩
  · constructor
    · rintro ⟨out, h⟩
      obtain ⟨⟨hqubits, hclbits⟩, h⟩ := (broadcast_gate_eq_ok_iff hgate).1 h
      obtain ⟨-, hfilled, hcombinable⟩ := broadcastGate_steps h
      exact ⟨hqubits, List.length_eq_zero_iff.1 (hclbits.trans hnone), hfilled, hcombinable⟩
    · rintro ⟨hqubits, rfl, hfilled, hcombinable⟩
      obtain ⟨out, hout⟩ := broadcastGate_answers op hfilled hcombinable
      exact ⟨out, (broadcast_gate_eq_ok_iff hgate).2 ⟨⟨hqubits, hnone.symm⟩, hout⟩⟩
  · constructor
    · rintro ⟨out, h⟩
      obtain ⟨q, c, hq, hc, h⟩ := broadcast_measure_eq_ok_iff.1 h
      exact ⟨q, c, hq, hc, (broadcastMeasure_steps h).2⟩
    · rintro ⟨q, c, hq, hc, h⟩
      obtain ⟨out, hout⟩ := broadcastMeasure_answers measure h
      exact ⟨out, broadcast_measure_eq_ok_iff.2 ⟨q, c, hq, hc, hout⟩⟩
  · constructor
    · rintro ⟨out, h⟩
      obtain ⟨q, hq, hc, -⟩ := (broadcast_single_eq_ok_iff hop).1 h
      exact ⟨q, hq, hc⟩
    · rintro ⟨q, hq, hc⟩
      exact ⟨_, (broadcast_single_eq_ok_iff hop).2 ⟨q, hq, hc, rfl⟩⟩
  · have hsteps := hop.lockstep h
    have hcounts := slots_of_broadcast (by rintro width rfl; simp [Stepped, isGate] at hop) h
    refine ⟨hsteps, fun a ha => ?_⟩
    obtain ⟨hqubits, hclbits⟩ := hsteps.lengths ha
    exact ⟨hqubits.trans hcounts.1, hclbits.trans hcounts.2⟩

end Broadcast

/-- A controlled gate repeats its single control, where a gate on three qubits is refused such
slots. A qubit may be measured into two clbits, but not two qubits into one clbit. -/
theorem broadcast_repeats :
    (∃ out : List (List Nat × List Nat), (gate (.fixed .cx)).broadcast [[0], [1, 2]] [] = .ok out ∧
      Lockstep [[0], [1, 2]] [] out ∧ out.length = 2 ∧ ∀ a ∈ out, a.1.length = 2) ∧
    (¬ ∃ out : List (List Nat × List Nat),
      (custom (.gate "g" 3)).broadcast [[0], [1, 2], [3, 4]] [] = .ok out) ∧
    (∃ out : List (List Nat × List Nat), measure.broadcast [[0]] [[1, 2]] = .ok out ∧
      Lockstep [[0]] [[1, 2]] out) ∧
    ¬ ∃ out : List (List Nat × List Nat), measure.broadcast [[0, 1]] [[2]] = .ok out := by
  refine ⟨?_, ?_, ?_, ?_⟩
  · obtain ⟨hgates, -, -, hsteps⟩ := broadcast_exact [[0], [1, 2]] ([] : List (List Nat))
    have hslots : Combinable [[0], [1, 2]] := combinable_of_single (.inl rfl)
    obtain ⟨out, hout⟩ := (hgates (gate (.fixed .cx)) rfl rfl).2 ⟨rfl, rfl, by decide, hslots⟩
    obtain ⟨hlockstep, hcounts⟩ := hsteps _ out (.inl ⟨rfl, rfl⟩) hout
    exact ⟨out, hout, hlockstep, hlockstep.length, fun a ha => (hcounts a ha).1⟩
  · obtain ⟨hgates, -⟩ := broadcast_exact [[0], [1, 2], [3, 4]] ([] : List (List Nat))
    rw [hgates (custom (.gate "g" 3)) rfl rfl]
    rintro ⟨-, -, -, hslots⟩
    exact absurd (hslots.equal_of_three (by decide) [0] (by decide) [1, 2] (by decide)) (by decide)
  · obtain ⟨-, hmeasure, -, hsteps⟩ := broadcast_exact [[0]] [[1, 2]]
    obtain ⟨out, hout⟩ := hmeasure.2 ⟨_, _, rfl, rfl, .inr ⟨rfl, by decide⟩⟩
    exact ⟨out, hout, (hsteps _ out (.inr (.inl rfl)) hout).1⟩
  · obtain ⟨-, hmeasure, -⟩ := broadcast_exact [[0, 1]] [[2]]
    rw [hmeasure]
    rintro ⟨q, c, hq, hc, h⟩
    cases hq
    cases hc
    exact absurd h (by decide)

end QuantumCircuit.Operation
