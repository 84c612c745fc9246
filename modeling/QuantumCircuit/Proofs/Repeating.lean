import QuantumCircuit.Proofs.Fitting

/-!
# Repeated operands

An instruction is refused for the first operand that came before (`Distinct.FirstRepeat`): the entry
at the least position that holds an entry of an earlier position. Few operands are compared with
each other and many are collected, but both ways find that entry in lists of every length
(`Distinct.firstRepeat?_eq_some_iff`, `Distinct.firstRepeatInPlace?_eq`), so the length has no say
in the answer (`Instruction.repeats_refused`).
-/

namespace QuantumCircuit

namespace Distinct

variable {α : Type}

/-- That the list has `x` at position `i`, after an earlier entry of the list or a member of `seen`,
and that this is so of no position before `i`. -/
structure FirstRepeatAfter (seen xs : List α) (i : Nat) (x : α) : Prop where
  here : xs[i]? = some x
  before : x ∈ seen ∨ x ∈ xs.take i
  least : ∀ j < i, ∀ y, xs[j]? = some y → y ∉ seen ∧ y ∉ xs.take j

/-- That `i` is the least position that holds an entry of an earlier position, namely `x`. -/
abbrev FirstRepeat (xs : List α) (i : Nat) (x : α) : Prop := FirstRepeatAfter [] xs i x

section Positions

variable {seen rest : List α} {x y : α} {i : Nat}

theorem firstRepeatAfter_zero_iff :
    FirstRepeatAfter seen (y :: rest) 0 x ↔ y = x ∧ y ∈ seen := by
  constructor
  · intro h
    obtain rfl : y = x := Option.some.inj h.here
    exact ⟨rfl, h.before.resolve_right List.not_mem_nil⟩
  · rintro ⟨rfl, hseen⟩
    exact ⟨rfl, .inl hseen, fun j hj => absurd hj (Nat.not_lt_zero j)⟩

/-- Past an entry that is new, the search goes on with the entry among those seen. -/
theorem firstRepeatAfter_succ_iff : FirstRepeatAfter seen (y :: rest) (i + 1) x ↔
    y ∉ seen ∧ FirstRepeatAfter (y :: seen) rest i x := by
  have hmem : ∀ (j : Nat) (z : α),
      (z ∈ seen ∨ z ∈ (y :: rest).take (j + 1)) ↔ z ∈ y :: seen ∨ z ∈ rest.take j := by
    intro j z
    rw [List.take_succ_cons, List.mem_cons, List.mem_cons, or_left_comm, or_assoc]
  constructor
  · intro h
    refine ⟨(h.least 0 (Nat.succ_pos i) y rfl).1, h.here, (hmem i x).1 h.before, ?_⟩
    intro j hj z hz
    have hnew := h.least (j + 1) (Nat.succ_lt_succ hj) z hz
    exact not_or.1 (mt (hmem j z).2 (not_or.2 hnew))
  · rintro ⟨hy, h⟩
    refine ⟨h.here, (hmem i x).2 h.before, ?_⟩
    rintro (_ | j) hj z hz
    · obtain rfl : y = z := Option.some.inj hz
      exact ⟨hy, List.not_mem_nil⟩
    · have hnew := h.least j (Nat.lt_of_succ_lt_succ hj) z hz
      exact not_or.1 (mt (hmem j z).1 (not_or.2 hnew))

end Positions

variable [BEq α] [LawfulBEq α] {x : α}

theorem firstRepeatAfter?_eq_some_iff {seen xs : List α} :
    firstRepeatAfter? seen xs = some x ↔ ∃ i, FirstRepeatAfter seen xs i x := by
  induction xs generalizing seen with
  | nil => exact iff_of_false (fun h => nomatch h) fun ⟨_, h⟩ => nomatch h.here
  | cons y rest ih =>
    rw [← Nat.or_exists_add_one]
    simp only [firstRepeatAfter_zero_iff, firstRepeatAfter_succ_iff, exists_and_left, ← ih]
    rw [firstRepeatAfter?]
    by_cases hy : y ∈ seen
    · rw [if_pos (List.contains_iff_mem.2 hy)]
      simp [hy]
    · rw [if_neg (mt List.contains_iff_mem.1 hy)]
      simp [hy]

theorem firstRepeat?_eq_some_iff {xs : List α} :
    firstRepeat? xs = some x ↔ ∃ i, FirstRepeat xs i x := firstRepeatAfter?_eq_some_iff

end Distinct

namespace Instruction

theorem checkUnique_eq_error_iff {kind : BitKind} {operation : String} {operands : List Nat}
    {e : CircuitError} : checkUnique kind operation operands = .error e ↔
      ∃ i x, Distinct.FirstRepeat operands i x ∧ e = .repeatedOperand kind x operation := by
  have hfound : checkUnique kind operation operands = .error e ↔
      ∃ x, repeated? operands = some x ∧ e = .repeatedOperand kind x operation := by
    unfold checkUnique
    cases repeated? operands <;> simp [eq_comm]
  simp only [hfound, repeated?_eq, Distinct.firstRepeat?_eq_some_iff, ← exists_and_right]
  exact exists_comm

/-- Comparing operands with each other and collecting them find the same repeat in a list of any
length. Operands are refused exactly if they are not all different, for the one at the least
position that holds an earlier operand; and an instruction is in shape exactly if it has as many
operands as its operation takes, and neither kind repeats. -/
theorem repeats_refused :
    (∀ (operands : List Nat) (x : Nat),
      (Distinct.firstRepeatInPlace? operands = some x ↔ ∃ i, Distinct.FirstRepeat operands i x) ∧
      (Distinct.firstRepeat? operands = some x ↔ ∃ i, Distinct.FirstRepeat operands i x)) ∧
    (∀ (kind : BitKind) (operation : String) (operands : List Nat),
      (checkUnique kind operation operands = .ok () ↔ operands.Nodup) ∧
      ∀ e, checkUnique kind operation operands = .error e ↔
        ∃ i x, Distinct.FirstRepeat operands i x ∧ e = .repeatedOperand kind x operation) ∧
    ∀ i : Instruction, i.checkShape = .ok () ↔
      (i.qubits.length = i.operation.numQubits ∧ i.clbits.length = i.operation.numClbits) ∧
        i.qubits.Nodup ∧ i.clbits.Nodup := by
  refine ⟨fun operands x => ⟨?_, Distinct.firstRepeat?_eq_some_iff⟩,
    fun kind operation operands => ⟨checkUnique_eq_ok_iff, fun e => checkUnique_eq_error_iff⟩,
    fun i => checkShape_eq_ok_iff⟩
  rw [Distinct.firstRepeatInPlace?_eq]
  exact Distinct.firstRepeat?_eq_some_iff

/-- The entry that comes back first is found, not the one that came first. -/
example : repeated? [4, 7, 7, 4] = some 7 ∧ repeated? (List.range 10 ++ [3, 0]) = some 3 := by
  decide

end Instruction

end QuantumCircuit
