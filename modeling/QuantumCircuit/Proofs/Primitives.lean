import QuantumCircuit.Circuit.Builder
import QuantumCircuit.Proofs.Fitting

/-!
# The calls that all others come down to

Uses, declarations, jumps and records: what each of them does to a circuit, said once, where a
block is open and where none is. One that is refused leaves the circuit as it was; only a record
may leave uses behind.

All builders that read something begin in one way (`Circuit.opening`), and a box begins with the
uses of its duration. So what uses keep, the heads of builders keep (`Circuit.opening_keeps`,
`Circuit.openBox_keeps`).
-/

namespace QuantumCircuit

/-! ## Captures -/

section Captures

variable {α : Type} {i : Identifier} {b : Block} {outer : List Block}

theorem captureThrough_of_resolves (h : b.resolves i) :
    captureThrough i (b :: outer) = b :: outer := by
  rw [captureThrough, if_pos h]

theorem captureThrough_of_not_resolves (h : ¬ b.resolves i) : captureThrough i (b :: outer) =
    b.touch ⟨[], [], [], [i]⟩ :: captureThrough i outer := by
  rw [captureThrough, if_neg h]
  rfl

/-- A use is noted in footprints only, so what does not depend on captures stays in every block. -/
theorem map_captureThrough {f : Block → α} (hf : ∀ b, f (b.touch ⟨[], [], [], [i]⟩) = f b)
    (blocks : List Block) : (captureThrough i blocks).map f = blocks.map f := by
  induction blocks with
  | nil => rfl
  | cons b outer ih =>
    by_cases hresolves : b.resolves i
    · rw [captureThrough_of_resolves hresolves]
    · rw [captureThrough_of_not_resolves hresolves, List.map_cons, List.map_cons, hf, ih]

end Captures

namespace Circuit

variable {c d : Circuit} {e : CircuitError} {i : Identifier} {j : Jump} {r : Instruction}
  {item : BlockItem} {u : ClassicalUse} {top : Block} {outer : List Block}

theorem onTop_of_blocks (hblocks : c.blocks = top :: outer) (f : Block → Block) :
    c.onTop f = ⟨c.name, c.content, f top :: outer⟩ := by
  unfold onTop
  rw [hblocks]

theorem onTop_of_closed (hclosed : c.blocks = []) (f : Block → Block) : c.onTop f = c := by
  unfold onTop
  rw [hclosed]

@[simp] theorem onTop_content (f : Block → Block) (c : Circuit) :
    (c.onTop f).content = c.content := by
  unfold onTop
  split <;> rfl

@[simp] theorem onTop_name (f : Block → Block) (c : Circuit) : (c.onTop f).name = c.name := by
  unfold onTop
  split <;> rfl

/-! ## Uses -/

theorem useIdentifier_eq_ok_iff : useIdentifier i c = .ok () d ↔
    checkResolves c.content i c.blocks = .ok () ∧
      d = { c with blocks := captureThrough i c.blocks } := by
  rw [useIdentifier, Edit.update_eq_ok_iff, Checking.seq_eq_ok_iff]
  simp only [pure, Except.pure, Except.ok.injEq, eq_comm]

theorem useIdentifier_leaves (h : (useIdentifier i).Leaves c d) :
    d = c ∨ d = { c with blocks := captureThrough i c.blocks } := by
  rcases h with ⟨_, h⟩ | ⟨_, h⟩
  · exact .inr (useIdentifier_eq_ok_iff.1 h).2
  · exact .inl (Edit.update_eq_error_iff.1 h).2.symm

/-- Outside every block a use of clbits is checked, but there is nothing to note it in. -/
theorem useClassical_eq_ok_iff_of_closed (hclosed : c.blocks = []) :
    useClassical u c = .ok () d ↔ c.content.checkClassical u = .ok () ∧ d = c := by
  rw [useClassical, Edit.update_eq_ok_iff, hclosed, Checking.seq_eq_ok_iff]
  simp only [pure, Except.pure, Except.ok.injEq, eq_comm]

theorem useClassical_eq_ok_iff_of_open (hopen : c.blocks ≠ []) :
    useClassical u c = .ok () d ↔ ∃ positions, c.content.classicalPositions u = .ok positions ∧
      d = c.onTop (·.touch ⟨[], positions, u.registers, []⟩) := by
  obtain ⟨top, outer, hblocks⟩ := List.exists_cons_of_ne_nil hopen
  rw [useClassical, Edit.update_eq_ok_iff, hblocks, Checking.bind_eq_ok_iff]
  simp only [pure, Except.pure, Except.ok.injEq, Footprint.empty, eq_comm]

theorem useClassical_leaves (h : (useClassical u).Leaves c d) :
    d = c ∨ ∃ positions, d = c.onTop (·.touch ⟨[], positions, u.registers, []⟩) := by
  rcases h with ⟨_, h⟩ | ⟨_, h⟩
  · by_cases hclosed : c.blocks = []
    · exact .inl ((useClassical_eq_ok_iff_of_closed hclosed).1 h).2
    · obtain ⟨positions, -, hd⟩ := (useClassical_eq_ok_iff_of_open hclosed).1 h
      exact .inr ⟨positions, hd⟩
  · exact .inl (Edit.update_eq_error_iff.1 h).2.symm

/-- What can be used is checked alike outside and in a block. -/
theorem checkClassical_of_useClassical (h : useClassical u c = .ok () d) :
    c.content.checkClassical u = .ok () := by
  by_cases hclosed : c.blocks = []
  · exact ((useClassical_eq_ok_iff_of_closed hclosed).1 h).1
  · obtain ⟨positions, hpositions, -⟩ := (useClassical_eq_ok_iff_of_open hclosed).1 h
    exact (Checking.seq_eq_ok_iff.1 hpositions).1

/-! ## Declarations -/

theorem declare_of_closed (hclosed : c.blocks = []) :
    declare i c = Edit.within contentFocus (Content.addIdentifier i .declare) c := by
  unfold declare
  rw [hclosed]

theorem declare_eq_ok_iff_of_open (hblocks : c.blocks = top :: outer) :
    declare i c = .ok () d ↔ c.checkDeclaration i = .ok () ∧
      d = ⟨c.name, c.content, { top with locals := top.locals.insert i .declare } :: outer⟩ := by
  unfold declare
  rw [hblocks]
  cases c.checkDeclaration i <;> simp [eq_comm]

theorem declare_refused (hopen : c.blocks ≠ []) (h : declare i c = .error e d) : d = c := by
  unfold declare at h
  split at h
  · exact absurd ‹_› hopen
  · split at h <;> cases h
    rfl

theorem declare_leaves_of_open (hblocks : c.blocks = top :: outer) (h : (declare i).Leaves c d) :
    d = c ∨
      d = ⟨c.name, c.content, { top with locals := top.locals.insert i .declare } :: outer⟩ := by
  rcases h with ⟨_, h⟩ | ⟨_, h⟩
  · exact .inr ((declare_eq_ok_iff_of_open hblocks).1 h).2
  · exact .inl (declare_refused (hblocks ▸ List.cons_ne_nil _ _) h)

/-- In a block a name can be declared that means nothing there. -/
theorem checkDeclaration_eq_ok (hblocks : c.blocks = top :: outer)
    (h : c.checkDeclaration i = .ok ()) :
    c.nameVisible i.name = false ∧ top.locals.get? i.name = none := by
  unfold checkDeclaration at h
  rw [hblocks] at h
  simp only at h
  split at h
  · cases h
  · rename_i hvisible
    exact ⟨Bool.eq_false_iff.2 hvisible, IdentifierTable.get?_eq_none_of_check h⟩

/-! ## Jumps -/

theorem jump_of_closed (hclosed : c.blocks = []) :
    jump j c = Edit.within contentFocus (Content.push (.make
      (.control (.jump j c.numQubits c.numClbits)) (List.range c.numQubits)
      (List.range c.numClbits))) c := by
  unfold jump
  rw [hclosed]

theorem jump_eq_ok_iff_of_open (hblocks : c.blocks = top :: outer) :
    jump j c = .ok () d ↔ top.ban = none ∧ d = c.onTop (·.snoc (.jump j)) := by
  unfold jump
  rw [hblocks]
  cases htop : top.ban <;> simp [htop, eq_comm]

theorem jump_refused (hopen : c.blocks ≠ []) (h : jump j c = .error e d) : d = c := by
  unfold jump at h
  split at h
  · exact absurd ‹_› hopen
  · split at h <;> cases h
    rfl

theorem jump_leaves_of_open (hopen : c.blocks ≠ []) (h : (jump j).Leaves c d) :
    d = c ∨ d = c.onTop (·.snoc (.jump j)) := by
  rcases h with ⟨_, h⟩ | ⟨_, h⟩
  · obtain ⟨top, outer, hblocks⟩ := List.exists_cons_of_ne_nil hopen
    exact .inr ((jump_eq_ok_iff_of_open hblocks).1 h).2
  · exact .inl (jump_refused hopen h)

/-! ## Records -/

/-- Where no block is open a record goes to the store. -/
theorem append_of_closed (hclosed : c.blocks = []) :
    append r c = Edit.within contentFocus (Content.push r) c := by
  unfold append
  rw [hclosed]

theorem append_eq_ok_iff_of_closed (hclosed : c.blocks = []) : append r c = .ok () d ↔
    c.content.check r = .ok () ∧ d = { c with content := c.content.snoc r } := by
  rw [append_of_closed hclosed]
  exact Edit.within_eq_ok_iff_of fun _ => Content.push_eq_ok_iff

/-- What it is to add a record where a block is open. -/
theorem append_of_open (hopen : c.blocks ≠ []) : append r c = (do
    Edit.ofExcept (c.checkAppend r [])
    Edit.each useIdentifier r.operation.identifiers
    useClassical r.classicalFootprint
    modify (onTop fun top => (top.touch ⟨r.qubits, r.clbits, [], []⟩).snoc (.record r)) :
      Edit Circuit Unit) c := by
  unfold append
  split
  · exact absurd ‹_› hopen
  · rfl

/-- A record that a block takes has passed its checks and comes in after the uses that it makes. -/
theorem append_eq_ok_of_open (hopen : c.blocks ≠ []) (h : append r c = .ok () d) :
    c.checkAppend r [] = .ok () ∧ ∃ u v,
      Edit.each useIdentifier r.operation.identifiers c = .ok () u ∧
      useClassical r.classicalFootprint u = .ok () v ∧
      (v.onTop fun top => (top.touch ⟨r.qubits, r.clbits, [], []⟩).snoc (.record r)) = d := by
  rw [append_of_open hopen] at h
  obtain ⟨_, hcheck, h⟩ := Edit.ofExcept_bind_eq_ok_iff.1 h
  obtain ⟨_, u, huse, h⟩ := Edit.bind_eq_ok_iff.1 h
  obtain ⟨_, v, hclassical, h⟩ := Edit.bind_eq_ok_iff.1 h
  cases h
  exact ⟨hcheck, u, v, huse, hclassical, rfl⟩

/-- What waits for the loop around it is left in a block. -/
theorem appendWaiting_eq_ok_iff :
    appendWaiting item c = .ok () d ↔ c.blocks ≠ [] ∧ d = c.onTop (·.snoc item) := by
  unfold appendWaiting
  cases hblocks : c.blocks <;> simp [eq_comm]

theorem appendWaiting_refused (h : appendWaiting item c = .error e d) : d = c := by
  unfold appendWaiting at h
  split at h <;> cases h
  rfl

/-! ## Heads of builders -/

variable {P : Circuit → Prop} {is : List Identifier} {check : Except CircuitError Unit}
  {ban : Circuit → Option JumpBan} {template : Block} {duration : Option Duration}

/-- How a builder begins that reads something: it is checked and used, and the bodies start from a
block that is seeded with it. `openBranch`, `openLoop` and `openSwitch` are by definition this. -/
def opening (check : Except CircuitError Unit) (u : ClassicalUse) (is : List Identifier)
    (ban : Circuit → Option JumpBan) : Edit Circuit Block := do
  Edit.ofExcept check
  useInScope u is
  let c ← get
  Edit.ofExcept (Block.seeded c.content u (ban c))

theorem opening_eq_ok (h : opening check u is ban c = .ok template d) :
    useInScope u is c = .ok () d ∧ Block.seeded d.content u (ban d) = .ok template := by
  obtain ⟨_, -, h⟩ := Edit.ofExcept_bind_eq_ok_iff.1 h
  obtain ⟨_, v, huse, h⟩ := Edit.bind_eq_ok_iff.1 h
  rw [Edit.get_bind_apply] at h
  obtain ⟨hseeded, rfl⟩ := Edit.ofExcept_eq_ok_iff.1 h
  exact ⟨huse, hseeded⟩

/-- A box that reads nothing leaves the circuit as it was. -/
theorem openBox_eq_ok (h : openBox duration c = .ok template d) :
    template = .empty (some .insideBox) ∧ (duration = none ∧ d = c ∨
      ∃ t, duration = some t ∧ useInScope .none t.identifiers c = .ok () d) := by
  cases duration with
  | none =>
    cases h
    exact ⟨rfl, .inl ⟨rfl, rfl⟩⟩
  | some t =>
    obtain ⟨_, -, h⟩ := Edit.ofExcept_bind_eq_ok_iff.1 h
    obtain ⟨_, v, huse, h⟩ := Edit.bind_eq_ok_iff.1 h
    cases h
    exact ⟨rfl, .inr ⟨t, rfl, huse⟩⟩

theorem opening_keeps (h : ∀ u is, (useInScope u is).Keeps P) : (opening check u is ban).Keeps P :=
  (Edit.Keeps.ofExcept _).bind fun _ => (h u is).bind fun _ => .read fun _ => .ofExcept _

theorem openBox_keeps (h : ∀ u is, (useInScope u is).Keeps P) : (openBox duration).Keeps P := by
  cases duration with
  | none => exact .pure _
  | some t => exact (Edit.Keeps.ofExcept _).bind fun _ => (h _ _).bind fun _ => .pure _

end Circuit

end QuantumCircuit
