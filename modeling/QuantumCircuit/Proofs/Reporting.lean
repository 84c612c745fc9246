import QuantumCircuit.Proofs.Leaves
import QuantumCircuit.Proofs.Refusing
import QuantumCircuit.Proofs.Settling
import QuantumCircuit.Proofs.WellFormed

/-!
# What operations report, and what is rewritten in them

A record is accepted when the clbits and registers that its operation reports
(`Operation.classicalUse`) are in the circuit, and a composition hands the leaves of its expressions
to a function that says what becomes of them. The leaves that are handed over are all leaves of the
operation, from left to right (`Operation.remap_watches`). What they read is reported but for the
durations of delays and boxes, of which nothing is reported (`Operation.ofLeaves_leaves`).

So all that an accepted record reads is in the circuit if what its duration reads is, and nothing
sees to it that it is.
-/

namespace QuantumCircuit

variable {σ α β : Type}

/-! ## Edits that are watched -/

/-- The leaf function, beside a log of the leaves that it is asked for. -/
def watching (f : Expr → Edit σ (Option Expr)) (x : Expr) : Edit (σ × List Expr) (Option Expr) :=
  fun s => match f x s.1 with
    | .ok o t => .ok o (t, s.2 ++ [x])
    | .error c t => .error c (t, s.2 ++ [x])

/-- Watched, the edit does what it did, and asks for all of `asked` in this order, or for the first
few of them if it is refused. -/
structure Watches (asked : List Expr) (e : Edit σ α) (w : Edit (σ × List Expr) α) : Prop where
  answered : ∀ {s a t}, e s = .ok a t → ∀ log, w (s, log) = .ok a (t, log ++ asked)
  refused : ∀ {s c t}, e s = .error c t → ∀ log, ∃ seen, seen <+: asked ∧
    w (s, log) = .error c (t, log ++ seen)

namespace Watches

variable {asked rest : List Expr} {e : Edit σ α} {w : Edit (σ × List Expr) α}

theorem leaf (f : Expr → Edit σ (Option Expr)) (x : Expr) : Watches [x] (f x) (watching f x) where
  answered h log := by
    unfold watching
    rw [h]
  refused h log := by
    refine ⟨[x], List.prefix_rfl, ?_⟩
    unfold watching
    rw [h]

theorem ofExcept (r : Except CircuitError α) :
    Watches [] (Edit.ofExcept r : Edit σ α) (Edit.ofExcept r) where
  answered h log := by
    obtain ⟨hr, rfl⟩ := Edit.ofExcept_eq_ok_iff.1 h
    rw [List.append_nil]
    exact Edit.ofExcept_eq_ok_iff.2 ⟨hr, rfl⟩
  refused h log := by
    obtain ⟨hr, rfl⟩ := Edit.ofExcept_eq_error_iff.1 h
    refine ⟨[], List.prefix_rfl, ?_⟩
    rw [List.append_nil]
    exact Edit.ofExcept_eq_error_iff.2 ⟨hr, rfl⟩

theorem pure (a : α) : Watches [] (Pure.pure a : Edit σ α) (Pure.pure a) := ofExcept (.ok a)

theorem bind {k : α → Edit σ β} {l : α → Edit (σ × List Expr) β} (he : Watches asked e w)
    (hk : ∀ a, Watches rest (k a) (l a)) : Watches (asked ++ rest) (e >>= k) (w >>= l) where
  answered h log := by
    obtain ⟨a, u, ha, h⟩ := Edit.bind_eq_ok_iff.1 h
    rw [Edit.bind_apply_of_ok (he.answered ha log), (hk a).answered h, List.append_assoc]
  refused h log := by
    rcases Edit.bind_eq_error_iff.1 h with h | ⟨a, u, ha, h⟩
    · obtain ⟨seen, hseen, hw⟩ := he.refused h log
      exact ⟨seen, hseen.trans (List.prefix_append _ _), Edit.bind_eq_error_iff.2 (.inl hw)⟩
    · obtain ⟨seen, hseen, hl⟩ := (hk a).refused h (log ++ asked)
      refine ⟨asked ++ seen, (List.prefix_append_right_inj asked).2 hseen, ?_⟩
      rw [Edit.bind_apply_of_ok (he.answered ha log), hl, List.append_assoc]

/-- What is done with the answer asks for nothing. -/
theorem bind_idle {k : α → Edit σ β} {l : α → Edit (σ × List Expr) β} (he : Watches asked e w)
    (hk : ∀ a, Watches [] (k a) (l a)) : Watches asked (e >>= k) (w >>= l) := by
  have hboth := he.bind hk
  rwa [List.append_nil] at hboth

end Watches

/-! ## Leaves -/

/-- Whether the node has no parts. -/
def Expr.isLeaf : Expr → Bool
  | .unary _ _ _ | .binary _ _ _ _ | .cast _ _ _ | .index _ _ _ => false
  | _ => true

/-- The leaves of the expression, from left to right. -/
def Expr.leaves (e : Expr) : List Expr := e.nodes.filter (·.isLeaf)

/-- The leaves of all expressions that the operation names itself. -/
def Operation.leaves (op : Operation) : List Expr := op.nodes.filter (·.isLeaf)

/-- The expression that a delay or a box lasts for. -/
def Operation.duration? : Operation → Option Expr
  | .delay d => d.expr?
  | .control (.box _ (some d)) => d.expr?
  | _ => none

/-- The operation with its leaves replaced and its bodies renamed. -/
def Operation.remap (f : Expr → Edit σ (Option Expr)) (r : Renaming) :
    Operation → Edit σ Operation
  | .store s => do return .store (← s.mapLeaves f)
  | .delay d => do return .delay (← d.mapLeaves f)
  | .control flow => do
    let mapped ← flow.mapLeaves f
    if r.changesAny then
      let bodies ← Edit.ofExcept (flow.renameBodies r)
      return .control (← Edit.ofExcept (mapped.replaceBodies bodies))
    else return .control mapped
  | op => Pure.pure op

/-- A composition remaps by what it has for the leaves. -/
theorem LeafMap.operation_eq_remap (m : LeafMap) (op : Operation) :
    m.operation op = op.remap m.leaf m.identifiers := by
  cases op <;> rfl

section Asking

variable (f : Expr → Edit σ (Option Expr))

theorem Expr.mapLeaves_watches (e : Expr) :
    Watches e.leaves (e.mapLeaves f) (e.mapLeaves (watching f)) := by
  induction e with
  | var v | stretch s | clbit b | register r | value v t =>
    exact (Watches.leaf f _).bind_idle fun o => .pure _
  | unary op e t ih | cast e t i ih => exact ih.bind_idle fun e' => .pure _
  | binary op l r t ihl ihr | index l r t ihl ihr =>
    show Watches ((l.nodes ++ r.nodes).filter (·.isLeaf)) _ _
    rw [List.filter_append]
    exact ihl.bind fun l' => ihr.bind_idle fun r' => .pure _

theorem Duration.mapLeaves_watches (d : Duration) :
    Watches (d.nodes.filter (·.isLeaf)) (d.mapLeaves f) (d.mapLeaves (watching f)) := by
  cases d with
  | dt steps => exact .pure _
  | expr e => exact (e.mapLeaves_watches f).bind_idle fun e' => .pure _

theorem Store.mapLeaves_watches (a : Store) :
    Watches (a.nodes.filter (·.isLeaf)) (a.mapLeaves f) (a.mapLeaves (watching f)) := by
  unfold Store.nodes
  rw [List.filter_append]
  exact (a.target.mapLeaves_watches f).bind fun target =>
    (a.value.mapLeaves_watches f).bind_idle fun value => .pure _

theorem Condition.mapLeaves_watches (c : Condition) :
    Watches (c.nodes.filter (·.isLeaf)) (c.mapLeaves f) (c.mapLeaves (watching f)) := by
  cases c with
  | clbit b v | register r v =>
    refine (Watches.leaf f _).bind_idle fun o => ?_
    cases o with
    | none => exact .pure _
    | some x => cases x <;> exact .pure _
  | expr e => exact (e.mapLeaves_watches f).bind_idle fun e' => .pure _

theorem SwitchTarget.mapLeaves_watches (t : SwitchTarget) :
    Watches (t.nodes.filter (·.isLeaf)) (t.mapLeaves f) (t.mapLeaves (watching f)) := by
  cases t with
  | clbit b | register r =>
    refine (Watches.leaf f _).bind_idle fun o => ?_
    cases o with
    | none => exact .pure _
    | some x => cases x <;> exact .pure _
  | expr e => exact (e.mapLeaves_watches f).bind_idle fun e' => .pure _

theorem ControlFlow.mapLeaves_watches (flow : ControlFlow) :
    Watches (flow.nodes.filter (·.isLeaf)) (flow.mapLeaves f) (flow.mapLeaves (watching f)) := by
  cases flow with
  | ifElse c t e => exact (c.mapLeaves_watches f).bind_idle fun c' => .pure _
  | whileLoop c b => exact (c.mapLeaves_watches f).bind_idle fun c' => .pure _
  | switchCase t arms => exact (t.mapLeaves_watches f).bind_idle fun t' => .pure _
  | box b d =>
    cases d with
    | none => exact .pure _
    | some d => exact (d.mapLeaves_watches f).bind_idle fun d' => .pure _
  | forLoop i p b | jump j q c => exact .pure _

/-- Remapping asks for the leaves of the operation and for nothing else; bodies are renamed without
asking. -/
theorem Operation.remap_watches (r : Renaming) (op : Operation) :
    Watches op.leaves (op.remap f r) (op.remap (watching f) r) := by
  cases op with
  | store s => exact (s.mapLeaves_watches f).bind_idle fun s' => .pure _
  | delay d => exact (d.mapLeaves_watches f).bind_idle fun d' => .pure _
  | control flow =>
    refine (flow.mapLeaves_watches f).bind_idle fun mapped => ?_
    split
    · refine (Watches.ofExcept _).bind_idle fun bodies => ?_
      exact (Watches.ofExcept _).bind_idle fun flow' => .pure _
    · exact .pure _
  | gate | custom | measure | reset | barrier => exact .pure _

end Asking

/-! ## What is reported -/

/-- The clbits and registers that are read by the leaves. -/
def ClassicalUse.ofLeaves (leaves : List Expr) : ClassicalUse :=
  ⟨leaves.filterMap (·.ownClbit?), leaves.filterMap (·.ownRegister?)⟩

theorem ClassicalUse.ofLeaves_append (xs ys : List Expr) :
    ofLeaves (xs ++ ys) = (ofLeaves xs).append (ofLeaves ys) := by
  simp [ofLeaves, append]

/-- What an expression reads, its leaves read. -/
theorem Expr.ofLeaves_leaves (e : Expr) : ClassicalUse.ofLeaves e.leaves = .ofExpr e := by
  have hclbit : ∀ x : Expr, x.isLeaf = false → x.ownClbit? = none := fun x hx => by
    cases x <;> cases hx <;> rfl
  have hregister : ∀ x : Expr, x.isLeaf = false → x.ownRegister? = none := fun x hx => by
    cases x <;> cases hx <;> rfl
  have hkept : ∀ {γ : Type} (g : Expr → Option γ) (l : List Expr),
      (∀ x : Expr, x.isLeaf = false → g x = none) →
      (l.filter (·.isLeaf)).filterMap g = l.filterMap g := by
    intro γ g l hg
    rw [List.filterMap_filter]
    refine List.filterMap_congr fun x _ => ?_
    cases hx : x.isLeaf with
    | true => rfl
    | false => exact (hg x hx).symm
  unfold leaves ClassicalUse.ofLeaves ClassicalUse.ofExpr clbits registers
  rw [hkept _ _ hclbit, hkept _ _ hregister]

namespace Operation

/-- What the duration of the operation reads. -/
def durationUse (op : Operation) : ClassicalUse := (op.duration?.map .ofExpr).getD .none

/-- The leaves read what is reported, in this order; but where an operation lasts for an expression
nothing is reported, and they read what the expression does. -/
theorem ofLeaves_leaves (op : Operation) :
    ClassicalUse.ofLeaves op.leaves = op.classicalUse.append op.durationUse ∧
      (op.duration? ≠ none → op.classicalUse = .none) := by
  have hnone : ∀ u : ClassicalUse, u.append .none = u := fun u => by
    simp [ClassicalUse.append, ClassicalUse.none]
  have hlasts : ∀ d : Duration, ClassicalUse.ofLeaves (d.nodes.filter (·.isLeaf)) =
      ClassicalUse.none.append ((d.expr?.map ClassicalUse.ofExpr).getD .none) := by
    intro d
    cases d with
    | dt steps => rfl
    | expr e => exact e.ofLeaves_leaves
  have hcondition : ∀ c : Condition,
      ClassicalUse.ofLeaves (c.nodes.filter (·.isLeaf)) = c.classicalUse.append .none := by
    intro c
    cases c with
    | clbit b v | register r v => rfl
    | expr e => rw [hnone]; exact e.ofLeaves_leaves
  have htarget : ∀ t : SwitchTarget,
      ClassicalUse.ofLeaves (t.nodes.filter (·.isLeaf)) = t.classicalUse.append .none := by
    intro t
    cases t with
    | clbit b | register r => rfl
    | expr e => rw [hnone]; exact e.ofLeaves_leaves
  cases op with
  | store s =>
    refine ⟨?_, fun h => absurd rfl h⟩
    show ClassicalUse.ofLeaves ((s.target.nodes ++ s.value.nodes).filter (·.isLeaf)) = _
    rw [List.filter_append, ClassicalUse.ofLeaves_append]
    exact (congrArg₂ _ s.target.ofLeaves_leaves s.value.ofLeaves_leaves).trans (hnone _).symm
  | delay d => exact ⟨hlasts d, fun _ => rfl⟩
  | control flow =>
    cases flow with
    | ifElse c t e => exact ⟨hcondition c, fun h => absurd rfl h⟩
    | whileLoop c b => exact ⟨hcondition c, fun h => absurd rfl h⟩
    | switchCase t arms => exact ⟨htarget t, fun h => absurd rfl h⟩
    | forLoop i p b | jump j q c => exact ⟨rfl, fun h => absurd rfl h⟩
    | box b d =>
      cases d with
      | none => exact ⟨rfl, fun h => absurd rfl h⟩
      | some d => exact ⟨hlasts d, fun _ => rfl⟩
  | gate | custom | measure | reset | barrier => exact ⟨rfl, fun h => absurd rfl h⟩

end Operation

/-! ## What is accepted -/

namespace Circuit

variable {A : Policy} {c d : Circuit} {i : Instruction}

/-- The store takes the record, or the active scope does. -/
def Accepts (c : Circuit) (i : Instruction) : Prop :=
  (∃ u, Content.push i c.content = .ok () u) ∨ ∃ d, Circuit.append i c = .ok () d

/-- All that the use names is in the circuit. -/
abbrev Has (c : Circuit) (u : ClassicalUse) : Prop := c.content.surroundings.Cover [] u

theorem has_append_iff {u v : ClassicalUse} : c.Has (u.append v) ↔ c.Has u ∧ c.Has v := by
  constructor
  · rintro ⟨-, hclbits, hregisters⟩
    obtain ⟨hu, hv⟩ := List.forall_mem_append.1 hclbits
    obtain ⟨hu', hv'⟩ := List.forall_mem_append.1 hregisters
    exact ⟨⟨by simp, hu, hu'⟩, ⟨by simp, hv, hv'⟩⟩
  · rintro ⟨hu, hv⟩
    exact hu.append hv

theorem has_of_push (hc : c.Reachable A) {u : Content}
    (h : Content.push i c.content = .ok () u) : c.Has i.operation.classicalUse := by
  obtain ⟨hcheck, -⟩ := Checking.seq_eq_ok_iff.1 (Edit.update_eq_ok_iff.1 h)
  have hfits := ((Content.check_eq_ok_iff hc.built.orderly.clbits).1 hcheck).1
  exact ⟨by simp, hfits.reads.clbits, hfits.reads.registers⟩

/-- What an open block takes note of is in the circuit. -/
theorem has_of_positions (hc : c.Reachable A) {u : ClassicalUse} {positions : List Nat}
    (h : c.content.classicalPositions u = .ok positions) : c.Has u := by
  obtain ⟨hchecked, -⟩ := Checking.seq_eq_ok_iff.1 h
  obtain ⟨hclbits, hregisters⟩ := Checking.seq_eq_ok_iff.1 hchecked
  refine ⟨by simp, fun bit hbit => ?_, fun r hr => ?_⟩
  · have hlocated := checkEach_eq_ok_iff.1 hclbits bit hbit
    obtain ⟨found, hfound, -⟩ := Checking.bind_eq_ok_iff.1 hlocated
    unfold Content.locate at hfound
    split at hfound
    · rename_i hsome
      refine hc.built.orderly.clbits.contains_iff.1 ?_
      unfold BitList.contains
      exact Option.isSome_iff_exists.2 ⟨_, hsome⟩
    · cases hfound
  · exact Content.checkRegister_eq_ok_iff.1 (checkEach_eq_ok_iff.1 hregisters r hr)

theorem has_of_append (hc : c.Reachable A) (h : Circuit.append i c = .ok () d) :
    c.Has i.operation.classicalUse := by
  by_cases hclosed : c.blocks = []
  · rw [append_of_closed hclosed] at h
    obtain ⟨u, hu, -⟩ := Edit.within_eq_ok_iff.1 h
    exact has_of_push hc hu
  · rcases append_cases hclosed i with ⟨e, hrefused⟩ | ⟨-, htakes, -⟩
    · cases hrefused.symm.trans h
    · obtain ⟨positions, hpositions⟩ := htakes.positions
      exact (has_append_iff.1 (has_of_positions hc hpositions)).1

/-- What an accepted record reports is in the circuit. -/
theorem Accepts.has (h : c.Accepts i) (hc : c.Reachable A) : c.Has i.operation.classicalUse := by
  rcases h with ⟨u, hu⟩ | ⟨d, hd⟩
  · exact has_of_push hc hu
  · exact has_of_append hc hd

end Circuit

/-- Remapping an operation asks for its leaves, from left to right, and for nothing else. What they
read is reported, unless it is read by a duration: of an operation that lasts for an expression
nothing is reported. So all that the leaves of an accepted record read is in the circuit exactly if
what its duration reads is. -/
theorem Operation.reported_of_remapped (op : Operation) :
    (∀ m : LeafMap, m.operation op = op.remap m.leaf m.identifiers) ∧
    (∀ (σ : Type) (f : Expr → Edit σ (Option Expr)) (r : Renaming),
      Watches op.leaves (op.remap f r) (op.remap (watching f) r)) ∧
    ClassicalUse.ofLeaves op.leaves = op.classicalUse.append op.durationUse ∧
    (op.duration? ≠ none → op.classicalUse = .none) ∧
    ∀ (A : Policy) (c : Circuit) (i : Instruction), c.Reachable A → i.operation = op →
      c.Accepts i → (c.Has (.ofLeaves op.leaves) ↔ c.Has op.durationUse) := by
  obtain ⟨hread, hduration⟩ := op.ofLeaves_leaves
  refine ⟨fun m => m.operation_eq_remap op, fun σ f r => op.remap_watches f r, hread, hduration, ?_⟩
  rintro A c i hc rfl haccepts
  rw [hread, Circuit.has_append_iff]
  exact and_iff_right (haccepts.has hc)

/-- A delay for as long as a clbit says that is in no register. -/
def delayByClbit : Instruction :=
  .make (.delay (.expr (.cast (.clbit (.loose .classical ⟨1, 0⟩)) .duration false))) [0] []

/-- A circuit of one qubit that has the clbit as well. -/
def qubitAndClbit : Circuit :=
  ⟨"d", Content.empty.after [.addBit .quantum (.loose .quantum ⟨2, 0⟩),
    .addBit .classical (.loose .classical ⟨1, 0⟩)], []⟩

/-- A circuit of one qubit and no clbits. -/
def qubitAlone : Circuit :=
  ⟨"d", Content.empty.after [.addBit .quantum (.loose .quantum ⟨2, 0⟩)], []⟩

/-- Where the clbit is in the circuit, the delay is accepted with all that its leaves read. -/
theorem delayByClbit_has : qubitAndClbit.Reachable .any ∧ qubitAndClbit.Accepts delayByClbit ∧
    qubitAndClbit.Has (.ofLeaves delayByClbit.operation.leaves) := by
  have hreach : qubitAndClbit.Reachable .any := .ofStore "d" (.empty_after rfl)
  have haccepts : qubitAndClbit.Accepts delayByClbit :=
    .inr (Edit.answers_of_isOk (by decide +kernel))
  obtain ⟨-, -, -, -, hall⟩ := Operation.reported_of_remapped delayByClbit.operation
  refine ⟨hreach, haccepts, (hall _ _ _ hreach rfl haccepts).2 ⟨by simp, fun bit hbit => ?_, ?_⟩⟩
  · obtain rfl := List.mem_singleton.1 hbit
    exact List.mem_singleton.2 rfl
  · exact fun r hr => absurd hr List.not_mem_nil

/-- Where it is not the delay is accepted all the same: its leaf is asked for, but not reported. -/
theorem delayByClbit_accepted : qubitAlone.Reachable .any ∧ qubitAlone.Accepts delayByClbit ∧
    ∃ bit, .clbit bit ∈ delayByClbit.operation.leaves ∧
      bit ∉ delayByClbit.operation.classicalUse.clbits ∧ bit ∉ qubitAlone.content.clbits.bits := by
  refine ⟨.ofStore "d" (.empty_after rfl), .inr (Edit.answers_of_isOk (by decide +kernel)),
    .loose .classical ⟨1, 0⟩, List.mem_singleton.2 rfl, List.not_mem_nil, List.not_mem_nil⟩

end QuantumCircuit
