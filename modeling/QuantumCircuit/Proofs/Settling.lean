import QuantumCircuit.Circuit.Operation
import QuantumCircuit.Proofs.Checking

/-!
# Answers that stand

An edit may make things on its way and answer with what it found or made. If what is
made is only ever added at the end of a list, then the answer can be recomputed
afterwards: from the finished list, without any state. `Settles I made g e` says so of
the edit `e` and the stateless computation `g`, and also that the edit makes nothing
more when what there is at its start is enough for `g`.

That is one of the relations between stateless computations and edits that sequencing keeps
(`Sequential`). A relation that does, even if it does not hold of all that is refused
(`Sequencing`), holds of replacing all leaves if it holds of replacing each of them, in an
expression, a store, a duration and in all that control flow names itself
(`Expr.mapLeaves_related`, `ControlFlow.mapLeaves_related`).
-/

namespace QuantumCircuit

variable {σ α β γ : Type} {I : σ → Prop} {made : σ → List γ}

/-- Whenever the edit answers, from a state with `I`: `I` holds still, what was made before
is there still, `g` gives the same answer from all that has been made by then and later, and
nothing more was made if `g` had an answer at the start. -/
def Settles (I : σ → Prop) (made : σ → List γ) (g : List γ → Except CircuitError α)
    (e : Edit σ α) : Prop :=
  ∀ s a s', I s → e s = .ok a s' →
    I s' ∧ made s <+: made s' ∧ (∀ later, made s' <+: later → g later = .ok a) ∧
      ∀ b, g (made s) = .ok b → made s' = made s

namespace Settles

theorem ofExcept (r : Except CircuitError α) : Settles I made (fun _ => r) (Edit.ofExcept r) := by
  intro s a s' hs h
  obtain ⟨hr, rfl⟩ := Edit.ofExcept_eq_ok_iff.1 h
  exact ⟨hs, List.prefix_rfl, fun _ _ => hr, fun _ _ => rfl⟩

theorem bind {g : List γ → Except CircuitError α} {h : α → List γ → Except CircuitError β}
    {e : Edit σ α} {k : α → Edit σ β} (he : Settles I made g e)
    (hk : ∀ a, Settles I made (h a) (k a)) :
    Settles I made (fun later => g later >>= fun a => h a later) (e >>= k) := by
  intro s b s' hs hrun
  obtain ⟨a, u, ha, hb⟩ := Edit.bind_eq_ok_iff.1 hrun
  obtain ⟨hu, hsu, hg, hidle⟩ := he s a u hs ha
  obtain ⟨hs', hus', hh, hidle'⟩ := hk a u b s' hu hb
  refine ⟨hs', hsu.trans hus', fun later hlater => ?_, fun b' hb' => ?_⟩
  · exact Checking.bind_eq_ok_iff.2 ⟨a, hg later (hus'.trans hlater), hh later hlater⟩
  · -- what there was at the start is enough for both halves, so neither makes anything
    obtain ⟨a', ha', hb'⟩ := Checking.bind_eq_ok_iff.1 hb'
    have hsame : made u = made s := hidle a' ha'
    have heq : a' = a := by
      have hagain := hg (made u) List.prefix_rfl
      rw [hsame, ha'] at hagain
      exact Except.ok.inj hagain
    rw [← hsame]
    exact hidle' b' (by rwa [hsame, ← heq])

end Settles

/-! ## Replacing leaves -/

/-- A relation between stateless computations, which may look at an index, and edits. It holds of
one that is both, and goes through sequencing. -/
structure Sequential {ι : Type}
    (R : (α : Type) → (ι → Except CircuitError α) → Edit σ α → Prop) : Prop where
  ofExcept : ∀ {α : Type} (r : Except CircuitError α), R α (fun _ => r) (Edit.ofExcept r)
  bind : ∀ {α β : Type} {g : ι → Except CircuitError α} {h : α → ι → Except CircuitError β}
    {e : Edit σ α} {k : α → Edit σ β}, R α g e → (∀ a, R β (h a) (k a)) →
    R β (fun i => g i >>= fun a => h a i) (e >>= k)

/-- The same of a relation that need not hold of computations which are refused. -/
structure Sequencing {ι : Type}
    (R : (α : Type) → (ι → Except CircuitError α) → Edit σ α → Prop) : Prop where
  pure : ∀ {α : Type} (a : α), R α (fun _ => .ok a) (Pure.pure a)
  bind : ∀ {α β : Type} {g : ι → Except CircuitError α} {h : α → ι → Except CircuitError β}
    {e : Edit σ α} {k : α → Edit σ β}, R α g e → (∀ a, R β (h a) (k a)) →
    R β (fun i => g i >>= fun a => h a i) (e >>= k)

section

variable {ι : Type} {R : (α : Type) → (ι → Except CircuitError α) → Edit σ α → Prop}
  (hR : Sequential R)
include hR

theorem Sequential.pure (a : α) : R α (fun _ => .ok a) (Pure.pure a) := hR.ofExcept (.ok a)

theorem Sequential.sequencing : Sequencing R := ⟨hR.pure, hR.bind⟩

end

theorem Settles.sequential : Sequential fun _ g e => Settles I made g e :=
  ⟨Settles.ofExcept, Settles.bind⟩

/-- The parts of the expression, if it is one. -/
def Duration.nodes : Duration → List Expr
  | .dt _ => []
  | .expr e => e.nodes

/-- The parts of both sides. -/
def Store.nodes (a : Store) : List Expr := a.target.nodes ++ a.value.nodes

/-- The parts of the expression; a bare clbit or register is one as well. -/
def Condition.nodes : Condition → List Expr
  | .clbit b _ => [.clbit b]
  | .register r _ => [.register r]
  | .expr e => e.nodes

/-- The parts of the expression; a bare clbit or register is one as well. -/
def SwitchTarget.nodes : SwitchTarget → List Expr
  | .clbit b => [.clbit b]
  | .register r => [.register r]
  | .expr e => e.nodes

/-- The parts of all expressions that control flow names itself, outside its bodies. -/
def ControlFlow.nodes : ControlFlow → List Expr
  | .ifElse c _ _ | .whileLoop c _ => c.nodes
  | .switchCase t _ => t.nodes
  | .box _ (some d) => d.nodes
  | _ => []

/-- The parts of all expressions that the operation names itself. -/
def Operation.nodes : Operation → List Expr
  | .store a => a.nodes
  | .delay d => d.nodes
  | .control flow => flow.nodes
  | _ => []

section Leaves

variable {ι : Type} {R : (α : Type) → (ι → Except CircuitError α) → Edit σ α → Prop}
  (hR : Sequencing R) {f : Expr → Edit σ (Option Expr)}
  {g : ι → Expr → Except CircuitError (Option Expr)}
include hR

theorem Expr.mapLeaves_related (e : Expr) (hf : ∀ x ∈ e.nodes, R _ (fun i => g i x) (f x)) :
    R _ (fun i => e.mapLeaves (g i)) (e.mapLeaves f) := by
  induction e with
  | var v | stretch s | clbit b | register r | value v t =>
    exact hR.bind (hf _ (List.mem_singleton.2 rfl)) fun o => hR.pure _
  | unary op e t ih | cast e t i ih =>
    exact hR.bind (ih fun x hx => hf x (List.mem_cons_of_mem _ hx)) fun e' => hR.pure _
  | binary op l r t ihl ihr | index l r t ihl ihr =>
    obtain ⟨hl, hr⟩ := List.forall_mem_append.1 fun x hx => hf x (List.mem_cons_of_mem _ hx)
    exact hR.bind (ihl hl) fun l' => hR.bind (ihr hr) fun r' => hR.pure _

theorem Duration.mapLeaves_related (d : Duration)
    (hf : ∀ x ∈ d.nodes, R _ (fun i => g i x) (f x)) :
    R _ (fun i => d.mapLeaves (g i)) (d.mapLeaves f) := by
  cases d with
  | dt steps => exact hR.pure _
  | expr e => exact hR.bind (e.mapLeaves_related hR hf) fun e' => hR.pure _

theorem Store.mapLeaves_related (a : Store) (hf : ∀ x ∈ a.nodes, R _ (fun i => g i x) (f x)) :
    R _ (fun i => a.mapLeaves (g i)) (a.mapLeaves f) := by
  obtain ⟨htarget, hvalue⟩ := List.forall_mem_append.1 hf
  exact hR.bind (a.target.mapLeaves_related hR htarget) fun _ =>
    hR.bind (a.value.mapLeaves_related hR hvalue) fun _ => hR.pure _

theorem Condition.mapLeaves_related (c : Condition)
    (hf : ∀ x ∈ c.nodes, R _ (fun i => g i x) (f x)) :
    R _ (fun i => c.mapLeaves (g i)) (c.mapLeaves f) := by
  cases c with
  | clbit b v | register r v =>
    refine hR.bind (hf _ (List.mem_singleton.2 rfl)) fun o => ?_
    cases o with
    | none => exact hR.pure _
    | some x => cases x <;> exact hR.pure _
  | expr e => exact hR.bind (e.mapLeaves_related hR hf) fun e' => hR.pure _

theorem SwitchTarget.mapLeaves_related (t : SwitchTarget)
    (hf : ∀ x ∈ t.nodes, R _ (fun i => g i x) (f x)) :
    R _ (fun i => t.mapLeaves (g i)) (t.mapLeaves f) := by
  cases t with
  | clbit b | register r =>
    refine hR.bind (hf _ (List.mem_singleton.2 rfl)) fun o => ?_
    cases o with
    | none => exact hR.pure _
    | some x => cases x <;> exact hR.pure _
  | expr e => exact hR.bind (e.mapLeaves_related hR hf) fun e' => hR.pure _

theorem ControlFlow.mapLeaves_related (flow : ControlFlow)
    (hf : ∀ x ∈ flow.nodes, R _ (fun i => g i x) (f x)) :
    R _ (fun i => flow.mapLeaves (g i)) (flow.mapLeaves f) := by
  cases flow with
  | ifElse c t e => exact hR.bind (c.mapLeaves_related hR hf) fun c' => hR.pure _
  | whileLoop c b => exact hR.bind (c.mapLeaves_related hR hf) fun c' => hR.pure _
  | switchCase t arms => exact hR.bind (t.mapLeaves_related hR hf) fun t' => hR.pure _
  | box b d =>
    cases d with
    | none => exact hR.pure _
    | some d => exact hR.bind (d.mapLeaves_related hR hf) fun d' => hR.pure _
  | forLoop i p b | jump j q c => exact hR.pure _

end Leaves

/-! ## The registers that are read afterwards -/

/-- That a leaf is replaced by a leaf of its own sort, or stays. -/
structure KeepsLeafSorts (f : Expr → Except CircuitError (Option Expr)) : Prop where
  identifier : ∀ i o, f (.ofIdentifier i) = .ok o → ∃ j, o.getD (.ofIdentifier i) = .ofIdentifier j
  clbit : ∀ b o, f (.clbit b) = .ok o → ∃ b', o = some (.clbit b')
  register : ∀ r o, f (.register r) = .ok o → ∃ r', o = some (.register r')
  value : ∀ v t o, f (.value v t) = .ok o → o = none

/-- That the register takes the place of the other. -/
abbrev TakesPlace (f : Expr → Except CircuitError (Option Expr)) (r r' : ClassicalRegister) :
    Prop :=
  f (.register r) = .ok (some (.register r'))

section Registers

variable {f : Expr → Except CircuitError (Option Expr)} (hf : KeepsLeafSorts f)
include hf

/-- The registers read are replaced one by one. -/
theorem Expr.registers_of_mapLeaves {e e' : Expr} (h : e.mapLeaves f = .ok e') :
    List.Forall₂ (TakesPlace f) e.registers e'.registers := by
  induction e generalizing e' with
  | var v =>
    obtain ⟨o, ho, h⟩ := Checking.bind_eq_ok_iff.1 h
    cases h
    obtain ⟨j, hj⟩ := hf.identifier (.var v) o ho
    rw [show o.getD (.var v) = .ofIdentifier j from hj]
    cases j <;> exact .nil
  | stretch s =>
    obtain ⟨o, ho, h⟩ := Checking.bind_eq_ok_iff.1 h
    cases h
    obtain ⟨j, hj⟩ := hf.identifier (.stretch s) o ho
    rw [show o.getD (.stretch s) = .ofIdentifier j from hj]
    cases j <;> exact .nil
  | clbit b =>
    obtain ⟨o, ho, h⟩ := Checking.bind_eq_ok_iff.1 h
    cases h
    obtain ⟨b', rfl⟩ := hf.clbit b o ho
    exact .nil
  -- the only leaf that is a register is replaced by one; the others are replaced by none
  | register r =>
    obtain ⟨o, ho, h⟩ := Checking.bind_eq_ok_iff.1 h
    cases h
    obtain ⟨r', rfl⟩ := hf.register r o ho
    exact .cons ho .nil
  | value v t =>
    obtain ⟨o, ho, h⟩ := Checking.bind_eq_ok_iff.1 h
    cases h
    cases hf.value v t o ho
    exact .nil
  | unary op e t ih | cast e t i ih =>
    obtain ⟨x, hx, h⟩ := Checking.bind_eq_ok_iff.1 h
    cases h
    exact show List.Forall₂ _ e.registers x.registers from ih hx
  | binary op l r t ihl ihr | index l r t ihl ihr =>
    obtain ⟨x, hx, h⟩ := Checking.bind_eq_ok_iff.1 h
    obtain ⟨y, hy, h⟩ := Checking.bind_eq_ok_iff.1 h
    cases h
    show List.Forall₂ _ ((l.nodes ++ r.nodes).filterMap ownRegister?)
      ((x.nodes ++ y.nodes).filterMap ownRegister?)
    rw [List.filterMap_append, List.filterMap_append]
    exact List.rel_append (ihl hx) (ihr hy)

theorem Store.registers_of_mapLeaves {a a' : Store} (h : a.mapLeaves f = .ok a') :
    List.Forall₂ (TakesPlace f) (a.target.registers ++ a.value.registers)
      (a'.target.registers ++ a'.value.registers) := by
  obtain ⟨target, htarget, h⟩ := Checking.bind_eq_ok_iff.1 h
  obtain ⟨value, hvalue, h⟩ := Checking.bind_eq_ok_iff.1 h
  cases h
  exact List.rel_append (Expr.registers_of_mapLeaves hf htarget)
    (Expr.registers_of_mapLeaves hf hvalue)

theorem Condition.registers_of_mapLeaves {c c' : Condition} (h : c.mapLeaves f = .ok c') :
    List.Forall₂ (TakesPlace f) c.classicalUse.registers c'.classicalUse.registers := by
  cases c with
  | clbit b v =>
    obtain ⟨o, ho, h⟩ := Checking.bind_eq_ok_iff.1 h
    obtain ⟨b', rfl⟩ := hf.clbit b o ho
    cases h
    exact .nil
  | register r v =>
    obtain ⟨o, ho, h⟩ := Checking.bind_eq_ok_iff.1 h
    obtain ⟨r', rfl⟩ := hf.register r o ho
    cases h
    exact .cons ho .nil
  | expr e =>
    obtain ⟨e', he, h⟩ := Checking.bind_eq_ok_iff.1 h
    cases h
    exact Expr.registers_of_mapLeaves hf he

theorem SwitchTarget.registers_of_mapLeaves {t t' : SwitchTarget} (h : t.mapLeaves f = .ok t') :
    List.Forall₂ (TakesPlace f) t.classicalUse.registers t'.classicalUse.registers := by
  cases t with
  | clbit b =>
    obtain ⟨o, ho, h⟩ := Checking.bind_eq_ok_iff.1 h
    obtain ⟨b', rfl⟩ := hf.clbit b o ho
    cases h
    exact .nil
  | register r =>
    obtain ⟨o, ho, h⟩ := Checking.bind_eq_ok_iff.1 h
    obtain ⟨r', rfl⟩ := hf.register r o ho
    cases h
    exact .cons ho .nil
  | expr e =>
    obtain ⟨e', he, h⟩ := Checking.bind_eq_ok_iff.1 h
    cases h
    exact Expr.registers_of_mapLeaves hf he

theorem ControlFlow.registers_of_mapLeaves {flow flow' : ControlFlow}
    (h : flow.mapLeaves f = .ok flow') :
    List.Forall₂ (TakesPlace f) flow.classicalUse.registers flow'.classicalUse.registers := by
  cases flow with
  | ifElse c t e | whileLoop c b =>
    obtain ⟨c', hc, h⟩ := Checking.bind_eq_ok_iff.1 h
    cases h
    exact Condition.registers_of_mapLeaves hf hc
  | switchCase t arms =>
    obtain ⟨t', ht, h⟩ := Checking.bind_eq_ok_iff.1 h
    cases h
    exact SwitchTarget.registers_of_mapLeaves hf ht
  -- a duration may be replaced, but its registers do not count as read
  | box b d =>
    cases d with
    | none =>
      cases h
      exact .nil
    | some d =>
      obtain ⟨d', -, h⟩ := Checking.bind_eq_ok_iff.1 h
      cases h
      exact .nil
  | forLoop i p b | jump j q c =>
    cases h
    exact .nil

end Registers

end QuantumCircuit
