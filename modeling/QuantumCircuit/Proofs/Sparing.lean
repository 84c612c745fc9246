import QuantumCircuit.Circuit.Block
import QuantumCircuit.Proofs.Fitting

/-!
# Refusals that are not about identifiers

Four causes are about identifiers: one that is not declared, one whose name is taken,
one that is there already, and a capture beside inputs. A call spares identifiers when
it answers or is refused for something else (`Sparing`, `Edit.SparingAt`). Most of what
closing a block does spares them anyhow; a record is refused for an identifier only if
it names one that is not there (`Content.sparing_check`).
-/

namespace QuantumCircuit

variable {α β σ τ : Type}

/-- That a cause is about identifiers. -/
def CircuitError.OfIdentifier : CircuitError → Prop
  | undeclaredIdentifier _ | identifierShadowing _ | duplicateIdentifier _ | inputCaptureConflict =>
    True
  | _ => False

/-- If the computation is refused, the cause is not about identifiers. -/
def Sparing (r : Except CircuitError α) : Prop := ∀ e, r = .error e → ¬ e.OfIdentifier

/-- If the edit is refused at the state, the cause is not about identifiers. -/
def Edit.SparingAt (e : Edit σ α) (s : σ) : Prop := ∀ c t, e s = .error c t → ¬ c.OfIdentifier

theorem sparing_ok (a : α) : Sparing (.ok a : Except CircuitError α) := fun _ h => nomatch h

theorem sparing_error {e : CircuitError} (h : ¬ e.OfIdentifier) :
    Sparing (.error e : Except CircuitError α) := fun _ heq => by
  cases heq
  exact h

theorem Sparing.bind {r : Except CircuitError α} {f : α → Except CircuitError β} (h : Sparing r)
    (hf : ∀ a, r = .ok a → Sparing (f a)) : Sparing (r >>= f) := by
  intro e he
  rcases Checking.bind_eq_error_iff.1 he with he | ⟨a, ha, he⟩
  · exact h e he
  · exact hf a ha e he

theorem sparing_checkEach {check : α → Except CircuitError Unit} {xs : List α}
    (h : ∀ x ∈ xs, Sparing (check x)) : Sparing (checkEach check xs) := by
  induction xs with
  | nil => exact sparing_ok ()
  | cons x rest ih =>
    obtain ⟨hx, hrest⟩ := List.forall_mem_cons.1 h
    exact hx.bind fun _ _ => ih hrest

theorem sparing_mapM {f : α → Except CircuitError β} {xs : List α} (h : ∀ x ∈ xs, Sparing (f x)) :
    Sparing (xs.mapM f) := by
  induction xs with
  | nil => exact sparing_ok []
  | cons x rest ih =>
    obtain ⟨hx, hrest⟩ := List.forall_mem_cons.1 h
    rw [List.mapM_cons]
    exact hx.bind fun _ _ => (ih hrest).bind fun _ _ => sparing_ok _

namespace Edit

variable {e : Edit σ α} {s : σ}

theorem SparingAt.bind {k : α → Edit σ β} (h : e.SparingAt s)
    (hk : ∀ a t, e s = .ok a t → (k a).SparingAt t) : (e >>= k).SparingAt s := by
  intro c t hc
  rcases bind_eq_error_iff.1 hc with hc | ⟨a, u, hu, hc⟩
  · exact h c t hc
  · exact hk a u hu c t hc

theorem sparingAt_pure (a : α) : (pure a : Edit σ α).SparingAt s := fun _ _ h => nomatch h

theorem sparingAt_ofExcept {r : Except CircuitError α} (h : Sparing r) :
    (ofExcept r : Edit σ α).SparingAt s :=
  fun c _ hc => h c (ofExcept_eq_error_iff.1 hc).1

theorem sparingAt_within {f : Focus σ τ} {e : Edit τ α} (h : e.SparingAt (f.get s)) :
    (within f e).SparingAt s := fun c _ hc =>
  let ⟨u, hu, _⟩ := within_eq_error_iff.1 hc
  h c u hu

/-- An edit made one after another, from states of a kind that it keeps. -/
theorem sparingAt_each {f : α → Edit σ Unit} {P : σ → Prop} {xs : List α}
    (h : ∀ x ∈ xs, ∀ t, P t → (f x).SparingAt t) (hP : ∀ x ∈ xs, (f x).Keeps P) (hs : P s) :
    (each f xs).SparingAt s := by
  induction xs generalizing s with
  | nil => exact sparingAt_pure ()
  | cons x rest ih =>
    obtain ⟨hx, hrest⟩ := List.forall_mem_cons.1 h
    obtain ⟨hPx, hPrest⟩ := List.forall_mem_cons.1 hP
    exact (hx s hs).bind fun _ t ht => ih hrest hPrest (hPx s t hs (.of_ok ht))

end Edit

/-! ## Bits, registers and records -/

section Lists

variable {k : BitKind} {l : BitList k}

theorem BitList.sparingAt_add (bit : Bit k) (strict : Bool) : (add bit strict).SparingAt l := by
  intro c t h
  obtain ⟨⟨-, -, rfl⟩ | ⟨-, -, rfl⟩, -⟩ := add_eq_error_iff.1 h <;> exact id

theorem BitList.sparingAt_addRegister (r : Register k) : (addRegister r).SparingAt l := by
  have hmembers : ∀ (bits : List (Bit k)) (place : Nat) (l : BitList k),
      (addMembers r place bits).SparingAt l := by
    intro bits
    induction bits with
    | nil => exact fun _ _ => Edit.sparingAt_pure ()
    | cons bit rest ih =>
      intro place l
      refine (sparingAt_add bit false).bind fun _ u _ => ?_
      exact Edit.SparingAt.bind (fun _ _ h => nomatch h) fun _ v _ => ih _ v
  refine Edit.SparingAt.bind (fun _ _ h => nomatch h) fun a u _ => ?_
  refine Edit.SparingAt.bind (Edit.sparingAt_ofExcept ?_) fun _ v _ => ?_
  · cases (a.register? r.name).isSome
    · exact sparing_ok ()
    · exact sparing_error id
  · exact (hmembers r.bits 0 v).bind fun _ w _ _ _ h => nomatch h

theorem BitList.sparing_resolve (bit : Bit k) (operation : Option String) :
    Sparing (l.resolve bit operation) := by
  unfold resolve
  split
  · exact sparing_ok _
  · exact sparing_error id

theorem BitList.sparing_checkPosition (position : Nat) : Sparing (l.checkPosition position) := by
  unfold checkPosition
  split
  · exact sparing_ok _
  · exact sparing_error id

end Lists

theorem ParameterTable.sparing_check {t : ParameterTable} {ps : List Parameter} :
    Sparing (t.check ps) := by
  have hafter : ∀ (ps : List Parameter) (batch : List (String × Parameter)),
      Sparing (t.checkAfter batch ps) := by
    intro ps
    induction ps with
    | nil => exact fun _ => sparing_ok ()
    | cons p rest ih =>
      intro batch
      unfold checkAfter
      simp only
      split
      · exact sparing_error id
      · exact ih _
  exact hafter ps []

theorem Instruction.sparing_checkShape (i : Instruction) : Sparing i.checkShape := by
  have hunique : ∀ (kind : BitKind) (operands : List Nat),
      Sparing (checkUnique kind i.name operands) := by
    intro kind operands
    unfold checkUnique
    split
    · exact sparing_error id
    · exact sparing_ok ()
  refine Sparing.bind ?_ fun _ _ => (hunique _ _).bind fun _ _ => hunique _ _
  unfold checkCounts
  split
  · exact sparing_error id
  · split
    · exact sparing_error id
    · exact sparing_ok ()

namespace Content

variable {c : Content} {i : Instruction}

theorem sparing_checkOperands : Sparing (c.checkOperands i) :=
  (sparing_checkEach fun _ _ => BitList.sparing_checkPosition _).bind fun _ _ =>
    (sparing_checkEach fun _ _ => BitList.sparing_checkPosition _).bind fun _ _ =>
      i.sparing_checkShape

theorem sparing_checkRegister (r : ClassicalRegister) : Sparing (c.checkRegister r) := by
  unfold checkRegister
  split
  · exact sparing_ok ()
  · exact sparing_error id

/-- A record is refused for an identifier only if one that it names is not there. -/
theorem sparing_check (h : ∀ j ∈ i.operation.identifiers, c.identifiers.contains j) :
    Sparing (c.check i) := by
  refine sparing_checkOperands.bind fun _ _ => ParameterTable.sparing_check.bind fun _ _ => ?_
  refine Sparing.bind ?_ fun _ _ => ?_
  · refine sparing_checkEach fun j hj => ?_
    rw [checkDeclared_eq_ok_iff.2 (h j hj)]
    exact sparing_ok ()
  · refine Sparing.bind ?_ fun _ _ => sparing_checkEach fun _ _ => sparing_checkRegister _
    exact sparing_checkEach fun _ _ => (BitList.sparing_resolve _ _).bind fun _ _ => sparing_ok ()

theorem sparingAt_push (h : ∀ j ∈ i.operation.identifiers, c.identifiers.contains j) :
    (push i).SparingAt c := fun e _ hd =>
  ((sparing_check h).bind fun _ _ => sparing_ok _) e (Edit.update_eq_error_iff.1 hd).1

end Content

/-! ## Building control flow -/

namespace ControlFlow

theorem sparing_checkSameWidth (operation : String) (first other : Circuit) :
    Sparing (checkSameWidth operation first other) := by
  unfold checkSameWidth
  split
  · exact sparing_ok ()
  · exact sparing_error id

theorem sparing_validate (condition : Condition) : Sparing condition.validate := by
  unfold Condition.validate
  split
  · split
    · exact sparing_ok ()
    · exact sparing_error id
  · exact sparing_ok ()

theorem sparing_makeIfElse (condition : Condition) (t : Circuit) (f : Option Circuit) :
    Sparing (makeIfElse condition t f) := by
  refine (sparing_validate condition).bind fun _ _ => ?_
  cases f with
  | none => exact sparing_ok _
  | some other => exact (sparing_checkSameWidth _ _ _).bind fun _ _ => sparing_ok _

theorem sparing_makeWhile (condition : Condition) (body : Circuit) :
    Sparing (makeWhile condition body) :=
  (sparing_validate condition).bind fun _ _ => sparing_ok _

theorem sparing_makeBox (body : Circuit) (duration : Option Duration) :
    Sparing (makeBox body duration) := by
  cases duration with
  | none => exact sparing_ok _
  | some d =>
    refine Sparing.bind ?_ fun _ _ => sparing_ok _
    unfold Duration.validate
    split
    · split
      · exact sparing_ok ()
      · exact sparing_error id
    · exact sparing_ok ()

theorem sparing_makeSwitch (target : SwitchTarget) (arms : List SwitchArm) :
    Sparing (makeSwitch target arms) := by
  have hlabels : ∀ (labels seen : List CaseLabel), Sparing (checkLabels seen labels) := by
    intro labels
    induction labels with
    | nil => exact fun _ => sparing_ok _
    | cons label rest ih =>
      intro seen
      unfold checkLabels
      split
      · exact sparing_error id
      · exact ih _
  have harms : ∀ (first : Circuit) (arms : List SwitchArm) (seen : List CaseLabel),
      Sparing (checkArms first seen arms) := by
    intro first arms
    induction arms with
    | nil => exact fun _ => sparing_ok _
    | cons arm rest ih =>
      intro seen
      exact (hlabels _ _).bind fun _ _ => (sparing_checkSameWidth _ _ _).bind fun _ _ => ih _
  refine Sparing.bind ?_ fun _ _ => ?_
  · unfold SwitchTarget.validate
    split
    · split
      · exact sparing_ok ()
      · exact sparing_error id
    · exact sparing_ok ()
  · cases arms with
    | nil => exact sparing_ok _
    | cons first rest => exact (harms _ _ _).bind fun _ _ => sparing_ok _

end ControlFlow

end QuantumCircuit
