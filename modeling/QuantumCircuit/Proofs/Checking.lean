import QuantumCircuit.Circuit.Operation
import Mathlib.Data.List.Forall2

/-!
# Checks and computations that may be refused

When a chain of them answers: each link has answered. A list of checks passes
exactly when every member does (`checkEach_eq_ok_iff`), and a list of
computations answers exactly with the list of their answers
(`Checking.mapM_eq_ok_iff`).
-/

namespace QuantumCircuit

variable {α β : Type}

namespace Checking

/-- Whatever stands on the right of related lists has a partner on the left. -/
theorem exists_left {R : α → β → Prop} {xs : List α} {ys : List β} (h : List.Forall₂ R xs ys)
    {y : β} (hy : y ∈ ys) : ∃ x ∈ xs, R x y := by
  induction h with
  | nil => simp at hy
  | cons hxy _ ih =>
    rcases List.mem_cons.1 hy with rfl | hy
    · exact ⟨_, List.mem_cons_self, hxy⟩
    · obtain ⟨x, hx, hR⟩ := ih hy
      exact ⟨x, List.mem_cons_of_mem _ hx, hR⟩

/-- Whatever stands on the left of related lists has a partner on the right. -/
theorem exists_right {R : α → β → Prop} {xs : List α} {ys : List β} (h : List.Forall₂ R xs ys)
    {x : α} (hx : x ∈ xs) : ∃ y ∈ ys, R x y := by
  have hflip : List.Forall₂ (fun y x => R x y) ys xs := h.flip
  exact exists_left hflip hx

/-- A relation between lists may be weakened member by member. -/
theorem imp_of_mem {R S : α → β → Prop} {xs : List α} {ys : List β} (h : List.Forall₂ R xs ys)
    (hS : ∀ x ∈ xs, ∀ y ∈ ys, R x y → S x y) : List.Forall₂ S xs ys := by
  induction h with
  | nil => exact .nil
  | cons hxy _ ih =>
    refine .cons (hS _ List.mem_cons_self _ List.mem_cons_self hxy) (ih fun x hx y hy => ?_)
    exact hS x (List.mem_cons_of_mem _ hx) y (List.mem_cons_of_mem _ hy)

/-- Lists related member by member give the same when related members do. -/
theorem flatMap_congr {γ : Type} {R : α → β → Prop} {f : α → List γ} {g : β → List γ}
    {xs : List α} {ys : List β} (h : List.Forall₂ R xs ys) (hR : ∀ x y, R x y → g y = f x) :
    ys.flatMap g = xs.flatMap f := by
  induction h with
  | nil => rfl
  | cons hxy _ ih => rw [List.flatMap_cons, List.flatMap_cons, hR _ _ hxy, ih]

theorem map_congr {γ : Type} {R : α → β → Prop} {f : α → γ} {g : β → γ} {xs : List α}
    {ys : List β} (h : List.Forall₂ R xs ys) (hR : ∀ x y, R x y → g y = f x) :
    ys.map g = xs.map f := by
  induction h with
  | nil => rfl
  | cons hxy _ ih => rw [List.map_cons, List.map_cons, hR _ _ hxy, ih]

/-- What stands at one position of related lists is related. -/
theorem related_at {R : α → β → Prop} {xs : List α} {ys : List β} (h : List.Forall₂ R xs ys)
    {k : Nat} {x : α} {y : β} (hx : xs[k]? = some x) (hy : ys[k]? = some y) : R x y := by
  induction h generalizing k with
  | nil => cases hx
  | cons hxy _ ih =>
    cases k with
    | zero =>
      cases hx
      cases hy
      exact hxy
    | succ k => exact ih hx hy

/-- Two lists give the same where they are related to one list. -/
theorem map_eq_map {γ δ : Type} {R : α → β → Prop} {S : α → γ → Prop} {f : β → δ} {g : γ → δ}
    {xs : List α} {ys : List β} {zs : List γ} (h : List.Forall₂ R xs ys) (h' : List.Forall₂ S xs zs)
    (hfg : ∀ x ∈ xs, ∀ y z, R x y → S x z → f y = g z) : ys.map f = zs.map g := by
  induction h generalizing zs with
  | nil =>
    cases h'
    rfl
  | @cons x y xs ys hxy _ ih =>
    cases h' with
    | cons hxz hrest =>
      have hfirst := hfg x List.mem_cons_self _ _ hxy hxz
      have hothers := ih hrest fun x hx => hfg x (List.mem_cons_of_mem _ hx)
      rw [List.map_cons, List.map_cons, hfirst, hothers]

/-- Relations between lists may be followed one after the other. -/
theorem forall₂_trans {γ : Type} {R : α → β → Prop} {S : β → γ → Prop} {xs : List α} {ys : List β}
    {zs : List γ} (h : List.Forall₂ R xs ys) (h' : List.Forall₂ S ys zs) :
    List.Forall₂ (fun x z => ∃ y ∈ ys, R x y ∧ S y z) xs zs := by
  induction h generalizing zs with
  | nil =>
    cases h'
    exact .nil
  | cons hxy _ ih =>
    cases h' with
    | cons hyz hrest =>
      refine .cons ⟨_, List.mem_cons_self, hxy, hyz⟩ ((ih hrest).imp fun x z => ?_)
      rintro ⟨y, hy, hboth⟩
      exact ⟨y, List.mem_cons_of_mem _ hy, hboth⟩

/-- Values that two lists find in common. -/
theorem exists_map_some {γ : Type} {f : α → Option γ} {g : β → Option γ} {xs : List α} {ys : List β}
    (h : List.Forall₂ (fun x y => ∃ z, f x = some z ∧ g y = some z) xs ys) :
    ∃ zs : List γ, xs.map f = zs.map some ∧ ys.map g = zs.map some := by
  induction h with
  | nil => exact ⟨[], rfl, rfl⟩
  | cons hxy _ ih =>
    obtain ⟨z, hx, hy⟩ := hxy
    obtain ⟨zs, hxs, hys⟩ := ih
    exact ⟨z :: zs, by rw [List.map_cons, List.map_cons, hx, hxs],
      by rw [List.map_cons, List.map_cons, hy, hys]⟩

theorem bind_eq_ok_iff {r : Except CircuitError α} {f : α → Except CircuitError β} {b : β} :
    (r >>= f) = .ok b ↔ ∃ a, r = .ok a ∧ f a = .ok b := by
  cases r <;> simp [bind, Except.bind]

/-- A check followed by something answers when both do. -/
theorem seq_eq_ok_iff {r : Except CircuitError Unit} {f : Unit → Except CircuitError β} {b : β} :
    (r >>= f) = .ok b ↔ r = .ok () ∧ f () = .ok b := by
  cases r <;> simp [bind, Except.bind]

theorem bind_eq_error_iff {r : Except CircuitError α} {f : α → Except CircuitError β}
    {e : CircuitError} :
    (r >>= f) = .error e ↔ r = .error e ∨ ∃ a, r = .ok a ∧ f a = .error e := by
  cases r <;> simp [bind, Except.bind]

theorem mapM_eq_ok_iff {f : α → Except CircuitError β} {xs : List α} {ys : List β} :
    xs.mapM f = .ok ys ↔ List.Forall₂ (fun x y => f x = .ok y) xs ys := by
  induction xs generalizing ys with
  | nil => cases ys <;> simp [pure, Except.pure]
  | cons x rest ih =>
    rw [List.mapM_cons, bind_eq_ok_iff]
    constructor
    · rintro ⟨y, hy, h⟩
      obtain ⟨others, hr, h⟩ := bind_eq_ok_iff.1 h
      cases h
      exact .cons hy (ih.1 hr)
    · intro h
      cases h with
      | cons hy hr => exact ⟨_, hy, bind_eq_ok_iff.2 ⟨_, ih.2 hr, rfl⟩⟩

/-- The refusal of a list is that of a member. -/
theorem exists_of_mapM_eq_error {f : α → Except CircuitError β} {xs : List α} {e : CircuitError}
    (h : xs.mapM f = .error e) : ∃ x ∈ xs, f x = .error e := by
  induction xs with
  | nil => cases h
  | cons x rest ih =>
    rw [List.mapM_cons, bind_eq_error_iff] at h
    rcases h with h | ⟨y, -, h⟩
    · exact ⟨x, List.mem_cons_self, h⟩
    · rcases bind_eq_error_iff.1 h with h | ⟨others, -, h⟩
      · obtain ⟨z, hz, h⟩ := ih h
        exact ⟨z, List.mem_cons_of_mem x hz, h⟩
      · cases h

end Checking

@[simp] theorem refuseIf_eq_ok_iff {b : Bool} {cause : CircuitError} :
    refuseIf b cause = .ok () ↔ b = false := by
  cases b <;> simp [refuseIf]

@[simp] theorem refuseFound_eq_ok_iff {found : Option α} {cause : α → CircuitError} :
    refuseFound found cause = .ok () ↔ found = none := by
  cases found <;> simp [refuseFound]

theorem checkEach_eq_ok_iff {check : α → Except CircuitError Unit} {xs : List α} :
    checkEach check xs = .ok () ↔ ∀ x ∈ xs, check x = .ok () := by
  induction xs with
  | nil => simp [checkEach]
  | cons x rest ih => simp [checkEach, Checking.seq_eq_ok_iff, ih]

end QuantumCircuit
