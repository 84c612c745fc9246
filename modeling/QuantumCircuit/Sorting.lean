/-!
# Stable sorting

Insertion sort by a Boolean order. Entries that the order does not separate
keep the order in which they came. Main statements: the result is a permutation
of the list (`perm_sort`), and for a total and transitive order every entry
stands before all that it does not exceed (`pairwise_sort`).
-/

namespace QuantumCircuit.Sorting

variable {α : Type}

/-- Put `x` before the first entry that it does not exceed. -/
def insert (le : α → α → Bool) (x : α) : List α → List α
  | [] => [x]
  | y :: rest => if le x y then x :: y :: rest else y :: insert le x rest

/-- The entries of the list, smallest first. -/
def sort (le : α → α → Bool) (xs : List α) : List α := xs.foldr (insert le) []

theorem perm_insert (le : α → α → Bool) (x : α) (xs : List α) :
    (insert le x xs).Perm (x :: xs) := by
  induction xs with
  | nil => exact .refl _
  | cons y rest ih =>
    unfold insert
    split
    · exact .refl _
    · exact (ih.cons y).trans (.swap x y rest)

theorem perm_sort (le : α → α → Bool) (xs : List α) : (sort le xs).Perm xs := by
  induction xs with
  | nil => exact .refl _
  | cons x rest ih => exact (perm_insert le x _).trans (ih.cons x)

theorem pairwise_insert {le : α → α → Bool} (total : ∀ a b, le a b ∨ le b a)
    (trans : ∀ a b c, le a b → le b c → le a c) (x : α) {xs : List α}
    (h : xs.Pairwise (le · ·)) : (insert le x xs).Pairwise (le · ·) := by
  induction xs with
  | nil => simp [insert]
  | cons y rest ih =>
    obtain ⟨hy, hrest⟩ := List.pairwise_cons.1 h
    unfold insert
    split
    · rename_i hxy
      refine List.pairwise_cons.2 ⟨fun z hz => ?_, h⟩
      rcases List.mem_cons.1 hz with rfl | hz
      · exact hxy
      · exact trans x y z hxy (hy z hz)
    · rename_i hxy
      refine List.pairwise_cons.2 ⟨fun z hz => ?_, ih hrest⟩
      rcases List.mem_cons.1 ((perm_insert le x rest).mem_iff.1 hz) with rfl | hz
      · exact (total z y).resolve_left hxy
      · exact hy z hz

theorem pairwise_sort {le : α → α → Bool} (total : ∀ a b, le a b ∨ le b a)
    (trans : ∀ a b c, le a b → le b c → le a c) (xs : List α) :
    (sort le xs).Pairwise (le · ·) := by
  induction xs with
  | nil => exact .nil
  | cons x rest ih => exact pairwise_insert total trans x ih

/-- Numbers that are all different stand in increasing order. -/
theorem increasing_sort {ns : List Nat} (h : (sort (· ≤ ·) ns).Nodup) :
    (sort (· ≤ ·) ns).Pairwise (· < ·) := by
  have total : ∀ a b : Nat, decide (a ≤ b) ∨ decide (b ≤ a) := fun a b => by
    simpa using Nat.le_total a b
  have trans : ∀ a b c : Nat, decide (a ≤ b) → decide (b ≤ c) → decide (a ≤ c) := fun a b c => by
    simpa using Nat.le_trans
  have hsorted : (sort (· ≤ ·) ns).Pairwise (· ≤ ·) :=
    (pairwise_sort total trans ns).imp of_decide_eq_true
  exact hsorted.imp₂ (fun _ _ hle hne => Nat.lt_of_le_of_ne hle hne) h

end QuantumCircuit.Sorting
