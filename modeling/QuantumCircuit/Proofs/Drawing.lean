import QuantumCircuit.Proofs.Moving
import Mathlib.Order.Bounds.Defs

/-!
# Drawing names until one is free

`NameSequence.fresh` looks at no more names than it needs: one more than are taken. The loop that
it stands for has no bound; it draws names until one is free (`NameSequence.Draws`). The loop comes
to an end from every counter value, and it ends as `fresh` does (`NameSequence.draws_iff`): at the
least counter value, not below the one it starts from, whose name is free
(`NameSequence.fresh_least`). The counter is left behind that value, so a sequence never gives a
name again, whatever is taken from one call to the next (`NameSequence.nodup_freshNames`).
-/

namespace QuantumCircuit.NameSequence

variable {s : NameSequence} {taken : List String} {r : String × NameSequence} {tries n k : Nat}

/-! ## The search with a bound -/

theorem le_firstFree : n ≤ s.firstFree taken tries n := by
  induction tries generalizing n with
  | zero => exact Nat.le_refl n
  | succ tries ih =>
    unfold firstFree
    split
    · exact Nat.le_trans (Nat.le_succ n) ih
    · exact Nat.le_refl n

theorem firstFree_le : s.firstFree taken tries n ≤ n + tries := by
  induction tries generalizing n with
  | zero => exact Nat.le_refl n
  | succ tries ih =>
    unfold firstFree
    split
    · have hlater : s.firstFree taken tries (n + 1) ≤ n + 1 + tries := ih
      omega
    · exact Nat.le_add_right n _

/-- What the search has passed over is taken. -/
theorem mem_of_lt_firstFree (hn : n ≤ k) (hk : k < s.firstFree taken tries n) :
    s.nameAt k ∈ taken := by
  induction tries generalizing n with
  | zero => exact absurd hk (Nat.not_lt.2 hn)
  | succ tries ih =>
    unfold firstFree at hk
    split at hk
    · rename_i hmem
      rcases Nat.eq_or_lt_of_le hn with rfl | hlt
      · exact hmem
      · exact ih hlt hk
    · exact absurd hk (Nat.not_lt.2 hn)

/-- The name is that of the least counter value whose name is free; the counter ends just past it,
after as many names as are taken at the most. -/
theorem fresh_least (s : NameSequence) (taken : List String) :
    ∃ n, IsLeast {n | s.next ≤ n ∧ s.nameAt n ∉ taken} n ∧ n ≤ s.next + taken.length ∧
      s.fresh taken = (s.nameAt n, ⟨s.stem, n + 1⟩) := by
  refine ⟨s.firstFree taken taken.length s.next, ⟨⟨le_firstFree, s.fresh_not_mem taken⟩, ?_⟩,
    firstFree_le, rfl⟩
  rintro k ⟨hk, hfree⟩
  exact Nat.le_of_not_lt fun hlt => hfree (mem_of_lt_firstFree hk hlt)

/-! ## The loop without a bound -/

/-- What a loop ends with that draws names until one is free. -/
inductive Draws (taken : List String) : NameSequence → String × NameSequence → Prop
  | free {s : NameSequence} : s.draw.1 ∉ taken → Draws taken s s.draw
  | again {s : NameSequence} {r : String × NameSequence} :
      s.draw.1 ∈ taken → Draws taken s.draw.2 r → Draws taken s r

namespace Draws

/-- The loop has one end only. -/
theorem unique {r' : String × NameSequence} (h : Draws taken s r) (h' : Draws taken s r') :
    r = r' := by
  induction h with
  | free hfree =>
    cases h' with
    | free => rfl
    | again htaken => exact absurd htaken hfree
  | again htaken _ ih =>
    cases h' with
    | free hfree => exact absurd htaken hfree
    | again _ h' => exact ih h'

/-- Past names that are taken it comes to one that is free. -/
theorem of_free (htaken : ∀ k < n, s.nameAt (s.next + k) ∈ taken)
    (hfree : s.nameAt (s.next + n) ∉ taken) :
    Draws taken s (s.nameAt (s.next + n), ⟨s.stem, s.next + n + 1⟩) := by
  induction n generalizing s with
  | zero => exact .free hfree
  | succ n ih =>
    have hshift : ∀ k, s.next + 1 + k = s.next + (k + 1) := fun k => by omega
    refine .again (htaken 0 (Nat.succ_pos n)) ?_
    have hrest : Draws taken s.draw.2 (s.nameAt (s.next + 1 + n), ⟨s.stem, s.next + 1 + n + 1⟩) :=
      ih (fun k hk => hshift k ▸ htaken (k + 1) (Nat.succ_lt_succ hk)) (hshift n ▸ hfree)
    rwa [hshift n] at hrest

end Draws

/-- The loop ends, and with what the search with a bound finds. -/
theorem draws_iff : Draws taken s r ↔ r = s.fresh taken := by
  obtain ⟨n, ⟨⟨hn, hfree⟩, hleast⟩, -, heq⟩ := s.fresh_least taken
  obtain ⟨m, rfl⟩ := Nat.exists_eq_add_of_le hn
  have hends : Draws taken s (s.fresh taken) := by
    rw [heq]
    refine .of_free (fun k hk => ?_) hfree
    by_contra hk'
    exact absurd (hleast ⟨Nat.le_add_right _ k, hk'⟩) (by omega)
  constructor
  · exact fun h => h.unique hends
  · rintro rfl
    exact hends

/-! ## One call after another -/

/-- The names that the sequence gives one call after another, with the names taken at each. -/
def freshNames : NameSequence → List (List String) → List String
  | _, [] => []
  | s, taken :: rest => (s.fresh taken).1 :: freshNames (s.fresh taken).2 rest

/-- All of them have counter values that the sequence has not come to before. -/
theorem exists_of_mem_freshNames {name : String} {calls : List (List String)}
    (h : name ∈ s.freshNames calls) : ∃ n, s.next ≤ n ∧ name = s.nameAt n := by
  induction calls generalizing s with
  | nil => exact absurd h List.not_mem_nil
  | cons taken rest ih =>
    obtain ⟨n, ⟨⟨hn, -⟩, -⟩, -, heq⟩ := s.fresh_least taken
    rw [freshNames, heq] at h
    rcases List.mem_cons.1 h with rfl | h
    · exact ⟨n, hn, rfl⟩
    · obtain ⟨m, hm, rfl⟩ := ih h
      exact ⟨m, Nat.le_trans hn (Nat.le_of_succ_le hm), rfl⟩

theorem nodup_freshNames (s : NameSequence) (calls : List (List String)) :
    (s.freshNames calls).Nodup := by
  induction calls generalizing s with
  | nil => exact .nil
  | cons taken rest ih =>
    obtain ⟨n, -, -, heq⟩ := s.fresh_least taken
    rw [freshNames, heq]
    refine List.nodup_cons.2 ⟨fun hmem => ?_, ih _⟩
    -- the names that follow are made from larger numbers
    obtain ⟨m, hm, hname⟩ := exists_of_mem_freshNames hmem
    have hsame : n = m := s.nameAt_injective hname
    exact absurd hm (by show ¬ n + 1 ≤ m; omega)

end QuantumCircuit.NameSequence
