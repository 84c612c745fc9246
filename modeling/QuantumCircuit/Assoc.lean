/-!
# Association lists

Lists of pairs read as finite maps that keep the order in which keys first
came. `insert` replaces a value where it stands, so a key occurs at most once
in any list built with it; `find?_insert` and `find?_erase` say what a look-up
sees afterwards.
-/

namespace QuantumCircuit.Assoc

variable {α β : Type} [DecidableEq α]

/-- The value under `k`. -/
def find? (k : α) : List (α × β) → Option β
  | [] => none
  | (k', v) :: rest => if k' = k then some v else find? k rest

/-- Whether `k` has a value. -/
def contains (k : α) (m : List (α × β)) : Bool := (find? k m).isSome

/-- Give `k` the value `v`: in the place of its old value, or at the end. -/
def insert (k : α) (v : β) : List (α × β) → List (α × β)
  | [] => [(k, v)]
  | (k', v') :: rest => if k' = k then (k, v) :: rest else (k', v') :: insert k v rest

/-- Forget `k`. -/
def erase (k : α) : List (α × β) → List (α × β)
  | [] => []
  | (k', v) :: rest => if k' = k then erase k rest else (k', v) :: erase k rest

/-- Change the value under `k`, if it has one. -/
def adjust (k : α) (f : β → β) : List (α × β) → List (α × β)
  | [] => []
  | (k', v) :: rest => if k' = k then (k', f v) :: rest else (k', v) :: adjust k f rest

/-- The keys, in order. -/
def keys (m : List (α × β)) : List α := m.map Prod.fst

/-- The values, in order. -/
def values (m : List (α × β)) : List β := m.map Prod.snd

/-- The map that the pairs describe when later ones replace earlier ones. -/
def ofPairs (pairs : List (α × β)) : List (α × β) :=
  pairs.foldl (fun m p => insert p.1 p.2 m) []

theorem find?_insert (k k' : α) (v : β) (m : List (α × β)) :
    find? k' (insert k v m) = if k = k' then some v else find? k' m := by
  induction m with
  | nil => simp [insert, find?]
  | cons p rest ih =>
    obtain ⟨a, b⟩ := p
    by_cases h : a = k
    · subst h; by_cases h' : a = k' <;> simp [insert, find?, h']
    · by_cases h' : a = k'
      · subst h'; simp [insert, find?, h, Ne.symm h]
      · simp [insert, find?, h, h', ih]

theorem find?_erase (k k' : α) (m : List (α × β)) :
    find? k' (erase k m) = if k = k' then none else find? k' m := by
  induction m with
  | nil => simp [erase, find?]
  | cons p rest ih =>
    obtain ⟨a, b⟩ := p
    by_cases h : a = k
    · subst h
      by_cases h' : a = k'
      · subst h'; simpa [erase] using ih
      · simp [erase, find?, h', ih]
    · by_cases h' : a = k'
      · subst h'; simp [erase, find?, h, Ne.symm h]
      · simp [erase, find?, h, h', ih]

theorem find?_adjust (k k' : α) (f : β → β) (m : List (α × β)) :
    find? k' (adjust k f m) = if k = k' then (find? k' m).map f else find? k' m := by
  induction m with
  | nil => simp [adjust, find?]
  | cons p rest ih =>
    obtain ⟨a, b⟩ := p
    by_cases h : a = k
    · subst h; by_cases h' : a = k' <;> simp [adjust, find?, h']
    · by_cases h' : a = k'
      · subst h'; simp [adjust, find?, h, Ne.symm h]
      · simp [adjust, find?, h, h', ih]

theorem find?_eq_none_iff (k : α) (m : List (α × β)) : find? k m = none ↔ k ∉ keys m := by
  induction m with
  | nil => simp [find?, keys]
  | cons p rest ih =>
    obtain ⟨a, b⟩ := p
    by_cases h : a = k
    · subst h; simp [find?, keys]
    · have : k ≠ a := Ne.symm h
      simp only [keys] at ih
      simp [find?, keys, h, this, ih]

theorem contains_iff_mem_keys (k : α) (m : List (α × β)) : contains k m ↔ k ∈ keys m := by
  unfold contains
  rw [Option.isSome_iff_ne_none, Ne, find?_eq_none_iff, Decidable.not_not]

theorem find?_append (k : α) (m n : List (α × β)) :
    find? k (m ++ n) = (find? k m).or (find? k n) := by
  induction m with
  | nil => rfl
  | cons p rest ih =>
    by_cases h : p.1 = k <;> simp [find?, h, ih]

theorem find?_append_eq_ite (k : α) (m n : List (α × β)) :
    find? k (m ++ n) = if k ∈ keys m then find? k m else find? k n := by
  rw [find?_append]
  split
  · rename_i hkey
    obtain ⟨v, hv⟩ := Option.isSome_iff_exists.1 ((contains_iff_mem_keys k m).2 hkey)
    rw [hv]
    rfl
  · rename_i hkey
    rw [(find?_eq_none_iff k m).2 hkey, Option.none_or]

/-- Without a common key it does not matter which map is asked first. -/
theorem find?_append_comm {m n : List (α × β)} (h : ∀ k ∈ keys m, k ∉ keys n) (k : α) :
    find? k (m ++ n) = find? k (n ++ m) := by
  rw [find?_append_eq_ite, find?_append]
  split
  · rename_i hkey
    rw [(find?_eq_none_iff k n).2 (h k hkey), Option.none_or]
  · rename_i hkey
    rw [(find?_eq_none_iff k m).2 hkey, Option.or_none]

/-- A look-up where all values were changed alike. -/
theorem find?_map {γ : Type} (f : β → γ) (k : α) (m : List (α × β)) :
    find? k (m.map fun p => (p.1, f p.2)) = (find? k m).map f := by
  induction m with
  | nil => rfl
  | cons p rest ih =>
    by_cases h : p.1 = k <;> simp [find?, h, ih]

omit [DecidableEq α] in
theorem keys_append (m n : List (α × β)) : keys (m ++ n) = keys m ++ keys n := List.map_append

theorem keys_adjust (k : α) (f : β → β) (m : List (α × β)) : keys (adjust k f m) = keys m := by
  induction m with
  | nil => rfl
  | cons p rest ih =>
    simp only [keys] at ih
    by_cases h : p.1 = k <;> simp [adjust, keys, h, ih]

theorem keys_erase (k : α) (m : List (α × β)) : keys (erase k m) = (keys m).filter (· ≠ k) := by
  induction m with
  | nil => rfl
  | cons p rest ih =>
    simp only [keys] at ih
    by_cases h : p.1 = k <;> simp [erase, keys, h, ih]

theorem keys_insert (k : α) (v : β) (m : List (α × β)) :
    keys (insert k v m) = if k ∈ keys m then keys m else keys m ++ [k] := by
  induction m with
  | nil => simp [insert, keys]
  | cons p rest ih =>
    simp only [keys] at ih
    by_cases h : p.1 = k
    · subst h; simp [insert, keys]
    · by_cases hmem : k ∈ rest.map Prod.fst <;> simp [insert, keys, h, Ne.symm h, ih, hmem]

theorem insert_of_not_mem {k : α} {v : β} {m : List (α × β)} (h : k ∉ keys m) :
    insert k v m = m ++ [(k, v)] := by
  induction m with
  | nil => rfl
  | cons p rest ih =>
    simp only [keys, List.map_cons, List.mem_cons, not_or] at h ih
    simp [insert, Ne.symm h.1, ih h.2]

theorem mem_of_find? {k : α} {v : β} {m : List (α × β)} (h : find? k m = some v) :
    (k, v) ∈ m := by
  induction m with
  | nil => simp [find?] at h
  | cons p rest ih =>
    obtain ⟨a, b⟩ := p
    by_cases heq : a = k
    · simp only [find?, heq, if_true, Option.some.injEq] at h
      simp [heq, h]
    · simp only [find?, heq, if_false] at h
      exact List.mem_cons_of_mem _ (ih h)

/-- Where no key comes twice, a look-up finds each pair. -/
theorem find?_of_mem {k : α} {v : β} {m : List (α × β)} (hm : (keys m).Nodup)
    (h : (k, v) ∈ m) : find? k m = some v := by
  induction m with
  | nil => exact absurd h List.not_mem_nil
  | cons e rest ih =>
    obtain ⟨hfirst, hrest⟩ := List.nodup_cons.1 hm
    rcases List.mem_cons.1 h with rfl | h
    · simp [find?]
    · have hne : e.1 ≠ k := fun heq => hfirst (heq ▸ List.mem_map_of_mem (f := Prod.fst) h)
      simp only [find?, if_neg hne]
      exact ih hrest h

end QuantumCircuit.Assoc
