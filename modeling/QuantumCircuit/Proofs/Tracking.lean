import QuantumCircuit.Param.Table

/-!
# What the index of parameters notes

`t.Notes site p` says that the index has `p` down at `site`. Tracking adds one
note and untracking takes one away (`notes_track_iff`, `notes_untrack_iff`), and
so it goes for the notes of a record, of the phase and of a whole list of records.

A well-formed index lists every parameter once, with at least one site and no
site twice, and any order it remembers is the canonical one; every way to change
an index keeps it so.
-/

namespace QuantumCircuit.ParameterTable

variable {t : ParameterTable} {site at_ : ParameterUse} {p q : Parameter}

/-- The index has `p` down at `site`. -/
def Notes (t : ParameterTable) (site : ParameterUse) (p : Parameter) : Prop :=
  ∃ sites, t.uses? p = some sites ∧ site ∈ sites

/-- Each parameter once, each of its sites once, and no wrong order remembered. -/
structure WellFormed (t : ParameterTable) : Prop where
  keys : (Assoc.keys t.uses).Nodup
  sites : ∀ p sites, t.uses? p = some sites → sites.Nodup ∧ sites ≠ []
  order : ∀ l, t.order = some l → l = Sorting.sort Parameter.le (Assoc.keys t.uses)

theorem wellFormed_empty : WellFormed empty :=
  ⟨.nil, fun _ _ h => absurd h (by simp [empty, uses?, Assoc.find?]), by simp [empty]⟩

@[simp] theorem not_notes_empty : ¬ empty.Notes site p := by
  rintro ⟨sites, h, -⟩
  simp [empty, uses?, Assoc.find?] at h

/-- A parameter is in use when the index has it down somewhere. -/
theorem WellFormed.contains_iff (h : t.WellFormed) : t.contains p ↔ ∃ site, t.Notes site p := by
  unfold contains Assoc.contains
  constructor
  · intro hp
    obtain ⟨sites, hs⟩ := Option.isSome_iff_exists.1 hp
    obtain ⟨site, hmem⟩ := List.exists_mem_of_ne_nil sites (h.sites p sites hs).2
    exact ⟨site, sites, hs, hmem⟩
  · rintro ⟨site, sites, hs, -⟩
    exact Option.isSome_iff_exists.2 ⟨sites, hs⟩

/-! ## One site -/

theorem uses?_track :
    (t.track site p).uses? q =
      if p = q then some (Distinct.insert site ((t.uses? q).getD [])) else t.uses? q := by
  unfold track contains Assoc.contains uses?
  split
  · rename_i hp
    obtain ⟨sites, hs⟩ := Option.isSome_iff_exists.1 hp
    rw [Assoc.find?_adjust]
    split
    · rename_i heq
      subst heq
      simp [hs]
    · rfl
  · rename_i hp
    have hnone : Assoc.find? p t.uses = none := by simpa using hp
    rw [Assoc.find?_append]
    by_cases heq : p = q
    · subst heq
      simp [hnone, Assoc.find?, Distinct.insert]
    · simp [Assoc.find?, heq]

theorem notes_track_iff :
    (t.track site p).Notes at_ q ↔ t.Notes at_ q ∨ at_ = site ∧ q = p := by
  unfold Notes
  rw [uses?_track]
  by_cases heq : p = q
  · subst heq
    cases h : t.uses? p <;> simp [Distinct.mem_insert]
  · simp [heq, Ne.symm heq]

theorem WellFormed.track (h : t.WellFormed) (site : ParameterUse) (p : Parameter) :
    (t.track site p).WellFormed := by
  refine ⟨?_, fun q sites hq => ?_, ?_⟩
  · unfold ParameterTable.track
    split
    · rw [Assoc.keys_adjust]
      exact h.keys
    · rename_i hp
      -- a parameter that is new comes in at the end
      have hmem : p ∉ Assoc.keys t.uses := fun hmem =>
        hp ((Assoc.contains_iff_mem_keys p t.uses).2 hmem)
      rw [Assoc.keys_append, List.nodup_append]
      refine ⟨h.keys, by simp [Assoc.keys], fun a ha b hb => ?_⟩
      obtain rfl : b = p := by simpa [Assoc.keys] using hb
      exact fun heq => hmem (heq ▸ ha)
  · rw [uses?_track] at hq
    split at hq
    · cases hq
      refine ⟨Distinct.nodup_insert site ?_, List.ne_nil_of_mem ((Distinct.mem_insert site site _).2
        (.inr rfl))⟩
      cases hs : t.uses? q with
      | none => exact .nil
      | some old => exact (h.sites q old hs).1
    · exact h.sites q sites hq
  · unfold ParameterTable.track
    split
    · rw [Assoc.keys_adjust]
      exact h.order
    · simp

theorem uses?_untrack :
    (t.untrack site p).uses? q =
      if p = q then ((t.uses? q).map (·.erase site)).filter (!·.isEmpty) else t.uses? q := by
  unfold untrack
  split
  · rename_i hp
    split
    · rename_i heq
      subst heq
      simp [hp]
    · rfl
  · rename_i sites hp
    simp only
    split
    · -- the last use is gone, and the parameter with it
      rename_i hempty
      show Assoc.find? q (Assoc.erase p t.uses) = _
      rw [Assoc.find?_erase]
      split
      · rename_i heq
        subst heq
        rw [hp, Option.map_some, Option.filter, hempty]
        rfl
      · rfl
    · rename_i hempty
      show Assoc.find? q (Assoc.adjust p _ t.uses) = _
      rw [Assoc.find?_adjust]
      split
      · rename_i heq
        subst heq
        have hfind : Assoc.find? p t.uses = some sites := hp
        simp [hp, hfind, Option.filter, hempty]
      · rfl

theorem WellFormed.notes_untrack_iff (h : t.WellFormed) :
    (t.untrack site p).Notes at_ q ↔ t.Notes at_ q ∧ ¬ (at_ = site ∧ q = p) := by
  unfold Notes
  rw [uses?_untrack]
  by_cases heq : p = q
  · subst heq
    cases hs : t.uses? p with
    | none => simp
    | some sites =>
      -- the site is listed once, so that it is gone when it is erased
      have hnodup := (h.sites p sites hs).1
      simp only [if_true, Option.map_some, Option.filter, Bool.not_eq_true',
        List.isEmpty_eq_false_iff]
      constructor
      · rintro ⟨left, hleft, hmem⟩
        split at hleft
        · cases hleft
          obtain ⟨hne, hold⟩ := hnodup.mem_erase_iff.1 hmem
          exact ⟨⟨sites, rfl, hold⟩, fun hboth => hne hboth.1⟩
        · cases hleft
      · rintro ⟨⟨old, hold, hmem⟩, hne⟩
        cases hold
        have hleft : at_ ∈ sites.erase site :=
          hnodup.mem_erase_iff.2 ⟨fun heq => hne ⟨heq, trivial⟩, hmem⟩
        exact ⟨_, by rw [if_pos (List.ne_nil_of_mem hleft)], hleft⟩
  · simp [heq, Ne.symm heq]

theorem WellFormed.untrack (h : t.WellFormed) (site : ParameterUse) (p : Parameter) :
    (t.untrack site p).WellFormed := by
  refine ⟨?_, fun q sites hq => ?_, ?_⟩
  · unfold ParameterTable.untrack
    split
    · exact h.keys
    · simp only
      split
      · rw [Assoc.keys_erase]
        exact h.keys.filter _
      · rw [Assoc.keys_adjust]
        exact h.keys
  · rw [uses?_untrack] at hq
    split at hq
    · cases hs : t.uses? q with
      | none => simp [hs] at hq
      | some old =>
        rw [hs, Option.map_some, Option.filter] at hq
        split at hq
        · rename_i hempty
          cases hq
          exact ⟨(h.sites q old hs).1.erase site, by simpa using hempty⟩
        · cases hq
    · exact h.sites q sites hq
  · unfold ParameterTable.untrack
    split
    · exact h.order
    · simp only
      split
      · simp
      · rw [Assoc.keys_adjust]
        exact h.order

/-! ## Lists of sites -/

/-- The sites of record `k`, from its parameters with their slots. -/
def recordUses (k : Nat) (slots : List (Nat × Parameter)) : List (ParameterUse × Parameter) :=
  slots.map fun u => (.record k u.1, u.2)

/-- The sites of the parameters of the phase. -/
def phaseUses (ps : List Parameter) : List (ParameterUse × Parameter) := ps.map (.phase, ·)

@[simp] theorem mem_recordUses_iff {k : Nat} {slots : List (Nat × Parameter)} :
    (site, p) ∈ recordUses k slots ↔ ∃ slot, site = .record k slot ∧ (slot, p) ∈ slots := by
  simp only [recordUses, List.mem_map, Prod.mk.injEq, Prod.exists]
  constructor
  · rintro ⟨slot, p', h, rfl, rfl⟩
    exact ⟨slot, rfl, h⟩
  · rintro ⟨slot, rfl, h⟩
    exact ⟨slot, p, h, rfl, rfl⟩

@[simp] theorem mem_phaseUses_iff {ps : List Parameter} :
    (site, p) ∈ phaseUses ps ↔ site = .phase ∧ p ∈ ps := by
  simp only [phaseUses, List.mem_map, Prod.mk.injEq]
  constructor
  · rintro ⟨q, h, rfl, rfl⟩
    exact ⟨rfl, h⟩
  · rintro ⟨rfl, h⟩
    exact ⟨p, h, rfl, rfl⟩

section Lists

variable {α : Type} (f : α → ParameterUse × Parameter) (l : List α)

theorem notes_foldl_track_iff :
    (l.foldl (fun t a => t.track (f a).1 (f a).2) t).Notes site q ↔
      t.Notes site q ∨ (site, q) ∈ l.map f := by
  induction l generalizing t with
  | nil => simp
  | cons a rest ih =>
    rw [List.foldl_cons, ih, notes_track_iff, List.map_cons, List.mem_cons, or_assoc]
    rw [Prod.ext_iff (x := (site, q))]

theorem WellFormed.foldl_track (h : t.WellFormed) :
    (l.foldl (fun t a => t.track (f a).1 (f a).2) t).WellFormed :=
  List.foldlRecOn l _ h fun _ ht _ _ => ht.track _ _

theorem WellFormed.notes_foldl_untrack_iff (h : t.WellFormed) :
    (l.foldl (fun t a => t.untrack (f a).1 (f a).2) t).Notes site q ↔
      t.Notes site q ∧ (site, q) ∉ l.map f := by
  induction l generalizing t with
  | nil => simp
  | cons a rest ih =>
    rw [List.foldl_cons, ih (h.untrack _ _), h.notes_untrack_iff, List.map_cons, List.mem_cons,
      not_or, and_assoc]
    rw [Prod.ext_iff (x := (site, q))]

theorem WellFormed.foldl_untrack (h : t.WellFormed) :
    (l.foldl (fun t a => t.untrack (f a).1 (f a).2) t).WellFormed :=
  List.foldlRecOn l _ h fun _ ht _ _ => ht.untrack _ _

end Lists

variable {k : Nat} {slots : List (Nat × Parameter)} {ps : List Parameter}

theorem notes_trackRecord_iff :
    (t.trackRecord k slots).Notes site q ↔ t.Notes site q ∨ (site, q) ∈ recordUses k slots :=
  notes_foldl_track_iff (fun u : Nat × Parameter => (.record k u.1, u.2)) slots

theorem WellFormed.trackRecord (h : t.WellFormed) : (t.trackRecord k slots).WellFormed :=
  h.foldl_track (fun u : Nat × Parameter => (.record k u.1, u.2)) slots

theorem WellFormed.notes_untrackRecord_iff (h : t.WellFormed) :
    (t.untrackRecord k slots).Notes site q ↔ t.Notes site q ∧ (site, q) ∉ recordUses k slots :=
  h.notes_foldl_untrack_iff (fun u : Nat × Parameter => (.record k u.1, u.2)) slots

theorem WellFormed.untrackRecord (h : t.WellFormed) : (t.untrackRecord k slots).WellFormed :=
  h.foldl_untrack (fun u : Nat × Parameter => (.record k u.1, u.2)) slots

theorem notes_trackPhase_iff :
    (t.trackPhase ps).Notes site q ↔ t.Notes site q ∨ (site, q) ∈ phaseUses ps :=
  notes_foldl_track_iff (.phase, ·) ps

theorem WellFormed.trackPhase (h : t.WellFormed) : (t.trackPhase ps).WellFormed :=
  h.foldl_track (.phase, ·) ps

theorem WellFormed.notes_untrackPhase_iff (h : t.WellFormed) :
    (t.untrackPhase ps).Notes site q ↔ t.Notes site q ∧ (site, q) ∉ phaseUses ps :=
  h.notes_foldl_untrack_iff (.phase, ·) ps

theorem WellFormed.untrackPhase (h : t.WellFormed) : (t.untrackPhase ps).WellFormed :=
  h.foldl_untrack (.phase, ·) ps

/-! ## A whole index -/

/-- Track one record after another, from position `n` on. -/
def trackFrom (t : ParameterTable) : Nat → List (List (Nat × Parameter)) → ParameterTable
  | _, [] => t
  | n, slots :: rest => (t.trackRecord n slots).trackFrom (n + 1) rest

theorem build_eq_trackFrom (phase : List Parameter) (records : List (List (Nat × Parameter))) :
    build phase records = (empty.trackPhase phase).trackFrom 0 records := by
  suffices h : ∀ (t : ParameterTable) (n : Nat) (records : List (List (Nat × Parameter))),
      (records.foldl (fun (state : ParameterTable × Nat) slots =>
        (state.1.trackRecord state.2 slots, state.2 + 1)) (t, n)).1 = t.trackFrom n records from
    h _ 0 records
  intro t n records
  induction records generalizing t n with
  | nil => rfl
  | cons slots rest ih => exact ih _ _

theorem notes_trackFrom_iff {n : Nat} {records : List (List (Nat × Parameter))} :
    (t.trackFrom n records).Notes site q ↔
      t.Notes site q ∨
        ∃ k slots, records[k]? = some slots ∧ (site, q) ∈ recordUses (n + k) slots := by
  induction records generalizing t n with
  | nil => simp [trackFrom]
  | cons first rest ih =>
    rw [trackFrom, ih, notes_trackRecord_iff, or_assoc]
    refine or_congr_right ⟨?_, ?_⟩
    · rintro (h | ⟨k, slots, hk, h⟩)
      · exact ⟨0, first, rfl, h⟩
      · exact ⟨k + 1, slots, by simpa using hk, by rwa [show n + (k + 1) = n + 1 + k by omega]⟩
    · rintro ⟨k, slots, hk, h⟩
      cases k with
      | zero =>
        obtain rfl : first = slots := by simpa using hk
        exact .inl h
      | succ k =>
        exact .inr ⟨k, slots, by simpa using hk, by rwa [show n + 1 + k = n + (k + 1) by omega]⟩

theorem WellFormed.trackFrom (h : t.WellFormed) (n : Nat)
    (records : List (List (Nat × Parameter))) :
    (t.trackFrom n records).WellFormed := by
  induction records generalizing t n with
  | nil => exact h
  | cons slots rest ih => exact ih h.trackRecord (n + 1)

/-! ## The canonical order -/

/-- The order of a well-formed index is the canonical one, remembered or not. -/
theorem WellFormed.sorted_eq (h : t.WellFormed) :
    t.sorted = Sorting.sort Parameter.le (Assoc.keys t.uses) := by
  unfold sorted
  cases ho : t.order with
  | none => rfl
  | some l => exact h.order l ho

theorem WellFormed.remembered (h : t.WellFormed) : t.remembered.WellFormed := by
  refine ⟨h.keys, h.sites, fun l hl => ?_⟩
  cases hl
  exact h.sorted_eq

theorem WellFormed.nodup_sorted (h : t.WellFormed) : t.sorted.Nodup := by
  rw [h.sorted_eq]
  exact (Sorting.perm_sort Parameter.le _).nodup_iff.2 h.keys

theorem WellFormed.mem_sorted_iff (h : t.WellFormed) : p ∈ t.sorted ↔ t.contains p := by
  rw [h.sorted_eq, (Sorting.perm_sort Parameter.le _).mem_iff]
  exact (Assoc.contains_iff_mem_keys p t.uses).symm

theorem WellFormed.pairwise_sorted (h : t.WellFormed) : t.sorted.Pairwise (Parameter.le · ·) := by
  rw [h.sorted_eq]
  exact Sorting.pairwise_sort Parameter.le_total (fun _ _ _ => Parameter.le_trans) _

end QuantumCircuit.ParameterTable
