import QuantumCircuit.Proofs.Tracking

/-!
# Names in the index of parameters

An index resolves names when a look-up by name gives exactly the parameter in use
that has the name; no two parameters in use then share a name. Tracking a
parameter keeps this if its name is free or its own (`Resolves.track`), and
untracking always keeps it (`Resolves.untrack`). What a look-up gives is in use
and has the name in any case (`Honest`), even where names are lost.
-/

namespace QuantumCircuit.ParameterTable

variable {t : ParameterTable} {site : ParameterUse} {p q : Parameter} {n : String}

theorem named?_track :
    (t.track site p).named? n =
      if t.contains p then t.named? n else if p.name = n then some p else t.named? n := by
  unfold track named?
  split
  · rfl
  · exact Assoc.find?_insert p.name n p t.byName

/-- The last use of `p` gone, its name is forgotten; nothing else happens to names. -/
theorem named?_untrack :
    (t.untrack site p).named? n =
      if t.contains p ∧ ¬ (t.untrack site p).contains p ∧ p.name = n then none
      else t.named? n := by
  have hcontains : ∀ u : ParameterTable, u.contains p = (u.uses? p).isSome := fun _ => rfl
  rw [hcontains, hcontains, uses?_untrack, if_pos rfl]
  unfold untrack
  cases hs : t.uses? p with
  | none => simp
  | some sites =>
    simp only [Option.map_some, Option.filter, Option.isSome_some, true_and]
    by_cases hempty : (sites.erase site).isEmpty
    · simp only [hempty, if_true, Bool.not_true, Bool.false_eq_true, if_false, Option.isSome_none,
        not_false_eq_true, true_and]
      exact Assoc.find?_erase p.name n t.byName
    · simp only [hempty, Bool.not_false, if_true, Option.isSome_some, not_true_eq_false, false_and,
        if_false, Bool.false_eq_true]
      rfl

theorem WellFormed.contains_track_iff (h : t.WellFormed) :
    (t.track site p).contains q ↔ t.contains q ∨ q = p := by
  rw [(h.track site p).contains_iff, h.contains_iff]
  simp only [notes_track_iff]
  constructor
  · rintro ⟨at_, h | ⟨-, h⟩⟩
    · exact .inl ⟨at_, h⟩
    · exact .inr h
  · rintro (⟨at_, h⟩ | h)
    · exact ⟨at_, .inl h⟩
    · exact ⟨site, .inr ⟨rfl, h⟩⟩

theorem WellFormed.contains_of_untrack (h : t.WellFormed) (hq : (t.untrack site p).contains q) :
    t.contains q := by
  obtain ⟨at_, hq⟩ := (h.untrack site p).contains_iff.1 hq
  exact h.contains_iff.2 ⟨at_, (h.notes_untrack_iff.1 hq).1⟩

/-- Untracking makes way for no parameter but its own. -/
theorem WellFormed.contains_untrack_of_ne (h : t.WellFormed) (hne : q ≠ p) :
    (t.untrack site p).contains q ↔ t.contains q := by
  refine ⟨h.contains_of_untrack, fun hq => ?_⟩
  obtain ⟨at_, hq⟩ := h.contains_iff.1 hq
  exact (h.untrack site p).contains_iff.2
    ⟨at_, h.notes_untrack_iff.2 ⟨hq, fun hboth => hne hboth.2⟩⟩

/-! ## Honest look-ups -/

/-- What a look-up gives is in use and has the name. -/
def Honest (t : ParameterTable) : Prop :=
  ∀ n p, t.named? n = some p → t.contains p ∧ p.name = n

theorem Honest.track (ht : t.Honest) (h : t.WellFormed) (site : ParameterUse) (p : Parameter) :
    (t.track site p).Honest := by
  intro n q hq
  rw [h.contains_track_iff]
  rw [named?_track] at hq
  split at hq
  · exact ⟨.inl (ht n q hq).1, (ht n q hq).2⟩
  · split at hq
    · rename_i hname
      cases hq
      exact ⟨.inr rfl, hname⟩
    · exact ⟨.inl (ht n q hq).1, (ht n q hq).2⟩

theorem Honest.untrack (ht : t.Honest) (h : t.WellFormed) (site : ParameterUse) (p : Parameter) :
    (t.untrack site p).Honest := by
  intro n q hq
  rw [named?_untrack] at hq
  split at hq
  · cases hq
  · rename_i hgone
    obtain ⟨hcontains, hname⟩ := ht n q hq
    refine ⟨?_, hname⟩
    by_cases heq : q = p
    · subst heq
      exact Decidable.byContradiction fun hnot => hgone ⟨hcontains, hnot, hname⟩
    · exact (h.contains_untrack_of_ne heq).2 hcontains

/-! ## Indices that resolve names -/

/-- A look-up by name gives exactly the parameter in use that has the name. -/
def Resolves (t : ParameterTable) : Prop :=
  ∀ n p, t.named? n = some p ↔ t.contains p ∧ p.name = n

theorem resolves_empty : empty.Resolves := by
  intro n p
  simp [empty, named?, contains, Assoc.contains, Assoc.find?]

namespace Resolves

theorem honest (ht : t.Resolves) : t.Honest := fun n p => (ht n p).1

theorem eq_of_name_eq (ht : t.Resolves) (hp : t.contains p) (hq : t.contains q)
    (hname : p.name = q.name) : p = q := by
  have hp' := (ht q.name p).2 ⟨hp, hname⟩
  have hq' := (ht q.name q).2 ⟨hq, rfl⟩
  exact Option.some.inj (hp'.symm.trans hq')

/-- A parameter may come in if none but itself has its name. -/
theorem track (ht : t.Resolves) (h : t.WellFormed) (site : ParameterUse)
    (hp : ∀ q, t.contains q → q.name = p.name → q = p) : (t.track site p).Resolves := by
  intro n q
  rw [named?_track, h.contains_track_iff]
  split
  · rename_i hcontains
    rw [ht]
    constructor
    · rintro ⟨hq, hname⟩
      exact ⟨.inl hq, hname⟩
    · rintro ⟨hq | rfl, hname⟩
      · exact ⟨hq, hname⟩
      · exact ⟨hcontains, hname⟩
  · rename_i hnew
    split
    · rename_i hname
      subst hname
      rw [Option.some.injEq]
      constructor
      · rintro rfl
        exact ⟨.inr rfl, rfl⟩
      · rintro ⟨hq | rfl, hname⟩
        · exact (hp q hq hname).symm
        · rfl
    · rename_i hname
      rw [ht]
      constructor
      · rintro ⟨hq, hname'⟩
        exact ⟨.inl hq, hname'⟩
      · rintro ⟨hq | rfl, hname'⟩
        · exact ⟨hq, hname'⟩
        · exact absurd hname' hname

theorem untrack (ht : t.Resolves) (h : t.WellFormed) (site : ParameterUse) (p : Parameter) :
    (t.untrack site p).Resolves := by
  intro n q
  refine ⟨ht.honest.untrack h site p n q, fun ⟨hq, hname⟩ => ?_⟩
  have hold := h.contains_of_untrack hq
  rw [named?_untrack, if_neg, ht]
  · exact ⟨hold, hname⟩
  · rintro ⟨hp, hgone, hname'⟩
    have heq : q = p := ht.eq_of_name_eq hold hp (hname.trans hname'.symm)
    exact hgone (heq ▸ hq)

end Resolves

/-! ## Names out of a list that is unambiguous -/

/-- A well-formed index that resolves names, with all its parameters out of `S`. -/
structure Over (S : Parameter → Prop) (t : ParameterTable) : Prop where
  wellFormed : t.WellFormed
  resolves : t.Resolves
  all : ∀ p, t.contains p → S p

/-- That no two of the parameters share a name. -/
def Apart (S : Parameter → Prop) : Prop := ∀ p q, S p → S q → p.name = q.name → p = q

theorem Resolves.apart (ht : t.Resolves) : Apart fun p => t.contains p :=
  fun _ _ hp hq => ht.eq_of_name_eq hp hq

namespace Over

variable {S : Parameter → Prop}

theorem empty (S : Parameter → Prop) : Over S empty :=
  ⟨wellFormed_empty, resolves_empty, fun p hp => by
    simp [ParameterTable.empty, contains, Assoc.contains, Assoc.find?] at hp⟩

theorem track (h : Over S t) (hS : Apart S) (site : ParameterUse) (hp : S p) :
    Over S (t.track site p) := by
  refine ⟨h.wellFormed.track site p, h.resolves.track h.wellFormed site fun q hq hname => ?_,
    fun q hq => ?_⟩
  · exact hS q p (h.all q hq) hp hname
  · rcases h.wellFormed.contains_track_iff.1 hq with hq | rfl
    · exact h.all q hq
    · exact hp

theorem untrack (h : Over S t) (site : ParameterUse) (p : Parameter) :
    Over S (t.untrack site p) :=
  ⟨h.wellFormed.untrack site p, h.resolves.untrack h.wellFormed site p,
    fun q hq => h.all q (h.wellFormed.contains_of_untrack hq)⟩

theorem trackRecord (h : Over S t) (hS : Apart S) (k : Nat) {slots : List (Nat × Parameter)}
    (hslots : ∀ u ∈ slots, S u.2) : Over S (t.trackRecord k slots) :=
  List.foldlRecOn slots _ h fun _ ht u hu => ht.track hS _ (hslots u hu)

theorem trackPhase (h : Over S t) (hS : Apart S) {ps : List Parameter} (hps : ∀ p ∈ ps, S p) :
    Over S (t.trackPhase ps) :=
  List.foldlRecOn ps _ h fun _ ht p hp => ht.track hS _ (hps p hp)

theorem untrackRecord (h : Over S t) (k : Nat) (slots : List (Nat × Parameter)) :
    Over S (t.untrackRecord k slots) :=
  List.foldlRecOn slots _ h fun _ ht _ _ => ht.untrack _ _

theorem untrackPhase (h : Over S t) (ps : List Parameter) : Over S (t.untrackPhase ps) :=
  List.foldlRecOn ps _ h fun _ ht _ _ => ht.untrack _ _

theorem trackFrom (h : Over S t) (hS : Apart S) (n : Nat)
    {records : List (List (Nat × Parameter))} (hrecords : ∀ slots ∈ records, ∀ u ∈ slots, S u.2) :
    Over S (t.trackFrom n records) := by
  induction records generalizing t n with
  | nil => exact h
  | cons slots rest ih =>
    obtain ⟨hslots, hrest⟩ := List.forall_mem_cons.1 hrecords
    exact ih (h.trackRecord hS n hslots) (n + 1) hrest

end Over

/-! ## What the check of names rules out -/

/-- The look-up, if it gives anything, gives `p`. -/
def Admits (t : ParameterTable) (p : Parameter) : Prop := ∀ q, t.named? p.name = some q → q = p

theorem checkAfter_eq_ok_iff {batch : List (String × Parameter)} {ps : List Parameter} :
    t.checkAfter batch ps = .ok () ↔
      (∀ p ∈ ps, t.Admits p) ∧
      (∀ p ∈ ps, ∀ q, Assoc.find? p.name batch = some q → q = p) ∧
      ∀ p ∈ ps, ∀ q ∈ ps, p.name = q.name → p = q := by
  have hdiffers : ∀ (o : Option Parameter) (p : Parameter),
      (o.any (· != p)) = false ↔ ∀ q, o = some q → q = p := by
    intro o p
    cases o <;> simp
  -- those that were checked go into the batch, so the induction needs any batch
  induction ps generalizing batch with
  | nil => simp [checkAfter]
  | cons p rest ih =>
    unfold checkAfter
    simp only [Bool.or_eq_true]
    by_cases hp : (t.named? p.name).any (· != p) = true ∨
        (Assoc.find? p.name batch).any (· != p) = true
    · rw [if_pos hp]
      simp only [reduceCtorEq, false_iff]
      rintro ⟨hadmits, hbatch, -⟩
      rcases hp with hp | hp
      · exact absurd ((hdiffers _ _).2 (hadmits p List.mem_cons_self)) (by simp [hp])
      · exact absurd ((hdiffers _ _).2 (hbatch p List.mem_cons_self)) (by simp [hp])
    · rw [if_neg hp]
      rw [not_or, Bool.not_eq_true, Bool.not_eq_true, hdiffers, hdiffers] at hp
      refine ih.trans ?_
      simp only [Assoc.find?_insert, List.forall_mem_cons]
      constructor
      · rintro ⟨hadmits, hbatch, hrest⟩
        -- the rest was checked against a batch with `p` in it
        have hself : ∀ q ∈ rest, p.name = q.name → p = q := fun q hq hname =>
          hbatch q hq p (by rw [if_pos hname])
        refine ⟨⟨hp.1, hadmits⟩, ⟨hp.2, fun q hq r hr => ?_⟩, ⟨fun _ => trivial, hself⟩,
          fun q hq => ?_⟩
        · by_cases hname : p.name = q.name
          · rw [← hself q hq hname]
            exact hp.2 r (hname ▸ hr)
          · exact hbatch q hq r (by rwa [if_neg hname])
        · exact ⟨fun hname => (hself q hq hname.symm).symm, hrest q hq⟩
      · rintro ⟨⟨-, hadmits⟩, ⟨-, hbatch⟩, ⟨-, hself⟩, hrest⟩
        refine ⟨hadmits, fun q hq r hr => ?_, fun q hq r hr => (hrest q hq).2 r hr⟩
        split at hr
        · rename_i hname
          cases hr
          exact hself q hq hname
        · exact hbatch q hq r hr

theorem Resolves.admits_iff (ht : t.Resolves) :
    t.Admits p ↔ ∀ q, t.contains q → q.name = p.name → q = p := by
  unfold Admits
  constructor
  · intro h q hq hname
    exact h q ((ht p.name q).2 ⟨hq, hname⟩)
  · intro h q hq
    obtain ⟨hcontains, hname⟩ := (ht p.name q).1 hq
    exact h q hcontains hname

theorem check_eq_ok_iff {ps : List Parameter} :
    t.check ps = .ok () ↔
      (∀ p ∈ ps, t.Admits p) ∧ ∀ p ∈ ps, ∀ q ∈ ps, p.name = q.name → p = q := by
  unfold check
  rw [checkAfter_eq_ok_iff]
  simp [Assoc.find?]

/-- The parameters that pass the check are unambiguous together with those in use. -/
theorem Resolves.apart_of_check (ht : t.Resolves) {ps : List Parameter}
    (h : t.check ps = .ok ()) : Apart fun p => t.contains p ∨ p ∈ ps := by
  obtain ⟨hadmits, hamong⟩ := check_eq_ok_iff.1 h
  rintro p q (hp | hp) (hq | hq) hname
  · exact ht.eq_of_name_eq hp hq hname
  · exact ht.admits_iff.1 (hadmits q hq) p hp hname
  · exact (ht.admits_iff.1 (hadmits p hp) q hq hname.symm).symm
  · exact hamong p hp q hq hname

end QuantumCircuit.ParameterTable
