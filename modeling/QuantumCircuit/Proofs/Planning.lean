import QuantumCircuit.Circuit.Compose
import QuantumCircuit.Proofs.Moving
import Mathlib.Data.List.GetD

/-!
# What a worked-out composition promises

A composition onto a circuit without open blocks is worked out before anything is
written. It is given a place if all checks pass (`Circuit.place_eq_ok_iff`). If it
answers, the targets are good (`Circuit.place_eq_ok`), every identifier
to be added may come in, in order, and every identifier of the source has an image
(`IdentifierPlan.make_eq_ok`), and the records arrive with the aliases they need
(`Circuit.splice_eq_ok`).
-/

namespace QuantumCircuit

/-! ## Targets -/

theorem checkTargets_eq_ok_iff {kind : BitKind} {destination : Nat} {seen targets : List Nat} :
    checkTargets kind destination seen targets = .ok () ↔
      targets.Nodup ∧ ∀ t ∈ targets, t < destination ∧ t ∉ seen := by
  induction targets generalizing seen with
  | nil => exact iff_of_true rfl ⟨.nil, fun _ ht => absurd ht List.not_mem_nil⟩
  | cons t rest ih =>
    rw [checkTargets, List.nodup_cons, List.forall_mem_cons]
    split
    · rename_i hout
      exact iff_of_false (by simp) fun h => absurd h.2.1.1 (Nat.not_lt_of_le hout)
    · rename_i hrange
      split
      · rename_i hseen
        exact iff_of_false (by simp) fun h => h.2.1.2 hseen
      · rename_i hnew
        rw [ih]
        constructor
        · rintro ⟨hnodup, hall⟩
          refine ⟨⟨fun ht => (hall t ht).2 List.mem_cons_self, hnodup⟩,
            ⟨Nat.lt_of_not_le hrange, hnew⟩, fun u hu => ⟨(hall u hu).1, fun hmem => ?_⟩⟩
          exact (hall u hu).2 (List.mem_cons_of_mem t hmem)
        · rintro ⟨⟨hfirst, hnodup⟩, -, hall⟩
          refine ⟨hnodup, fun u hu => ⟨(hall u hu).1, fun hmem => ?_⟩⟩
          rcases List.mem_cons.1 hmem with rfl | hmem
          · exact hfirst hu
          · exact (hall u hu).2 hmem

/-- That the targets are as many as asked for, all different and all in range. -/
structure GoodTargets (source destination : Nat) (targets : List Nat) : Prop where
  length : targets.length = source
  nodup : targets.Nodup
  range : ∀ t ∈ targets, t < destination

/-- Targets that are asked for have to be good; else the first positions are the targets. -/
theorem targetPositions_eq_ok_iff {explicit : Option (List Nat)} {source destination : Nat}
    {kind : BitKind} {targets : List Nat} :
    targetPositions explicit source destination kind = .ok targets ↔
      explicit.getD (List.range source) = targets ∧
        (explicit.isSome → GoodTargets source destination targets) := by
  cases explicit with
  | none => simp [targetPositions]
  | some given =>
    by_cases hlength : given.length = source
    · rw [targetPositions, if_neg (not_not_intro hlength)]
      refine Checking.seq_eq_ok_iff.trans ?_
      rw [checkTargets_eq_ok_iff]
      constructor
      · rintro ⟨⟨hnodup, hall⟩, ⟨⟩⟩
        exact ⟨rfl, fun _ => ⟨hlength, hnodup, fun t ht => (hall t ht).1⟩⟩
      · rintro ⟨rfl, hgood⟩
        exact ⟨⟨(hgood rfl).nodup, fun t ht => ⟨(hgood rfl).range t ht, List.not_mem_nil⟩⟩, rfl⟩
    · rw [targetPositions, if_pos hlength]
      refine iff_of_false (by simp) ?_
      rintro ⟨rfl, hgood⟩
      exact hlength (hgood rfl).length

theorem targetPositions_eq_ok {explicit : Option (List Nat)} {source destination : Nat}
    {kind : BitKind} {targets : List Nat} (hle : source ≤ destination)
    (h : targetPositions explicit source destination kind = .ok targets) :
    GoodTargets source destination targets := by
  obtain ⟨htargets, hgood⟩ := targetPositions_eq_ok_iff.1 h
  cases explicit with
  | none =>
    subst htargets
    refine ⟨List.length_range, List.nodup_range, fun t ht => ?_⟩
    exact Nat.lt_of_lt_of_le (List.mem_range.1 ht) hle
  | some given => exact hgood rfl

theorem GoodTargets.le {source destination : Nat} {targets : List Nat}
    (h : GoodTargets source destination targets) : source ≤ destination := by
  have hsub : targets.Subperm (List.range destination) :=
    h.nodup.subperm fun t ht => List.mem_range.2 (h.range t ht)
  have hle := hsub.length_le
  rwa [h.length, List.length_range] at hle

/-- Where an operand of the source goes, when it is one. -/
theorem GoodTargets.getD_mem {source destination : Nat} {targets : List Nat}
    (h : GoodTargets source destination targets) {q : Nat} (hq : q < source) :
    targets.getD q q ∈ targets := by
  rw [List.getD_eq_getElem _ _ (h.length.symm ▸ hq)]
  exact List.getElem_mem _

/-- Different operands go to different targets. -/
theorem GoodTargets.nodup_map {source destination : Nat} {targets operands : List Nat}
    (h : GoodTargets source destination targets) (hoperands : operands.Nodup)
    (hrange : ∀ q ∈ operands, q < source) :
    (operands.map fun q => targets.getD q q).Nodup := by
  refine List.Nodup.map_on (fun a ha b hb hab => ?_) hoperands
  have ha := h.length.symm ▸ hrange a ha
  have hb := h.length.symm ▸ hrange b hb
  rw [List.getD_eq_getElem _ _ ha, List.getD_eq_getElem _ _ hb] at hab
  exact (List.Nodup.getElem_inj_iff h.nodup).1 hab

namespace Circuit

variable {c source : Circuit} {o : ComposeOptions} {p : Placement}

/-- Whether clbits and classical registers of the source come along. -/
def bringsClbits (c source : Circuit) (o : ComposeOptions) : Bool :=
  o.clbits.isNone && c.numClbits == 0 && decide (0 < source.numClbits)

/-- All that is checked where a placement is worked out, at the top level or in an open block. -/
structure WorkedOut (c source : Circuit) (o : ComposeOptions) (p : Placement) : Prop where
  front : (o.front && c.inScope) = false
  numQubits : source.numQubits ≤ c.numQubits
  brings : p.bringClbits = (c.bringsClbits source o && !c.inScope)
  numClbits : p.bringClbits = false → source.numClbits ≤ c.numClbits
  names : p.bringClbits → ∀ r ∈ source.content.clbits.registers,
    ¬ c.content.identifiers.hasName r.name
  qubits : targetPositions o.qubits source.numQubits c.numQubits .quantum = .ok p.qubits
  clbits : targetPositions o.clbits source.numClbits
    (if p.bringClbits then source.numClbits else c.numClbits) .classical = .ok p.clbits
  parameters : c.content.table.check source.parameters = .ok ()
  phase : (c.inScope && source.content.phase.isPhase) = false

theorem place_eq_ok_iff : c.place source o = .ok p ↔ c.WorkedOut source o p := by
  have hbring : (o.clbits.isNone && !c.inScope && c.numClbits == 0 &&
      decide (0 < source.numClbits)) = (c.bringsClbits source o && !c.inScope) := by
    unfold bringsClbits
    cases o.clbits.isNone <;> cases c.inScope <;> simp
  unfold place
  rw [hbring]
  constructor
  · -- the checks in the order they are made
    intro h
    obtain ⟨hfront, h⟩ := Checking.seq_eq_ok_iff.1 h
    obtain ⟨hqubits, h⟩ := Checking.seq_eq_ok_iff.1 h
    obtain ⟨hclbits, h⟩ := Checking.seq_eq_ok_iff.1 h
    obtain ⟨hnames, h⟩ := Checking.seq_eq_ok_iff.1 h
    obtain ⟨_, hq, h⟩ := Checking.bind_eq_ok_iff.1 h
    obtain ⟨_, hb, h⟩ := Checking.bind_eq_ok_iff.1 h
    obtain ⟨hcheck, h⟩ := Checking.seq_eq_ok_iff.1 h
    obtain ⟨hphase, h⟩ := Checking.seq_eq_ok_iff.1 h
    cases h
    refine ⟨refuseIf_eq_ok_iff.1 hfront, by simpa using hqubits, rfl, ?_, ?_, hq, hb, hcheck,
      refuseIf_eq_ok_iff.1 hphase⟩
    · intro hnone
      dsimp only at hnone
      simpa [hnone] using hclbits
    · intro hbring r hr
      rw [refuseFound_eq_ok_iff, if_pos hbring, List.find?_eq_none] at hnames
      exact hnames r hr
  · intro h
    rw [← h.brings]
    refine Checking.seq_eq_ok_iff.2 ⟨refuseIf_eq_ok_iff.2 h.front, ?_⟩
    refine Checking.seq_eq_ok_iff.2 ⟨by simpa using h.numQubits, ?_⟩
    refine Checking.seq_eq_ok_iff.2 ⟨by simpa using h.numClbits, ?_⟩
    refine Checking.seq_eq_ok_iff.2 ⟨?_, ?_⟩
    · rw [refuseFound_eq_ok_iff, List.find?_eq_none]
      split
      · exact h.names ‹_›
      · exact fun r hr => absurd hr List.not_mem_nil
    refine Checking.bind_eq_ok_iff.2 ⟨_, h.qubits, Checking.bind_eq_ok_iff.2 ⟨_, h.clbits, ?_⟩⟩
    refine Checking.seq_eq_ok_iff.2 ⟨h.parameters, ?_⟩
    exact Checking.seq_eq_ok_iff.2 ⟨refuseIf_eq_ok_iff.2 h.phase, rfl⟩

/-- What holds of a placement that was found. -/
structure Placed (c source : Circuit) (o : ComposeOptions) (p : Placement) : Prop where
  brings : p.bringClbits = c.bringsClbits source o
  qubits : GoodTargets source.numQubits c.numQubits p.qubits
  clbits : GoodTargets source.numClbits
    (if p.bringClbits then source.numClbits else c.numClbits) p.clbits
  names : p.bringClbits → ∀ r ∈ source.content.clbits.registers,
    ¬ c.content.identifiers.hasName r.name
  parameters : c.content.table.check source.parameters = .ok ()

theorem place_eq_ok (hopen : c.blocks = []) (h : c.place source o = .ok p) :
    c.Placed source o p := by
  have hp := place_eq_ok_iff.1 h
  have hscope : c.inScope = false := by simp [inScope, hopen]
  refine ⟨by simpa [hscope] using hp.brings, targetPositions_eq_ok hp.numQubits hp.qubits,
    targetPositions_eq_ok ?_ hp.clbits, hp.names, hp.parameters⟩
  split
  · exact Nat.le_refl _
  · rename_i hbring
    exact hp.numClbits (Bool.eq_false_iff.2 hbring)

end Circuit

/-! ## Identifiers -/

namespace IdentifierTable

/-- The table after the additions, made one after another. -/
def addedAll (t : IdentifierTable) (additions : List (Identifier × IdentifierKind)) :
    Except CircuitError IdentifierTable :=
  additions.foldlM (fun t e => t.added e.1 e.2) t

theorem addedAll_append_singleton {t u v : IdentifierTable}
    {additions : List (Identifier × IdentifierKind)} {e : Identifier × IdentifierKind}
    (hu : t.addedAll additions = .ok u) (hv : u.added e.1 e.2 = .ok v) :
    t.addedAll (additions ++ [e]) = .ok v := by
  unfold addedAll at hu ⊢
  rw [List.foldlM_append]
  exact Checking.bind_eq_ok_iff.2 ⟨u, hu, Checking.bind_eq_ok_iff.2 ⟨v, hv, rfl⟩⟩

theorem contains_of_added {t u : IdentifierTable} {i j : Identifier} {kind : IdentifierKind}
    (hu : t.added i kind = .ok u) (h : t.contains j ∨ j = i) : u.contains j := by
  obtain ⟨hcheck, rfl⟩ := added_eq_ok_iff.1 hu
  exact (contains_insert_iff (get?_eq_none_of_check hcheck)).2 h

theorem names_of_added {t u : IdentifierTable} {i : Identifier} {kind : IdentifierKind}
    (hu : t.added i kind = .ok u) : u.names = t.names ++ [i.name] := by
  obtain ⟨hcheck, rfl⟩ := added_eq_ok_iff.1 hu
  exact names_insert (get?_eq_none_of_check hcheck)

end IdentifierTable

namespace IdentifierPlan

variable {c source : Circuit} {o : ComposeOptions} {p : Placement} {m : Renaming}

/-- What holds of a plan once the identifiers in `done` have been taken into it. -/
structure Sound (c source : Circuit) (p : Placement) (m : Renaming)
    (done : List (Identifier × IdentifierKind)) (plan : IdentifierPlan) : Prop where
  planned : c.content.identifiers.addedAll plan.additions = .ok plan.planned
  names : plan.planned.names =
    c.content.identifiers.names ++ plan.additions.map fun e => e.1.name
  free : ∀ e ∈ plan.additions, c.content.clbits.register? e.1.name = none ∧
    (p.bringClbits → source.content.clbits.register? e.1.name = none)
  images : ∀ e ∈ done, plan.planned.contains (m.apply e.1)

theorem sound_start : Sound c source p m [] ⟨c.content.identifiers, [], [], []⟩ :=
  ⟨rfl, by simp, fun _ he => absurd he List.not_mem_nil, fun _ he => absurd he List.not_mem_nil⟩

theorem Sound.contains {done : List (Identifier × IdentifierKind)} {plan : IdentifierPlan}
    (h : Sound c source p m done plan) {i : Identifier}
    (hi : c.content.identifiers.contains i) : plan.planned.contains i := by
  have hplanned := h.planned
  generalize c.content.identifiers = t at hplanned hi
  generalize plan.additions = additions at hplanned
  induction additions generalizing t with
  | nil =>
    cases hplanned
    exact hi
  | cons e rest ih =>
    obtain ⟨u, hu, hrest⟩ := Checking.bind_eq_ok_iff.1 hplanned
    exact ih u (IdentifierTable.contains_of_added hu (.inl hi)) hrest

theorem Sound.step {done : List (Identifier × IdentifierKind)} {plan plan' : IdentifierPlan}
    (h : Sound c source p m done plan) (hopen : c.blocks = []) {e : Identifier × IdentifierKind}
    (hstep : plan.step c source o p (m.apply e.1) e.2 = .ok plan') :
    Sound c source p m (done ++ [e]) plan' := by
  have hscope : c.inScope = false := by simp [Circuit.inScope, hopen]
  have himages : ∀ {planned : IdentifierTable},
      (∀ i, plan.planned.contains i ∨ i = m.apply e.1 → planned.contains i) →
      ∀ e' ∈ done ++ [e], planned.contains (m.apply e'.1) := by
    intro planned hall e' he'
    rcases List.mem_append.1 he' with he' | he'
    · exact hall _ (.inl (h.images e' he'))
    · rw [List.mem_singleton.1 he']
      exact hall _ (.inr rfl)
  -- either way the image of the new entry is in the table that comes out
  simp only [IdentifierPlan.step, hscope, Bool.false_eq_true, if_false] at hstep
  split at hstep
  · -- An inlined capture is there already.
    split at hstep
    · rename_i hthere
      cases hstep
      refine ⟨h.planned, h.names, h.free, himages fun i hi => ?_⟩
      rcases hi with hi | rfl
      · exact hi
      · exact h.contains hthere
    · cases hstep
  · split at hstep
    · cases hstep
    · rename_i hfree
      obtain ⟨planned, hplanned, hstep⟩ := Checking.bind_eq_ok_iff.1 hstep
      cases hstep
      refine ⟨
        IdentifierTable.addedAll_append_singleton (e := (m.apply e.1, e.2)) h.planned hplanned,
        ?_, fun e' he' => ?_, himages fun i hi => IdentifierTable.contains_of_added hplanned hi⟩
      · show planned.names = _
        rw [IdentifierTable.names_of_added hplanned, h.names, List.map_append, List.append_assoc]
        rfl
      · rcases List.mem_append.1 he' with he' | he'
        · exact h.free e' he'
        · rw [List.mem_singleton.1 he']
          simp only [Bool.or_eq_true, Bool.and_eq_true, not_or, not_and, Bool.not_eq_true,
            Option.isSome_eq_false_iff, Option.isNone_iff_eq_none] at hfree
          exact hfree

/-- What holds of the empty plan, and every step keeps, holds of the plan for all identifiers of the
source; the list is of those that have been taken in. -/
theorem make_keeps {P : List (Identifier × IdentifierKind) → IdentifierPlan → Prop}
    (hstart : P [] ⟨c.content.identifiers, [], [], []⟩)
    (hstep : ∀ done plan e plan', P done plan →
      plan.step c source o p (m.apply e.1) e.2 = .ok plan' → P (done ++ [e]) plan')
    {plan : IdentifierPlan} (h : make c source o p m = .ok plan) :
    P source.content.identifiers.toList plan := by
  have hall : ∀ (l done : List (Identifier × IdentifierKind)) (start : IdentifierPlan),
      P done start →
      l.foldlM (fun plan e => plan.step c source o p (m.apply e.1) e.2) start = .ok plan →
      P (done ++ l) plan := by
    intro l
    induction l with
    | nil =>
      intro done start hstart hfold
      cases hfold
      rwa [List.append_nil]
    | cons e rest ih =>
      intro done start hstart hfold
      obtain ⟨next, hnext, hfold⟩ := Checking.bind_eq_ok_iff.1 hfold
      have hnow := ih (done ++ [e]) next (hstep done start e next hstart hnext) hfold
      rwa [List.append_assoc] at hnow
  exact hall _ [] _ hstart h

/-- The plan for all identifiers of the source. -/
theorem make_eq_ok (hopen : c.blocks = []) {plan : IdentifierPlan}
    (h : make c source o p m = .ok plan) :
    Sound c source p m source.content.identifiers.toList plan :=
  make_keeps sound_start (fun _ _ _ _ hs hstep => hs.step hopen hstep) h

end IdentifierPlan

theorem IdentifierRemap.sort_resolve {r : IdentifierRemap} {i j : Identifier}
    {identity : Identity} (h : r.resolve i identity = .ok j) : j.sort = i.sort := by
  unfold resolve at h
  split at h
  · cases h
    rfl
  · split at h <;> cases h
    · rfl
    · cases i <;> rfl
  · split at h
    · cases h
    · rename_i hsort
      split at h <;> cases h
      exact Decidable.not_not.1 hsort

/-- A remap sends variables to variables and stretches to stretches. -/
theorem IdentifierRemap.keepsSorts_images {r : IdentifierRemap} {stamp : Nat}
    {identifiers : List Identifier} {m : Renaming} (h : r.images stamp identifiers = .ok m) :
    LeafMap.KeepsSorts m := by
  intro i j hij
  obtain ⟨⟨i', serial⟩, -, hone⟩ :=
    Checking.exists_left (Checking.mapM_eq_ok_iff.1 h) (Assoc.mem_of_find? hij)
  obtain ⟨image, himage, heq⟩ := Checking.bind_eq_ok_iff.1 hone
  cases heq
  exact sort_resolve himage

/-! ## The splice -/

/-- The circuit whose clbits and registers the records will stand among. -/
def Placement.host (p : Placement) (c source : Circuit) : Circuit :=
  if p.bringClbits then source else c

namespace Placement

variable {p : Placement} {c source : Circuit}

theorem host_of_brings (h : p.bringClbits = true) : p.host c source = source := if_pos h

theorem host_of_not_brings (h : p.bringClbits = false) : p.host c source = c :=
  if_neg (Bool.eq_false_iff.1 h)

theorem bits_host : (p.host c source).content.clbits.bits =
    if p.bringClbits then source.content.clbits.bits else c.content.clbits.bits := by
  unfold host
  split <;> rfl

end Placement

/-- What the records may name once the splice is made. -/
def Splice.surroundings (s : Splice) (host : Circuit) : Surroundings where
  identifiers i := s.identifiers.planned.contains i
  clbits bit := bit ∈ host.content.clbits.bits
  registers r := r ∈ host.content.clbits.registers ++ s.aliases

/-- What holds of a splice that was worked out: an identifier plan for all identifiers
of the source, free aliases over bits that there will be, and the records as they
arrive among them. -/
structure Splice.Sound (c source : Circuit) (p : Placement) (s : Splice) : Prop where
  placement : s.placement = p
  plan : ∃ m, IdentifierPlan.Sound c source p m source.content.identifiers.toList s.identifiers
  names : (s.aliases.map (·.name)).Nodup
  fresh : ∀ r ∈ s.aliases, r.name ∉ s.identifiers.planned.names ∧
    r.name ∉ (p.host c source).content.clbits.registers.map (·.name)
  bits : ∀ r ∈ s.aliases, ∀ bit ∈ r.bits, bit ∈ (p.host c source).content.clbits.bits
  idle : s.records = [] → s.aliases = []
  records : List.Forall₂
    (fun i i' => LeafMap.ArrivesAt p i i' (s.surroundings (p.host c source)))
    source.content.records s.records

namespace Circuit

variable {c source : Circuit} {o : ComposeOptions} {p : Placement} {s : Splice}

/-- What stays the same while the records of a splice are moved. -/
def spliceMap (c source : Circuit) (p : Placement) (images : Renaming) : LeafMap where
  identifiers := images
  clbits := source.content.clbits.bits.zip
    (if p.bringClbits then source.content.clbits.bits
      else p.clbits.filterMap c.content.clbits.get?)
  registers := (p.host c source).content.clbits.registers

/-- Clbits go to clbits that there will be. -/
theorem mem_host_of_spliceMap {images : Renaming} {bit : Clbit}
    (h : bit ∈ (c.spliceMap source p images).clbits.map (·.2)) :
    bit ∈ (p.host c source).content.clbits.bits := by
  obtain ⟨⟨own, target⟩, hmem, rfl⟩ := List.mem_map.1 h
  have htarget := (List.of_mem_zip hmem).2
  unfold Placement.host
  split at htarget
  · rwa [if_pos ‹_›]
  · rw [if_neg ‹_›]
    obtain ⟨position, -, hposition⟩ := List.mem_filterMap.1 htarget
    exact List.mem_of_getElem? hposition

/-- A splice has been worked out in three steps: images for the identifiers, the plan for them,
and the records. No aliases were there when the last step began. -/
theorem splice_worked (h : c.splice source o p = .ok s) : s.placement = p ∧ ∃ images choice,
    o.remap.images o.stamp (source.content.identifiers.toList.map (·.1)) = .ok images ∧
    IdentifierPlan.make c source o p images = .ok s.identifiers ∧
    (c.spliceMap source p images).records p source.content.records
      ⟨[], [], .ofStem BitKind.classical.letter,
        (p.host c source).content.clbits.registers.map (·.name) ++ s.identifiers.planned.names⟩ =
      .ok s.records choice ∧
    s.aliases = choice.aliases := by
  unfold splice at h
  obtain ⟨images, himages, h⟩ := Checking.bind_eq_ok_iff.1 h
  obtain ⟨plan, hplan, h⟩ := Checking.bind_eq_ok_iff.1 h
  simp only at h
  split at h
  · cases h
  · rename_i records choice hrecords
    cases h
    exact ⟨rfl, images, choice, himages, hplan, hrecords, rfl⟩

/-- The converse of `splice_worked`. -/
theorem splice_of_worked {images : Renaming} {plan : IdentifierPlan} {records : List Instruction}
    {choice : RegisterChoice}
    (himages : o.remap.images o.stamp (source.content.identifiers.toList.map (·.1)) = .ok images)
    (hplan : IdentifierPlan.make c source o p images = .ok plan)
    (hrecords : (c.spliceMap source p images).records p source.content.records
      ⟨[], [], .ofStem BitKind.classical.letter,
        (p.host c source).content.clbits.registers.map (·.name) ++ plan.planned.names⟩ =
      .ok records choice) :
    c.splice source o p = .ok ⟨p, plan, choice.aliases, records⟩ := by
  unfold splice
  refine Checking.bind_eq_ok_iff.2 ⟨images, himages, Checking.bind_eq_ok_iff.2 ⟨plan, hplan, ?_⟩⟩
  simp only [spliceMap, Placement.host] at hrecords
  simp only [hrecords]
  rfl

theorem splice_eq_ok {A : Policy} (hopen : c.blocks = []) (hsource : source.content.Built A)
    (h : c.splice source o p = .ok s) : s.Sound c source p := by
  obtain ⟨hplacement, m, choice, himages, hmake, hrecords, haliases⟩ := splice_worked h
  have hplan := IdentifierPlan.make_eq_ok hopen hmake
  obtain ⟨hchosen, -, harrive⟩ := @LeafMap.records_carries _
    ((p.host c source).content.clbits.registers.map (·.name) ++ s.identifiers.planned.names) _
    (fun j => source.content.identifiers.contains j)
    (IdentifierRemap.keepsSorts_images himages) p _ (fun i hi => hsource.ofBuilt hi)
    (fun i hi => (hsource.orderly.fits i hi).reads.identifiers) _ s.records choice
    ⟨by simp, by simp, by simp, by simp, by simp⟩ hrecords
  -- aliases got a name taken neither by a register of the host nor by a planned identifier
  refine ⟨hplacement, ⟨m, hplan⟩, haliases ▸ hchosen.names, fun r hr => ?_,
    fun r hr bit hbit => ?_, ?_, ?_⟩
  · have hfree := hchosen.fresh r (haliases ▸ hr)
    rw [List.mem_append, not_or] at hfree
    exact ⟨hfree.2, hfree.1⟩
  · exact mem_host_of_spliceMap (hchosen.bits r (haliases ▸ hr) bit hbit)
  · intro hnil
    rw [hnil] at harrive hrecords
    rw [List.forall₂_nil_right_iff.1 harrive] at hrecords
    cases hrecords
    exact haliases
  · -- what the records came to read is within the host once the plan and the aliases are in
    have hwithin : ((c.spliceMap source p m).destination
        (fun j => source.content.identifiers.contains j) choice).Within
          (s.surroundings (p.host c source)) := by
      refine ⟨?_, fun bit hbit => mem_host_of_spliceMap hbit, fun r hr => ?_⟩
      · rintro i ⟨j, hj, rfl⟩
        obtain ⟨kind, hmem⟩ := IdentifierTable.mem_toList_of_contains hj
        exact hplan.images (j, kind) hmem
      · show r ∈ _ ++ s.aliases
        rw [haliases]
        exact hr
    exact harrive.imp fun i i' hi => ⟨hi.operation.within hwithin, hi.qubits, hi.clbits⟩

end Circuit

end QuantumCircuit
