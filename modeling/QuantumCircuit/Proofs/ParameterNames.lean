import QuantumCircuit.Proofs.Substitution
import QuantumCircuit.Proofs.Takeover

/-!
# When parameter names resolve

Every call but an assignment keeps the look-up by name exact
(`Content.Named`). An assignment brings its parameters in unchecked against each
other, and lets one take over a name before the old bearer is gone everywhere;
`Content.assign_resolves_iff` says exactly which assignments keep names.

Over all reached circuits: names resolve everywhere exactly when no assignment that
is made, here or in a circuit inside, leaves two parameters with one name or lets a
parameter overtake the one whose name it takes (`Circuit.names_exact_iff`).
-/

namespace QuantumCircuit

namespace Content

variable {c d : Content} {s : Binding Float}

/-! ## Calls other than assignments -/

/-- The index is in step with the records and the phase, and resolves names. -/
structure Named (c : Content) : Prop extends Indexed c where
  resolves : c.table.Resolves

theorem Named.over (h : c.Named) : c.table.Over fun p => c.table.contains p :=
  ⟨h.wellFormed, h.resolves, fun _ hp => hp⟩

theorem Indexed.contains_of_phase (h : c.Indexed) {p : Parameter} (hp : p ∈ c.phase.parameters) :
    c.table.contains p :=
  h.wellFormed.contains_iff.2 ⟨.phase, (h.notes .phase p).2 hp⟩

theorem Indexed.contains_of_record (h : c.Indexed) {i : Instruction} (hi : i ∈ c.records)
    {u : Nat × Parameter} (hu : u ∈ i.operation.freeParameters) : c.table.contains u.2 := by
  obtain ⟨k, hk⟩ := List.getElem?_of_mem hi
  exact h.wellFormed.contains_iff.2 ⟨.record k u.1, (h.notes _ _).2 (mem_freeAt_iff.2 ⟨i, hk, hu⟩)⟩

/-- What is in use is what the phase and the records list. -/
theorem Indexed.contains_iff_listed (h : c.Indexed) {p : Parameter} : c.table.contains p ↔
    p ∈ c.phase.parameters ∨
      ∃ i ∈ c.records, ∃ u ∈ i.operation.freeParameters, u.2 = p := by
  constructor
  · intro hp
    obtain ⟨site, hsite⟩ := h.wellFormed.contains_iff.1 hp
    replace hsite := (h.notes site p).1 hsite
    cases site with
    | phase => exact .inl hsite
    | record k slot =>
      obtain ⟨i, hk, hmem⟩ := mem_freeAt_iff.1 hsite
      exact .inr ⟨i, List.mem_of_getElem? hk, (slot, p), hmem, rfl⟩
  · rintro (hp | ⟨i, hi, u, hu, rfl⟩)
    · exact h.contains_of_phase hp
    · exact h.contains_of_record hi hu

/-- In use after one more record is what was in use before and what the record lists. -/
theorem Indexed.contains_snoc_iff (h : c.Indexed) {i : Instruction}
    {q : Parameter} : (c.snoc i).table.contains q ↔
      c.table.contains q ∨ ∃ v ∈ i.operation.freeParameters, v.2 = q := by
  rw [(h.snoc i).contains_iff_listed, h.contains_iff_listed, or_assoc]
  refine or_congr_right ?_
  simp only [Content.snoc, List.mem_append, List.mem_singleton, or_and_right, exists_or,
    exists_eq_left]

theorem check_table {i : Instruction} (h : c.check i = .ok ()) :
    c.table.check (i.operation.freeParameters.map (·.2)) = .ok () := by
  obtain ⟨-, h⟩ := Checking.seq_eq_ok_iff.1 h
  exact (Checking.seq_eq_ok_iff.1 h).1

namespace Named

theorem snoc (h : c.Named) {i : Instruction} (hi : c.check i = .ok ()) : (c.snoc i).Named := by
  refine ⟨h.toIndexed.snoc i, ?_⟩
  have hapart := h.resolves.apart_of_check (check_table hi)
  have hover : c.table.Over fun p =>
      c.table.contains p ∨ p ∈ i.operation.freeParameters.map (·.2) :=
    ⟨h.wellFormed, h.resolves, fun _ hp => .inl hp⟩
  exact (hover.trackRecord hapart _ fun u hu => .inr (List.mem_map_of_mem hu)).resolves

/-- An index built anew resolves names if all parameters listed are unambiguous. -/
theorem withRecords {S : Parameter → Prop} (hS : ParameterTable.Apart S)
    (hphase : ∀ p ∈ c.phase.parameters, S p) {records : List Instruction}
    (hrecords : ∀ i ∈ records, ∀ u ∈ i.operation.freeParameters, S u.2) :
    (c.withRecords records).Named := by
  refine ⟨Indexed.withRecords c records, ?_⟩
  show (ParameterTable.build _ _).Resolves
  rw [ParameterTable.build_eq_trackFrom]
  refine (((ParameterTable.Over.empty S).trackPhase hS hphase).trackFrom hS 0 ?_).resolves
  intro slots hslots
  obtain ⟨i, hi, rfl⟩ := List.mem_map.1 hslots
  exact hrecords i hi

theorem front (h : c.Named) {front : List Instruction}
    (hbatch : c.table.check (front.flatMap fun i => i.operation.freeParameters.map (·.2)) =
      .ok ()) : (c.withRecords (front ++ c.records)).Named := by
  refine withRecords (h.resolves.apart_of_check hbatch)
    (fun p hp => .inl (h.contains_of_phase hp)) fun i hi u hu => ?_
  rcases List.mem_append.1 hi with hi | hi
  · exact .inr (List.mem_flatMap.2 ⟨i, hi, List.mem_map_of_mem hu⟩)
  · exact .inl (h.contains_of_record hi hu)

theorem pop (h : c.Named) {i : Instruction} (hd : c.pop? = some (i, d)) : d.Named := by
  refine ⟨h.toIndexed.pop hd, ?_⟩
  obtain ⟨-, rfl⟩ := pop?_eq_some_iff.1 hd
  exact (h.over.untrackRecord _ _).resolves

theorem clear (h : c.Named) : c.clear.Named :=
  withRecords h.resolves.apart (fun _ hp => h.contains_of_phase hp)
    fun _ hi => absurd hi List.not_mem_nil

theorem copyEmpty (h : c.Named) (mode : IdentifierMode) : (c.copyEmpty mode).Named :=
  ⟨Indexed.copyEmpty c mode, ((ParameterTable.Over.empty _).trackPhase h.resolves.apart
    fun _ hp => h.contains_of_phase hp).resolves⟩

theorem setPhase (h : c.Named) {phase : Angle} (hd : (Content.setPhase phase).Leaves c d) :
    d.Named := by
  refine ⟨h.toIndexed.setPhase hd, ?_⟩
  have hwithout := h.over.untrackPhase c.phase.parameters
  have hrefused : (c.table.untrackPhase c.phase.parameters).trackPhase c.phase.parameters
      |>.Resolves :=
    (hwithout.trackPhase h.resolves.apart fun p hp => h.contains_of_phase hp).resolves
  rcases hd with ⟨u, hd⟩ | ⟨e, hd⟩ <;> simp only [Content.setPhase] at hd <;> split at hd <;>
    cases hd
  · rename_i hcheck
    have hapart := hwithout.resolves.apart_of_check hcheck
    have hover : ParameterTable.Over (fun p =>
        (c.table.untrackPhase c.phase.parameters).contains p ∨
          p ∈ phase.normalizedPhase.parameters) (c.table.untrackPhase c.phase.parameters) :=
      ⟨hwithout.wellFormed, hwithout.resolves, fun _ hp => .inl hp⟩
    exact (hover.trackPhase hapart fun p hp => .inr hp).resolves
  · exact hrefused

/-- Only the phase, the records and the index matter. -/
theorem congr (h : c.Named) (hsame : c.SameUses d) : d.Named :=
  ⟨h.toIndexed.congr hsame, hsame.table ▸ h.resolves⟩

end Named

/-! ## Assignments -/

/-- The places that an assignment goes through. -/
def stages (c d : Content) (s : Binding Float) : List ParameterTable.Stage :=
  (c.affectedBy s).map (fun (k : Nat) => ⟨.some k, ParameterTable.recordUses k (freeAt c.records k),
    ParameterTable.recordUses k (freeAt d.records k)⟩) ++
  if (c.table.affected (Assoc.keys s)).2 then
    [⟨⊤, ParameterTable.phaseUses c.phase.parameters, ParameterTable.phaseUses d.phase.parameters⟩]
  else []

theorem pairwise_affectedBy (c : Content) (s : Binding Float) :
    (c.affectedBy s).Pairwise (· < ·) := by
  unfold affectedBy ParameterTable.affected
  simp only
  generalize List.filterMap _ _ = indices
  have hnodup : (Sorting.sort (fun a b : Nat => decide (a ≤ b)) (Distinct.ofList indices)).Nodup :=
    (Sorting.perm_sort _ _).nodup_iff.2 (Distinct.nodup_union indices .nil)
  refine ((Sorting.pairwise_sort ?_ ?_ _).and hnodup).imp ?_
  · exact fun a b => by simpa using Nat.le_total a b
  · exact fun a b c hab hbc => by simpa using Nat.le_trans (by simpa using hab) (by simpa using hbc)
  · rintro a b ⟨hle, hne⟩
    exact Nat.lt_of_le_of_ne (by simpa using hle) hne

theorem reassigned_table {assigned : List Instruction} :
    (c.reassigned s assigned).table =
      (c.stages (c.reassigned s assigned) s).foldl ParameterTable.stage c.table := by
  have hretrack : c.table.retrack (c.affectedBy s) c.records assigned =
      ((c.affectedBy s).map fun (k : Nat) =>
        (⟨.some k, ParameterTable.recordUses k (freeAt c.records k),
          ParameterTable.recordUses k (freeAt assigned k)⟩ : ParameterTable.Stage)).foldl
        ParameterTable.stage c.table := by
    rw [List.foldl_map]
    simp only [ParameterTable.retrack, ParameterTable.stage, ParameterTable.recordUses,
      List.foldl_map, ParameterTable.untrackRecord, ParameterTable.trackRecord]
    rfl
  unfold stages
  rw [List.foldl_append, reassigned_records, ← hretrack]
  unfold reassigned
  split
  · simp only [List.foldl_cons, List.foldl_nil, ParameterTable.stage, ParameterTable.phaseUses,
      List.foldl_map, ParameterTable.untrackPhase, ParameterTable.trackPhase]
  · rfl

theorem Indexed.mem_recordUses_iff (h : c.Indexed) (k : Nat) (site : ParameterUse)
    (p : Parameter) :
    (site, p) ∈ ParameterTable.recordUses k (freeAt c.records k) ↔
      site.place = .some k ∧ c.table.Notes site p := by
  rw [ParameterTable.mem_recordUses_iff, h.notes]
  cases site with
  | phase => simp [ParameterUse.place]
  | record m slot =>
    simp only [ParameterUse.record.injEq, ParameterUse.place, WithTop.coe_inj, ListsAt]
    constructor
    · rintro ⟨n, ⟨rfl, rfl⟩, hmem⟩
      exact ⟨rfl, hmem⟩
    · rintro ⟨rfl, hmem⟩
      exact ⟨slot, ⟨rfl, rfl⟩, hmem⟩

theorem Indexed.mem_phaseUses_iff (h : c.Indexed) (site : ParameterUse) (p : Parameter) :
    (site, p) ∈ ParameterTable.phaseUses c.phase.parameters ↔
      site.place = ⊤ ∧ c.table.Notes site p := by
  rw [ParameterTable.mem_phaseUses_iff, h.notes]
  cases site <;> simp [ParameterUse.place, ListsAt]

theorem between_stages (hc : c.Indexed) (hd : d.Indexed) {g : ParameterTable.Stage}
    (hg : g ∈ c.stages d s) : g.Between c.table.Notes d.table.Notes := by
  rcases List.mem_append.1 hg with hg | hg
  · obtain ⟨k, -, rfl⟩ := List.mem_map.1 hg
    exact ⟨hc.mem_recordUses_iff k, hd.mem_recordUses_iff k⟩
  · split at hg
    · rw [List.mem_singleton.1 hg]
      exact ⟨hc.mem_phaseUses_iff, hd.mem_phaseUses_iff⟩
    · exact absurd hg List.not_mem_nil

theorem pairwise_stages (c d : Content) (s : Binding Float) :
    (c.stages d s).Pairwise fun g g' => g.place < g'.place := by
  unfold stages
  rw [List.pairwise_append]
  refine ⟨?_, ?_, fun g hg g' hg' => ?_⟩
  · rw [List.pairwise_map]
    exact (pairwise_affectedBy c s).imp fun hlt => WithTop.coe_lt_coe.2 hlt
  · split <;> simp
  · obtain ⟨k, -, rfl⟩ := List.mem_map.1 hg
    split at hg'
    · rw [List.mem_singleton.1 hg']
      exact WithTop.coe_lt_top k
    · exact absurd hg' List.not_mem_nil

/-- An assignment is a pass from the sites of `c` to those of `d`. -/
theorem Named.underway (h : c.Named) (hd : c.assign s = .ok d) :
    ParameterTable.Underway c.table.Notes d.table.Notes (fun _ => True) d.table := by
  have hindexed := h.toIndexed.assign hd
  obtain ⟨-, assigned, hassigned, rfl⟩ := assign_eq_ok_iff.1 hd
  -- the sites of a name all hold one parameter, as long as the pass has not been there
  have hapart : ParameterTable.NamesApart c.table.Notes := fun p q a b ha hb =>
    h.resolves.eq_of_name_eq (h.wellFormed.contains_iff.2 ⟨a, ha⟩)
      (h.wellFormed.contains_iff.2 ⟨b, hb⟩)
  have hpass := (ParameterTable.Underway.start h.wellFormed h.resolves
    (c.reassigned s assigned).table.Notes).pass hapart
    (fun g hg => between_stages h.toIndexed hindexed hg) (pairwise_stages c _ s)
    (fun _ _ _ hfalse => hfalse.elim) fun site p _ hplace => ?_
  · rwa [← reassigned_table] at hpass
  · -- Where the assignment does not go, nothing changes.
    rw [h.notes, hindexed.notes]
    cases site with
    | phase =>
      have hphase : (c.table.affected (Assoc.keys s)).2 = false := by
        by_contra htrue
        refine hplace ⟨⊤, ParameterTable.phaseUses c.phase.parameters, ParameterTable.phaseUses
          (c.reassigned s assigned).phase.parameters⟩ (List.mem_append_right _ ?_) rfl
        rw [if_pos (by simpa using htrue)]
        exact List.mem_singleton.2 rfl
      simp [ListsAt, reassigned, hphase]
    | record k slot =>
      have hk : k ∉ c.affectedBy s := fun hk =>
        hplace _ (List.mem_append_left _ (List.mem_map_of_mem hk)) rfl
      simp only [ListsAt, reassigned_records, freeAt_assigned hassigned hk]

/-- An assignment keeps names exactly when no two parameters end up with one name and
none overtakes the one whose name it takes. -/
theorem assign_resolves_iff (h : c.Named) (hd : c.assign s = .ok d) :
    d.table.Resolves ↔ ParameterTable.NamesApart d.table.Notes ∧
      ∀ p q, ¬ ParameterTable.Overtakes c.table.Notes d.table.Notes p q :=
  (h.underway hd).resolves_iff

/-- That the assignment, if it is made, keeps names. -/
def KeepsNames (c : Content) (s : Binding Float) : Prop :=
  ∀ d, c.assign s = .ok d → ParameterTable.NamesApart d.table.Notes ∧
    ∀ p q, ¬ ParameterTable.Overtakes c.table.Notes d.table.Notes p q

theorem named_invariant : Invariant KeepsNames Named where
  empty := ⟨indexed_invariant.empty, ParameterTable.resolves_empty⟩
  addBit bit c d hc hd := hc.congr (addBit_sameUses hd)
  addRegister r c d hc hd := hc.congr (addRegister_sameUses hd)
  addIdentifier i kind c d hc hd := hc.congr (addIdentifier_sameUses hd)
  snoc c i hc hi := hc.snoc hi
  front c front hc _ hbatch := hc.front hbatch
  pop c i d hc hd := hc.pop hd
  clear c hc := hc.clear
  setPhase phase c d hc hd := hc.setPhase hd
  setDuration t c hc := hc.congr ⟨rfl, rfl, rfl⟩
  listParameters c d hc hd := by
    obtain rfl := listParameters_leaves_iff.1 hd
    exact ⟨⟨hc.wellFormed.remembered, hc.notes⟩, hc.resolves⟩
  copyEmpty c mode hc := hc.copyEmpty mode
  assign c s d hc hs hd := ⟨hc.toIndexed.assign hd, (assign_resolves_iff hc hd).2 (hs d hd)⟩

theorem assign_leaves (hd : c.assign s = .ok d) : (Call.assign s false).run.Leaves c d := by
  refine .of_ok (a := ()) ?_
  show assignParameters s false c = _
  have hnone : (Assoc.keys s).find? (fun p => false && !c.table.contains p) = none := by simp
  rw [assignParameters, Edit.update_eq_ok_iff, hnone]
  exact hd

/-- An assignment that is made makes every assignment to a circuit inside, and what
that gives is inside the result. -/
theorem Assigns.made {A : Policy} {e : Content} {u : Binding Float} (h : Assigns c s e u)
    (hc : c.Built A) (hd : c.assign s = .ok d) (hbuilt : d.Built A) :
    e.Built A ∧ ∃ e', e.assign u = .ok e' ∧ e'.Built A := by
  induction h generalizing d with
  | here c s => exact ⟨hc, d, hd, hbuilt⟩
  | @inside c s k i b t e u hk hi hb _ ih =>
    obtain ⟨-, assigned, hassigned, rfl⟩ := assign_eq_ok_iff.1 hd
    obtain ⟨hlen, hat⟩ := Instruction.assignList_eq_ok hassigned
    have hlt : k < assigned.length := hlen ▸ (List.getElem?_eq_some_iff.1 hi).1
    obtain ⟨op, heq, ⟨-, hop⟩ | ⟨hnot, -⟩⟩ := hat k _ _ hi (List.getElem?_eq_getElem hlt)
    · obtain ⟨b', hb', hassign⟩ := Checking.exists_right (Operation.assign_circuits hop) hb
      have hmem : b ∈ c.circuits :=
        mem_circuits_iff.2 ⟨i, List.mem_of_getElem? hi, Operation.mem_circuits_of_innerBindings hb⟩
      have hmem' : b' ∈ (c.reassigned s assigned).circuits := by
        refine mem_circuits_iff.2 ⟨assigned[k], ?_, by rw [heq]; exact hb'⟩
        rw [reassigned_records]
        exact List.getElem_mem hlt
      exact ih (hc.inside hmem) (Circuit.assign_eq_ok_iff.1 hassign).1 (hbuilt.inside hmem')
    · exact absurd (by simpa using hk) hnot

/-! ## All reached circuits -/

/-- No two parameters in use share a name, and a look-up by name gives exactly the
parameter in use that has it. -/
def NamesExact (c : Content) : Prop :=
  (∀ p q, c.table.contains p → c.table.contains q → p.name = q.name → p = q) ∧
    ∀ n p, c.table.named? n = some p ↔ c.table.contains p ∧ p.name = n

theorem namesExact_iff : c.NamesExact ↔ c.table.Resolves :=
  ⟨fun h => h.2, fun h => ⟨h.apart, h⟩⟩

/-- The assignment hands names on cleanly: no two parameters that occur after it share
a name, and one that takes the name of another comes to occur nowhere before the last
site of the other, records counting in order and the phase after them. -/
def HandsNamesOn (c : Content) (s : Binding Float) : Prop :=
  (∀ p q, FreeAfter p s c → FreeAfter q s c → p.name = q.name → p = q) ∧
    ∀ p q a b, p ≠ q → p.name = q.name → c.OccursAt q a → c.OccursAfter s p b → a.place ≤ b.place

theorem handsNamesOn_iff (hc : Everywhere Indexed c) (hassign : c.assign s = .ok d)
    (hd : Everywhere Indexed d) :
    c.HandsNamesOn s ↔ ParameterTable.NamesApart d.table.Notes ∧
      ∀ p q, ¬ ParameterTable.Overtakes c.table.Notes d.table.Notes p q := by
  have hafter : ∀ p site, c.OccursAfter s p site ↔ d.table.Notes site p := fun p site => by
    rw [hd.notes_iff_occursAt, hc.occursAt_assign_iff hassign]
  have hfree : ∀ p, FreeAfter p s c ↔ ∃ site, d.table.Notes site p := fun p => by
    simp only [freeAfter_iff_occursAfter, hafter]
  unfold HandsNamesOn ParameterTable.NamesApart ParameterTable.Overtakes
  simp only [hfree, hafter, ← hc.notes_iff_occursAt]
  constructor
  · rintro ⟨hunique, hturn⟩
    refine ⟨fun p q a b ha hb => hunique p q ⟨a, ha⟩ ⟨b, hb⟩, ?_⟩
    rintro p q ⟨hne, hname, a, b, ha, hb, hlt⟩
    exact absurd (hturn p q a b hne hname ha hb) (not_le.2 hlt)
  · rintro ⟨hunique, hnone⟩
    refine ⟨fun p q ⟨a, ha⟩ ⟨b, hb⟩ => hunique p q a b ha hb, ?_⟩
    intro p q a b hne hname ha hb
    by_contra hlt
    exact hnone p q ⟨hne, hname, a, b, ha, hb, not_le.1 hlt⟩

end Content

/-- Parameter names are unique and resolvable on all circuits that are reached under a
policy exactly when every assignment that is made under it, and every assignment that
it makes to a circuit inside, hands names on cleanly. All other calls keep names. -/
theorem Circuit.names_exact_iff (A : Policy) :
    (∀ c : Circuit, c.Reachable A → c.content.NamesExact) ↔
      ∀ (c : Circuit) (s : Binding Float), c.Reachable A → A c.content s →
        (∃ d, c.content.assign s = .ok d) →
        ∀ e t, Content.Assigns c.content s e t → e.HandsNamesOn t := by
  constructor
  · rintro hexact c s hc hs ⟨d, hd⟩ e t hassigns
    have hreach : Circuit.Reachable A { c with content := d } := by
      refine .call (.store (.assign s false)) hc hs (fun e he => ?_) ?_
      · obtain ⟨i, hi, -⟩ := List.mem_flatMap.1 he
        exact absurd hi List.not_mem_nil
      · exact Edit.leaves_within_iff.2 ⟨d, Content.assign_leaves hd, rfl⟩
    obtain ⟨he, e', he', hbuilt⟩ := hassigns.made hc.built hd hreach.built
    have heverywhere := he.everywhere_any Content.indexed_invariant
    have hnamed : e.Named :=
      ⟨heverywhere.here, Content.namesExact_iff.1 (hexact ⟨"", e, []⟩ (.ofStore "" he))⟩
    rw [Content.handsNamesOn_iff heverywhere he'
      (hbuilt.everywhere_any Content.indexed_invariant), ← Content.assign_resolves_iff hnamed he']
    exact Content.namesExact_iff.1 (hexact ⟨"", e', []⟩ (.ofStore "" hbuilt))
  · intro hclean c hc
    refine Content.namesExact_iff.2 (hc.built.everywhere Content.named_invariant ?_).here.resolves
    intro c s d hc hs hd e t hassigns e' he'
    have hbuilt : d.Built A := .call (.assign s false) hc hs
      (fun i hi => absurd hi List.not_mem_nil) (Content.assign_leaves hd)
    obtain ⟨he, e₁, he₁, hbuilt'⟩ := hassigns.made hc hd hbuilt
    cases he₁.symm.trans he'
    rw [← Content.handsNamesOn_iff (he.everywhere_any Content.indexed_invariant) he'
      (hbuilt'.everywhere_any Content.indexed_invariant)]
    exact hclean ⟨"", c, []⟩ s (.ofStore "" hc) hs ⟨d, hd⟩ e t hassigns

/-- Two rotations by `a` and `b`, with `a` and `b` replaced by two parameters that are
both called `x`. -/
def twoOfOneName : Circuit :=
  let a : Parameter := ⟨"a", ⟨0, 0⟩, none⟩
  let b : Parameter := ⟨"b", ⟨0, 1⟩, none⟩
  let rotation (p : Parameter) := Instruction.make (.gate (.rotation .rz (.sym p))) [0] []
  ⟨"c", Content.empty.after [.addBit .quantum (.loose .quantum ⟨2, 0⟩), .push (rotation a),
    .push (rotation b),
    .assign [(a, .sym ⟨"x", ⟨1, 0⟩, none⟩), (b, .sym ⟨"x", ⟨1, 1⟩, none⟩)] true], []⟩

/-- With all assignments allowed, names are not unique on every reached circuit. -/
theorem Circuit.names_not_always_exact :
    ¬ ∀ c : Circuit, c.Reachable .any → c.content.NamesExact := by
  intro hexact
  have hreach : twoOfOneName.Reachable .any := by
    refine .ofStore "c" (Content.Built.empty.after fun k hk i hi => ?_)
    simp only [List.mem_cons, List.not_mem_nil, or_false] at hk
    rcases hk with rfl | rfl | rfl | rfl
    · exact absurd hi List.not_mem_nil
    · rw [List.mem_singleton.1 hi]
      exact fun e he => absurd he List.not_mem_nil
    · rw [List.mem_singleton.1 hi]
      exact fun e he => absurd he List.not_mem_nil
    · exact absurd hi List.not_mem_nil
  have heq := (hexact twoOfOneName hreach).1 ⟨"x", ⟨1, 0⟩, none⟩ ⟨"x", ⟨1, 1⟩, none⟩
    (by decide +kernel) (by decide +kernel) rfl
  exact absurd heq (by decide)

end QuantumCircuit
