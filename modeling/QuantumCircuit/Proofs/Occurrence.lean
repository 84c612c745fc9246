import QuantumCircuit.Proofs.Reach
import QuantumCircuit.Proofs.Tracking

/-!
# Where parameters occur, and what the index says

`Content.OccursAt p c site` is read off the phase and the records alone: through
the bodies of control flow at any depth, except those whose loop binds the
parameter. The index of a content is exact when it notes just these sites.

The step from one record to the index of its bodies is made first: a content is
`Indexed` when its index agrees with the free parameters that its operations
list, which for control flow come from the indices of the bodies. Every call
keeps this (`Content.indexed_invariant`), so it holds at every depth, and by
induction over the depth the index agrees with the occurrences
(`Content.Everywhere.notes_iff_occursAt`).
-/

namespace QuantumCircuit

mutual

/-- That `p` is free in the operation, at the slot: the position of the
expression, or of the body. -/
inductive Operation.FreeAt (p : Parameter) : Operation → Nat → Prop
  | param {op : Operation} {slot : Nat} {e : Angle} :
      op.params[slot]? = some e → p ∈ e.symbols → Operation.FreeAt p op slot
  | body {flow : ControlFlow} {slot : Nat} {b : Circuit} :
      flow.bodies[slot]? = some b → flow.loopParameter? ≠ some p → Content.Free p b.content →
      Operation.FreeAt p (.control flow) slot

/-- That `p` is free in the content: in the phase, or in a record. -/
inductive Content.Free (p : Parameter) : Content → Prop
  | phase {c : Content} : p ∈ c.phase.symbols → Content.Free p c
  | record {c : Content} {k slot : Nat} {i : Instruction} :
      c.records[k]? = some i → Operation.FreeAt p i.operation slot → Content.Free p c

end

namespace Content

/-- That `p` occurs at the site. -/
def OccursAt (p : Parameter) (c : Content) : ParameterUse → Prop
  | .phase => p ∈ c.phase.symbols
  | .record k slot => ∃ i, c.records[k]? = some i ∧ i.operation.FreeAt p slot

theorem free_iff_occursAt {p : Parameter} {c : Content} : Free p c ↔ ∃ site, c.OccursAt p site := by
  constructor
  · rintro (h | ⟨hk, h⟩)
    · exact ⟨.phase, h⟩
    · exact ⟨.record _ _, _, hk, h⟩
  · rintro ⟨site, h⟩
    cases site with
    | phase => exact .phase h
    | record k slot =>
      obtain ⟨i, hk, h⟩ := h
      exact .record hk h

end Content

theorem ParamExpr.mem_parameters_iff {R : Type} {p : Parameter} {e : ParamExpr R} :
    p ∈ e.parameters ↔ p ∈ e.symbols := by
  simp [parameters, Distinct.ofList, Distinct.mem_union]

/-- What an operation lists as free: parameters of its expressions, or those in the
index of a body that its loop does not bind. -/
theorem Operation.mem_freeParameters_iff {op : Operation} {slot : Nat} {p : Parameter} :
    (slot, p) ∈ op.freeParameters ↔
      (∃ e, op.params[slot]? = some e ∧ p ∈ e.symbols) ∨
      ∃ flow b, op = .control flow ∧ flow.bodies[slot]? = some b ∧
        flow.loopParameter? ≠ some p ∧ p ∈ b.parameters := by
  have hparams : ∀ es : List Angle,
      ((slot, p) ∈ es.zipIdx.flatMap fun u => u.1.parameters.map fun p => (u.2, p)) ↔
        ∃ e, es[slot]? = some e ∧ p ∈ e.symbols := by
    intro es
    simp only [List.mem_flatMap, List.mem_map, Prod.mk.injEq, Prod.exists,
      List.mem_zipIdx_iff_getElem?]
    constructor
    · rintro ⟨e, n, hn, q, hq, rfl, rfl⟩
      exact ⟨e, hn, ParamExpr.mem_parameters_iff.1 hq⟩
    · rintro ⟨e, hn, hq⟩
      exact ⟨e, slot, hn, p, ParamExpr.mem_parameters_iff.2 hq, rfl, rfl⟩
  -- control flow has no expressions of its own, and nothing else has bodies
  cases op with
  | control flow =>
    simp only [freeParameters, params, List.mem_flatMap, List.mem_map, List.mem_filter,
      Prod.mk.injEq, Prod.exists, List.mem_zipIdx_iff_getElem?, bne_iff_ne, List.getElem?_nil,
      reduceCtorEq, false_and, exists_false, false_or, Operation.control.injEq]
    constructor
    · rintro ⟨b, n, hn, q, ⟨hq, hne⟩, rfl, rfl⟩
      exact ⟨flow, b, rfl, hn, hne, hq⟩
    · rintro ⟨_, b, rfl, hn, hne, hq⟩
      exact ⟨b, slot, hn, p, ⟨hq, hne⟩, rfl, rfl⟩
  | gate g | custom o | measure | reset | barrier w | delay d | store s =>
    simp only [reduceCtorEq, false_and, exists_false, or_false]
    exact hparams _

namespace Content

/-! ## The index against the free parameters of the operations -/

/-- The free parameters of the record at `k`, none if there is no such record. -/
def freeAt (records : List Instruction) (k : Nat) : List (Nat × Parameter) :=
  (records[k]?.map (·.operation.freeParameters)).getD []

theorem mem_freeAt_iff {records : List Instruction} {k : Nat} {u : Nat × Parameter} :
    u ∈ freeAt records k ↔ ∃ i, records[k]? = some i ∧ u ∈ i.operation.freeParameters := by
  unfold freeAt
  cases records[k]? <;> simp

/-- That the phase or the operation at the site lists `p` as free. -/
def ListsAt (p : Parameter) (c : Content) : ParameterUse → Prop
  | .phase => p ∈ c.phase.parameters
  | .record k slot => (slot, p) ∈ freeAt c.records k

/-- The index is well formed and notes what the phase and the operations list. -/
structure Indexed (c : Content) : Prop where
  wellFormed : c.table.WellFormed
  notes : ∀ site p, c.table.Notes site p ↔ c.ListsAt p site

namespace Indexed

variable {c d : Content}

/-- Only the phase, the records and the index matter. -/
theorem congr (h : c.Indexed) (hsame : c.SameUses d) : d.Indexed := by
  refine ⟨hsame.table ▸ h.wellFormed, fun site p => ?_⟩
  rw [hsame.table, h.notes]
  cases site <;> simp [ListsAt, hsame.phase, hsame.records]

theorem snoc (h : c.Indexed) (i : Instruction) : (c.snoc i).Indexed := by
  refine ⟨h.wellFormed.trackRecord, fun site p => ?_⟩
  show (c.table.trackRecord _ _).Notes site p ↔ _
  rw [ParameterTable.notes_trackRecord_iff, h.notes]
  cases site with
  | phase => simp [ListsAt, Content.snoc]
  | record k slot =>
    simp only [ListsAt, ParameterTable.mem_recordUses_iff, ParameterUse.record.injEq,
      Content.snoc, freeAt]
    rcases Nat.lt_trichotomy k c.records.length with hlt | heq | hgt
    · rw [List.getElem?_append_left hlt]
      simp [Nat.ne_of_lt hlt]
    · subst heq
      simp
    · rw [List.getElem?_eq_none (by omega), List.getElem?_eq_none (by simp; omega)]
      simp [Nat.ne_of_gt hgt]

theorem withRecords (c : Content) (records : List Instruction) :
    (c.withRecords records).Indexed := by
  refine ⟨?_, fun site p => ?_⟩
  · show (ParameterTable.build _ _).WellFormed
    rw [ParameterTable.build_eq_trackFrom]
    exact ParameterTable.wellFormed_empty.trackPhase.trackFrom 0 _
  · show (ParameterTable.build _ _).Notes site p ↔ _
    rw [ParameterTable.build_eq_trackFrom, ParameterTable.notes_trackFrom_iff,
      ParameterTable.notes_trackPhase_iff]
    cases site with
    | phase => simp [ListsAt, Content.withRecords]
    | record k slot =>
      simp only [ListsAt, Content.withRecords, freeAt, ParameterTable.not_notes_empty,
        ParameterTable.mem_phaseUses_iff, reduceCtorEq, false_and, false_or, List.getElem?_map,
        ParameterTable.mem_recordUses_iff, ParameterUse.record.injEq, Nat.zero_add]
      constructor
      · rintro ⟨n, slots, hn, m, ⟨rfl, rfl⟩, hmem⟩
        simpa [hn] using hmem
      · intro hmem
        cases hk : c.records[k]? <;> cases hk' : records[k]? <;> simp [hk'] at hmem
        all_goals exact ⟨k, _, by simp [hk'], slot, ⟨rfl, rfl⟩, hmem⟩

theorem pop (h : c.Indexed) {i : Instruction} (hd : c.pop? = some (i, d)) : d.Indexed := by
  obtain ⟨hlast, rfl⟩ := pop?_eq_some_iff.1 hd
  refine ⟨h.wellFormed.untrackRecord, fun site p => ?_⟩
  rw [h.wellFormed.notes_untrackRecord_iff, h.notes]
  cases site with
  | phase => simp [ListsAt]
  | record k slot =>
    have hlen : c.records ≠ [] := fun hnil => by simp [hnil] at hlast
    have hpos : 0 < c.records.length := List.length_pos_of_ne_nil hlen
    simp only [ListsAt, ParameterTable.mem_recordUses_iff, ParameterUse.record.injEq, freeAt,
      List.getElem?_dropLast]
    split
    · rename_i hlt
      simp [Nat.ne_of_lt hlt]
    · rename_i hge
      by_cases heq : k = c.records.length - 1
      · subst heq
        rw [List.getLast?_eq_getElem?] at hlast
        simp [hlast]
      · rw [List.getElem?_eq_none (by omega)]
        simp

theorem setPhase {phase : Angle} (h : c.Indexed) (hd : (Content.setPhase phase).Leaves c d) :
    d.Indexed := by
  have hgone : ∀ site p, (c.table.untrackPhase c.phase.parameters).Notes site p ↔
      c.ListsAt p site ∧ site ≠ .phase := by
    intro site p
    rw [h.wellFormed.notes_untrackPhase_iff, h.notes]
    cases site <;> simp [ListsAt]
  have hwf : (c.table.untrackPhase c.phase.parameters).WellFormed := h.wellFormed.untrackPhase
  rcases setPhase_leaves hd with rfl | rfl
  · refine ⟨hwf.trackPhase, fun site p => ?_⟩
    rw [ParameterTable.notes_trackPhase_iff, hgone]
    cases site <;> simp [ListsAt]
  · refine ⟨hwf.trackPhase, fun site p => ?_⟩
    rw [ParameterTable.notes_trackPhase_iff, hgone]
    cases site <;> simp [ListsAt]

theorem copyEmpty (c : Content) (mode : IdentifierMode) : (c.copyEmpty mode).Indexed := by
  refine ⟨ParameterTable.wellFormed_empty.trackPhase, fun site p => ?_⟩
  show (ParameterTable.empty.trackPhase c.phase.parameters).Notes site p ↔ _
  rw [ParameterTable.notes_trackPhase_iff]
  cases site <;> simp [ListsAt, Content.copyEmpty, freeAt]

end Indexed

end Content

/-! ## Assignment -/

namespace ParameterTable

variable {t : ParameterTable} {indices : List Nat} {old new : List Instruction} {p : Parameter}

theorem WellFormed.retrack (h : t.WellFormed) : (t.retrack indices old new).WellFormed :=
  List.foldlRecOn indices _ h fun _ ht _ _ => ht.untrackRecord.trackRecord

theorem WellFormed.notes_retrack_phase_iff (h : t.WellFormed) :
    (t.retrack indices old new).Notes .phase p ↔ t.Notes .phase p := by
  unfold ParameterTable.retrack
  induction indices generalizing t with
  | nil => exact Iff.rfl
  | cons k rest ih =>
    rw [List.foldl_cons, ih h.untrackRecord.trackRecord, notes_trackRecord_iff,
      h.notes_untrackRecord_iff]
    simp

/-- At the records gone through, the old parameters make way for the new ones. A
record gone through twice is no different. -/
theorem WellFormed.notes_retrack_record_iff (h : t.WellFormed) {k slot : Nat} :
    (t.retrack indices old new).Notes (.record k slot) p ↔
      if k ∈ indices then (slot, p) ∈ Content.freeAt new k ∨
        t.Notes (.record k slot) p ∧ (slot, p) ∉ Content.freeAt old k
      else t.Notes (.record k slot) p := by
  unfold ParameterTable.retrack
  induction indices generalizing t with
  | nil => simp
  | cons n rest ih =>
    rw [List.foldl_cons, ih h.untrackRecord.trackRecord, notes_trackRecord_iff,
      h.notes_untrackRecord_iff]
    simp only [mem_recordUses_iff, ParameterUse.record.injEq, List.mem_cons]
    by_cases hkn : k = n
    · subst hkn
      by_cases hmem : k ∈ rest <;> simp [hmem, Content.freeAt] <;> tauto
    · by_cases hmem : k ∈ rest <;> simp [hmem, hkn]

end ParameterTable

namespace Content

variable {c d : Content} {s : Binding Float}

/-- The records that an assignment passes over list what they listed before. -/
theorem freeAt_assigned {assigned : List Instruction} {k : Nat}
    (h : Instruction.assignList s (c.affectedBy s) 0 c.records = .ok assigned)
    (hk : k ∉ c.affectedBy s) : freeAt assigned k = freeAt c.records k := by
  obtain ⟨hlen, hat⟩ := Instruction.assignList_eq_ok h
  unfold freeAt
  rcases Nat.lt_or_ge k c.records.length with hlt | hge
  · have hi := List.getElem?_eq_getElem hlt
    have hi' := List.getElem?_eq_getElem (hlen ▸ hlt)
    obtain ⟨op, heq, ⟨hmem, -⟩ | ⟨-, rfl⟩⟩ := hat k _ _ hi hi'
    · exact absurd (by simpa using hmem) hk
    · rw [hi, hi', heq]
      rfl
  · rw [List.getElem?_eq_none hge, List.getElem?_eq_none (hlen ▸ hge)]

theorem Indexed.assign (h : c.Indexed) (hd : c.assign s = .ok d) : d.Indexed := by
  obtain ⟨-, assigned, hassigned, rfl⟩ := assign_eq_ok_iff.1 hd
  have hwf : (c.table.retrack (c.affectedBy s) c.records assigned).WellFormed :=
    h.wellFormed.retrack
  have hrecord : ∀ k slot p,
      (c.table.retrack (c.affectedBy s) c.records assigned).Notes (.record k slot) p ↔
        (slot, p) ∈ freeAt assigned k := by
    intro k slot p
    rw [h.wellFormed.notes_retrack_record_iff, h.notes]
    split
    · simp [ListsAt]
    · rename_i hk
      rw [freeAt_assigned hassigned hk]
      rfl
  -- the phase is noted anew only if the assignment goes there
  unfold reassigned
  split
  · refine ⟨hwf.untrackPhase.trackPhase, fun site p => ?_⟩
    rw [ParameterTable.notes_trackPhase_iff, hwf.notes_untrackPhase_iff]
    cases site with
    | phase => simp [ListsAt, h.wellFormed.notes_retrack_phase_iff, h.notes]
    | record k slot => simp [ListsAt, hrecord]
  · refine ⟨hwf, fun site p => ?_⟩
    cases site with
    | phase => rw [h.wellFormed.notes_retrack_phase_iff, h.notes]; rfl
    | record k slot => exact hrecord k slot p

/-- Every call on a store keeps the index in step with the records and the phase. -/
theorem indexed_invariant : Invariant .any Indexed where
  empty := Indexed.copyEmpty .empty .drop
  addBit bit c d hc hd := hc.congr (addBit_sameUses hd)
  addRegister r c d hc hd := hc.congr (addRegister_sameUses hd)
  addIdentifier i kind c d hc hd := hc.congr (addIdentifier_sameUses hd)
  snoc c i hc _ := hc.snoc i
  front c front _ _ _ := Indexed.withRecords c _
  pop c i d hc hd := hc.pop hd
  clear c _ := Indexed.withRecords c []
  setPhase phase c d hc hd := hc.setPhase hd
  setDuration t c hc := hc.congr ⟨rfl, rfl, rfl⟩
  listParameters c d hc hd := by
    obtain rfl := listParameters_leaves_iff.1 hd
    exact ⟨hc.wellFormed.remembered, hc.notes⟩
  copyEmpty c mode _ := Indexed.copyEmpty c mode
  assign c s d hc _ hd := hc.assign hd

/-- Built stores are indexed. -/
theorem Built.indexed {A : Policy} (h : c.Built A) : c.Indexed :=
  (h.everywhere_any indexed_invariant).here

/-! ## The index against the occurrences -/

/-- The sites that the index notes for `p`. -/
def sites (c : Content) (p : Parameter) : List ParameterUse := (c.table.uses? p).getD []

theorem mem_sites_iff {p : Parameter} {site : ParameterUse} :
    site ∈ c.sites p ↔ c.table.Notes site p := by
  unfold sites ParameterTable.Notes
  cases c.table.uses? p <;> simp

/-- If every index agrees with its records, then it agrees with the occurrences. -/
theorem Everywhere.listsAt_iff_occursAt {p : Parameter} (h : Everywhere Indexed c) :
    ∀ site, c.ListsAt p site ↔ c.OccursAt p site := by
  -- on the nesting: the parameters that a body lists are those free in it
  induction h with
  | @intro c hc hin ih =>
    intro site
    cases site with
    | phase => exact ParamExpr.mem_parameters_iff
    | record k slot =>
      simp only [ListsAt, OccursAt, freeAt]
      cases hk : c.records[k]? with
      | none => simp
      | some i =>
        have hbody : ∀ flow b, i.operation = .control flow → flow.bodies[slot]? = some b →
            (p ∈ b.parameters ↔ Free p b.content) := by
          intro flow b hflow hb
          have hmem : b ∈ c.circuits := mem_circuits_of_body hk hflow hb
          have hwf := (hin b hmem).here.wellFormed
          -- the body lists what its index notes, and that is what occurs in it by induction
          rw [free_iff_occursAt, show b.parameters = b.content.table.sorted from rfl,
            hwf.mem_sorted_iff, hwf.contains_iff]
          refine exists_congr fun site => ?_
          rw [(hin b hmem).here.notes, ih b hmem]
        simp only [Option.map_some, Option.getD_some, Option.some.injEq, exists_eq_left']
        rw [Operation.mem_freeParameters_iff]
        constructor
        · rintro (⟨e, he, hp⟩ | ⟨flow, b, hflow, hb, hne, hp⟩)
          · exact .param he hp
          · rw [hflow]
            exact .body hb hne ((hbody flow b hflow hb).1 hp)
        · intro hfree
          generalize hop : i.operation = op at hfree
          cases hfree with
          | param he hp => exact .inl ⟨_, he, hp⟩
          | body hb hne hp => exact .inr ⟨_, _, rfl, hb, hne, (hbody _ _ hop hb).2 hp⟩

theorem Everywhere.notes_iff_occursAt (h : Everywhere Indexed c) {site : ParameterUse}
    {p : Parameter} : c.table.Notes site p ↔ c.OccursAt p site :=
  (h.here.notes site p).trans (h.listsAt_iff_occursAt site)

end Content

/-- On every reached circuit, whatever was read or changed before: the index has a
parameter down at a site exactly if it occurs there; a parameter is in use exactly if
it occurs somewhere; and the parameters in use are listed once each, in canonical order. -/
theorem Circuit.Reachable.parameter_index_exact {A : Policy} {c : Circuit}
    (h : c.Reachable A) :
    (∀ p site, site ∈ c.content.sites p ↔ c.content.OccursAt p site) ∧
      (∀ p, c.content.table.contains p ↔ ∃ site, c.content.OccursAt p site) ∧
      (∀ p, p ∈ c.parameters ↔ c.content.table.contains p) ∧
      c.parameters.Nodup ∧ c.parameters.Pairwise (Parameter.le · ·) := by
  have heverywhere := h.built.everywhere_any Content.indexed_invariant
  have hindexed := heverywhere.here
  have hsites : ∀ p site, c.content.table.Notes site p ↔ c.content.OccursAt p site :=
    fun p site => heverywhere.notes_iff_occursAt
  refine ⟨fun p site => ?_, fun p => ?_, fun p => hindexed.wellFormed.mem_sorted_iff,
    hindexed.wellFormed.nodup_sorted, hindexed.wellFormed.pairwise_sorted⟩
  · rw [Content.mem_sites_iff, hsites]
  · rw [hindexed.wellFormed.contains_iff]
    exact exists_congr fun site => hsites p site

/-- A loop over `x` around a rotation by `x` and one by `y`. -/
def loopOverX : Circuit :=
  let qubit := Content.Call.addBit .quantum (.loose .quantum ⟨1, 0⟩)
  let rotation (p : Parameter) := Instruction.make (.gate (.rotation .rz (.sym p))) [0] []
  let body := Content.empty.after
    [qubit, .push (rotation ⟨"x", ⟨0, 0⟩, none⟩), .push (rotation ⟨"y", ⟨0, 1⟩, none⟩)]
  let flow := ControlFlow.forLoop (.values [1, 2]) (some ⟨"x", ⟨0, 0⟩, none⟩) ⟨"body", body, []⟩
  ⟨"c", Content.empty.after [qubit, .push (.make (.control flow) [0] [])], []⟩

/-- The loop is reached, and of its parameters only `y` is noted, at the place of the body. -/
theorem parameter_index_exact_loop :
    loopOverX.Reachable .any ∧
      loopOverX.content.sites ⟨"y", ⟨0, 1⟩, none⟩ = [.record 0 0] ∧
      loopOverX.content.sites ⟨"x", ⟨0, 0⟩, none⟩ = [] ∧
      ∀ p site, site ∈ loopOverX.content.sites p ↔ loopOverX.content.OccursAt p site := by
  have hreach : loopOverX.Reachable .any := by
    refine .ofStore "c" (Content.Built.empty.after fun k hk i hi => ?_)
    simp only [List.mem_cons, List.not_mem_nil, or_false] at hk
    rcases hk with rfl | rfl
    · exact absurd hi List.not_mem_nil
    · rw [List.mem_singleton.1 hi]
      intro e he
      rw [List.mem_singleton.1 he]
      refine Content.Built.empty.after fun k hk i hi => ?_
      simp only [List.mem_cons, List.not_mem_nil, or_false] at hk
      rcases hk with rfl | rfl | rfl
      · exact absurd hi List.not_mem_nil
      all_goals
        rw [List.mem_singleton.1 hi]
        exact fun e he => absurd he List.not_mem_nil
  exact ⟨hreach, by decide +kernel, by decide +kernel, hreach.parameter_index_exact.1⟩

end QuantumCircuit
