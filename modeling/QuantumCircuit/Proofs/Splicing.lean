import QuantumCircuit.Proofs.Naming
import QuantumCircuit.Proofs.Planning
import QuantumCircuit.Proofs.Taking

/-!
# Making a splice

What the writing half of a composition does, step by step, on a store for which the
composition has been worked out. Every step but two is bound to answer. Registers may
clash with those of the destination where the source brings its own clbits
(`Content.addClbitsOf_ok`, `Content.addClbitsOf_clash`), and the sum of the phases may
be refused; up to the phase the result is known (`Content.addSplice_apply`).
-/

namespace QuantumCircuit

/-- A run of edits is also one of the edits that they make of a part of the state. -/
theorem Edit.each_project {σ τ α : Type} {part : σ → τ} {e : α → Edit σ Unit}
    {f : α → Edit τ Unit} (h : ∀ a s t, e a s = .ok () t → f a (part s) = .ok () (part t))
    {l : List α} {s t : σ} (hrun : each e l s = .ok () t) :
    each f l (part s) = .ok () (part t) := by
  induction l generalizing s with
  | nil =>
    cases hrun
    rfl
  | cons a rest ih =>
    obtain ⟨_, u, ha, hrun⟩ := bind_eq_ok_iff.1 hrun
    exact bind_eq_ok_iff.2 ⟨(), part u, h a s u ha, ih hrun⟩

/-- Take over the bits and the registers of another list, none of which may be there. -/
def BitList.takeOver {k : BitKind} (source : BitList k) : Edit (BitList k) Unit := do
  Edit.each (fun bit => do let _ ← add bit true) source.bits
  Edit.each addRegister source.registers

namespace Content

variable {c source : Content}

/-! ## Bits and registers -/

theorem clbits_of_addRegister {r : ClassicalRegister} {d : Content}
    (h : addRegister r c = .ok () d) : BitList.addRegister r c.clbits = .ok () d.clbits := by
  rw [addRegister, Edit.get_bind_apply] at h
  obtain ⟨_, -, h⟩ := Edit.ofExcept_bind_eq_ok_iff.1 h
  obtain ⟨l, hl, rfl⟩ := Edit.within_eq_ok_iff.1 h
  exact hl

/-- For the clbits it is all a matter of their list. -/
theorem clbits_of_addClbitsOf {d : Content} (h : addClbitsOf source c = .ok () d) :
    BitList.takeOver source.clbits c.clbits = .ok () d.clbits := by
  obtain ⟨_, u, hbits, hregisters⟩ := Edit.bind_eq_ok_iff.1 h
  refine Edit.bind_eq_ok_iff.2 ⟨(), u.clbits, Edit.each_project (fun bit c d h => ?_) hbits,
    Edit.each_project (fun r c d h => clbits_of_addRegister h) hregisters⟩
  obtain ⟨position, v, hadd, h⟩ := Edit.bind_eq_ok_iff.1 h
  cases h
  obtain ⟨l, hl, rfl⟩ := Edit.within_eq_ok_iff.1 hadd
  exact Edit.bind_eq_ok_iff.2 ⟨position, l, hl, rfl⟩

/-- New clbits come in one after another, if there is room for them. -/
theorem each_addBit_ok {bits : List Clbit} (h : c.clbits.Sound) (hnodup : bits.Nodup)
    (hnew : ∀ bit ∈ bits, bit ∉ c.clbits.bits)
    (hroom : c.clbits.size + bits.length ≤ BitList.capacity) :
    ∃ l, Edit.each (fun bit => do let _ ← addBit bit) bits c = .ok () { c with clbits := l } ∧
      l.Sound ∧ l.bits = c.clbits.bits ++ bits ∧ l.registers = c.clbits.registers := by
  obtain ⟨l, hl⟩ := BitList.each_add_ok h hnodup hnew hroom
  obtain ⟨hbits, hregisters⟩ := BitList.bits_of_each_add hl
  refine ⟨l, ?_, BitList.each_add_sound h hl, hbits, hregisters⟩
  exact (each_addBit_eq_within bits c).trans (Edit.within_eq_ok_iff.2 ⟨l, hl, rfl⟩)

/-- Registers over listed bits with free names of their own come in one after another. -/
theorem each_addRegister_ok {registers : List ClassicalRegister} (h : c.clbits.Sound)
    (hidentifiers : ∀ r ∈ registers, ¬ c.identifiers.hasName r.name)
    (hbits : ∀ r ∈ registers, ∀ bit ∈ r.bits, bit ∈ c.clbits.bits)
    (hnames : (registers.map (·.name)).Nodup)
    (hfree : ∀ r ∈ registers, c.clbits.register? r.name = none) :
    ∃ l, Edit.each (fun r => addRegister r) registers c = .ok () { c with clbits := l } ∧
      l.Sound ∧ l.bits = c.clbits.bits ∧ l.registers = c.clbits.registers ++ registers ∧
      (registers = [] → l = c.clbits) := by
  have hapart : ((c.clbits.registers ++ registers).map (·.name)).Nodup := by
    rw [List.map_append]
    refine List.nodup_append.2 ⟨h.names, hnames, fun name hmem other hother heq => ?_⟩
    obtain ⟨r, hr, rfl⟩ := List.mem_map.1 hother
    exact BitList.register?_eq_none_iff.1 (hfree r hr) (heq ▸ hmem)
  obtain ⟨l, hl⟩ := BitList.each_addRegister_ok h hbits hapart
  obtain ⟨hsame, hregisters⟩ := BitList.registers_of_each_addRegister h hbits hl
  refine ⟨l, ?_, BitList.each_addRegister_sound h hl, hsame, hregisters, fun hnil => ?_⟩
  · exact (each_addRegister_eq_within hidentifiers).trans
      (Edit.within_eq_ok_iff.2 ⟨l, hl, rfl⟩)
  · subst hnil
    cases hl
    rfl

/-- Registers one of which has a taken name are refused, and no bit has come or gone. -/
theorem each_addRegister_clash {registers : List ClassicalRegister} (h : c.clbits.Sound)
    (hidentifiers : ∀ r ∈ registers, ¬ c.identifiers.hasName r.name)
    (hbits : ∀ r ∈ registers, ∀ bit ∈ r.bits, bit ∈ c.clbits.bits)
    (hclash : ∃ r ∈ registers, c.clbits.register? r.name ≠ none) :
    ∃ e l, Edit.each (fun r => addRegister r) registers c = .error e { c with clbits := l } ∧
      l.bits = c.clbits.bits := by
  obtain ⟨e, l, hl, hsame⟩ := BitList.each_addRegister_clash h hbits hclash
  exact ⟨e, l, (each_addRegister_eq_within hidentifiers).trans
    (Edit.within_eq_error_iff.2 ⟨l, hl, rfl⟩), hsame⟩

theorem clbits_of_onlyIf_addClbitsOf {b : Bool} {d : Content}
    (h : Edit.onlyIf b (addClbitsOf source) c = .ok () d) :
    Edit.onlyIf b (BitList.takeOver source.clbits) c.clbits = .ok () d.clbits := by
  cases b with
  | false =>
    cases h
    rfl
  | true => exact clbits_of_addClbitsOf h

section Clbits

variable (hc : c.clbits.Sound) (hsource : source.clbits.Sound) (hempty : c.clbits.bits = [])
  (hidentifiers : ∀ r ∈ source.clbits.registers, ¬ c.identifiers.hasName r.name)
include hc hsource hempty

theorem each_addBit_source :
    ∃ l, Edit.each (fun bit => do let _ ← addBit bit) source.clbits.bits c =
        .ok () { c with clbits := l } ∧
      l.Sound ∧ l.bits = source.clbits.bits ∧ l.registers = c.clbits.registers := by
  obtain ⟨l, hl, hsound, hbits, hregisters⟩ := each_addBit_ok hc hsource.bits
    (fun bit _ => by simp [hempty]) (by
      simpa [BitList.size, hempty] using hsource.size)
  exact ⟨l, hl, hsound, by rw [hbits, hempty, List.nil_append], hregisters⟩

include hidentifiers

/-- The clbits and registers of the source come in if no register clashes. -/
theorem addClbitsOf_ok
    (hfree : ∀ r ∈ source.clbits.registers, c.clbits.register? r.name = none) :
    ∃ l, addClbitsOf source c = .ok () { c with clbits := l } ∧ l.Sound ∧
      l.bits = source.clbits.bits ∧
      l.registers = c.clbits.registers ++ source.clbits.registers := by
  obtain ⟨l₁, hl₁, hsound₁, hbits₁, hregisters₁⟩ := each_addBit_source hc hsource hempty
  obtain ⟨l, hl, hsound, hbits, hregisters, -⟩ := each_addRegister_ok
    (c := { c with clbits := l₁ }) hsound₁ hidentifiers
    (fun r hr bit hbit => hbits₁ ▸ hsource.members r hr bit hbit) hsource.names fun r hr => by
      rw [BitList.register?_eq_none_iff, hregisters₁]
      exact BitList.register?_eq_none_iff.1 (hfree r hr)
  refine ⟨l, Edit.bind_eq_ok_iff.2 ⟨(), _, hl₁, hl⟩, hsound, hbits.trans hbits₁, ?_⟩
  rw [hregisters, hregisters₁]

/-- If a register clashes they are refused, but the clbits are in by then. -/
theorem addClbitsOf_clash
    (hclash : ∃ r ∈ source.clbits.registers, c.clbits.register? r.name ≠ none) :
    ∃ e l, addClbitsOf source c = .error e { c with clbits := l } ∧
      l.bits = source.clbits.bits := by
  obtain ⟨l₁, hl₁, hsound₁, hbits₁, hregisters₁⟩ := each_addBit_source hc hsource hempty
  obtain ⟨r, hr, hclash⟩ := hclash
  obtain ⟨e, l, hl, hbits⟩ := each_addRegister_clash (c := { c with clbits := l₁ }) hsound₁
    hidentifiers (fun r hr bit hbit => hbits₁ ▸ hsource.members r hr bit hbit)
    ⟨r, hr, fun hnone => hclash (by
      rw [BitList.register?_eq_none_iff, ← hregisters₁]
      exact BitList.register?_eq_none_iff.1 hnone)⟩
  exact ⟨e, l, Edit.bind_eq_error_iff.2 (.inr ⟨(), _, hl₁, hl⟩), hbits.trans hbits₁⟩

end Clbits

/-! ## Identifiers and records -/

/-- Identifiers that their table takes, and that no register stands in the way of, come in. -/
theorem each_addIdentifier_ok {additions : List (Identifier × IdentifierKind)}
    {planned : IdentifierTable} (hplanned : c.identifiers.addedAll additions = .ok planned)
    (hfree : ∀ e ∈ additions, c.clbits.register? e.1.name = none) :
    Edit.each (fun (i, kind) => addIdentifier i kind) additions c =
      .ok () { c with identifiers := planned } := by
  induction additions generalizing c with
  | nil =>
    cases hplanned
    cases c
    rfl
  | cons e rest ih =>
    obtain ⟨i, kind⟩ := e
    obtain ⟨hname, hfree⟩ := List.forall_mem_cons.1 hfree
    obtain ⟨t, ht, hrest⟩ := Checking.bind_eq_ok_iff.1 hplanned
    obtain ⟨hcheck, rfl⟩ := IdentifierTable.added_eq_ok_iff.1 ht
    refine Edit.bind_eq_ok_iff.2 ⟨(), { c with identifiers := c.identifiers.insert i kind }, ?_,
      ih hrest hfree⟩
    refine addIdentifier_eq_ok_iff.2 ⟨?_, rfl⟩
    simp only [checkIdentifier, hname, Option.isSome_none, Bool.false_eq_true, if_false]
    exact hcheck

/-- The parameters of the records are unambiguous, and the index admits them. -/
structure TakesParameters (t : ParameterTable) (S : Parameter → Prop) : Prop where
  admits : ∀ p, S p → t.Admits p
  apart : ParameterTable.Apart S

namespace TakesParameters

variable {t : ParameterTable} {S : Parameter → Prop}

/-- An index over unambiguous parameters takes them. -/
theorem of_over (h : t.Over S) (hS : ParameterTable.Apart S) : TakesParameters t S :=
  ⟨fun _ hp => h.resolves.admits_iff.2 fun q hq hname => hS q _ (h.all q hq) hp hname, hS⟩

theorem check (h : TakesParameters t S) {ps : List Parameter} (hps : ∀ p ∈ ps, S p) :
    t.check ps = .ok () :=
  ParameterTable.check_eq_ok_iff.2
    ⟨fun p hp => h.admits p (hps p hp), fun p hp q hq => h.apart p q (hps p hp) (hps q hq)⟩

/-- Whatever comes in, the rest is admitted still. -/
theorem track (h : TakesParameters t S) (site : ParameterUse) {p : Parameter} (hp : S p) :
    TakesParameters (t.track site p) S := by
  refine ⟨fun q hq r hr => ?_, h.apart⟩
  rw [ParameterTable.named?_track] at hr
  split at hr
  · exact h.admits q hq r hr
  · split at hr
    · rename_i hname
      cases hr
      exact h.apart p q hp hq hname
    · exact h.admits q hq r hr

theorem trackRecord (h : TakesParameters t S) (k : Nat) {slots : List (Nat × Parameter)}
    (hslots : ∀ u ∈ slots, S u.2) : TakesParameters (t.trackRecord k slots) S :=
  List.foldlRecOn (motive := (TakesParameters · S)) slots _ h fun _ ht u hu =>
    ht.track _ (hslots u hu)

end TakesParameters

/-- The index once the records are in. -/
def indexWith (c : Content) (front : Bool) (records : List Instruction) : ParameterTable :=
  if front then
    .build c.phase.parameters ((records ++ c.records).map (·.operation.freeParameters))
  else c.table.trackFrom c.records.length (records.map (·.operation.freeParameters))

section Records

variable {S : Parameter → Prop} {records : List Instruction}

/-- Records that fit, with parameters that may come in, are all pushed. -/
theorem each_push_ok (hclbits : c.clbits.Sound) (htable : TakesParameters c.table S)
    (hfits : ∀ i ∈ records, i.Fits c)
    (hparameters : ∀ i ∈ records, ∀ u ∈ i.operation.freeParameters, S u.2) :
    ∃ t, Edit.each push records c = .ok () { c with
      records := c.records ++ records
      table := c.indexWith false records
      duration := t } := by
  induction records generalizing c with
  | nil =>
    exact ⟨c.duration, by cases c; simp [Edit.each, indexWith, ParameterTable.trackFrom]; rfl⟩
  | cons i rest ih =>
    obtain ⟨hi, hfits⟩ := List.forall_mem_cons.1 hfits
    obtain ⟨hu, hparameters⟩ := List.forall_mem_cons.1 hparameters
    have hcheck : c.check i = .ok () := (check_eq_ok_iff hclbits).2
      ⟨hi, htable.check fun p hp => by
        obtain ⟨u, hmem, rfl⟩ := List.mem_map.1 hp
        exact hu u hmem⟩
    obtain ⟨t, ht⟩ := ih (c := c.snoc i) hclbits (htable.trackRecord _ hu)
      (fun j hj => (hfits j hj).within ⟨.refl _, .refl _, fun _ h => h⟩) hparameters
    refine ⟨t, Edit.bind_eq_ok_iff.2 ⟨(), c.snoc i, Edit.update_eq_ok_iff.2 ?_, ht.trans ?_⟩⟩
    · rw [hcheck]
      rfl
    · simp [snoc, indexWith, ParameterTable.trackFrom]

/-- Records that fit, with parameters that may come in, are added at either end. -/
theorem addRecords_ok (hclbits : c.clbits.Sound) (htable : TakesParameters c.table S)
    (hfits : ∀ i ∈ records, i.Fits c)
    (hparameters : ∀ i ∈ records, ∀ u ∈ i.operation.freeParameters, S u.2) (front : Bool) :
    ∃ t, addRecords front records c = .ok () { c with
      records := if front then records ++ c.records else c.records ++ records
      table := c.indexWith front records
      duration := t } := by
  cases front with
  | false => exact each_push_ok hclbits htable hfits hparameters
  | true =>
    refine ⟨none, ?_⟩
    show insertFront records c = _
    have hlisted : ∀ i ∈ records, ∀ p ∈ i.operation.freeParameters.map (·.2), S p := by
      intro i hi p hp
      obtain ⟨u, hu, rfl⟩ := List.mem_map.1 hp
      exact hparameters i hi u hu
    refine Edit.update_eq_ok_iff.2
      (Checking.seq_eq_ok_iff.2 ⟨checkEach_eq_ok_iff.2 fun i hi => ?_, ?_⟩)
    · exact (check_eq_ok_iff hclbits).2 ⟨hfits i hi, htable.check (hlisted i hi)⟩
    · refine Checking.seq_eq_ok_iff.2 ⟨htable.check fun p hp => ?_, rfl⟩
      obtain ⟨i, hi, hp⟩ := List.mem_flatMap.1 hp
      exact hlisted i hi p hp

end Records

end Content

/-! ## The whole splice -/

/-- What a splice makes of the store before the phases are added up. -/
structure Splice.Made (s : Splice) (source : Content) (front : Bool) (c d : Content) : Prop where
  qubits : d.qubits = c.qubits
  clbits : d.clbits.bits = if s.placement.bringClbits then source.clbits.bits else c.clbits.bits
  registers : d.clbits.registers = c.clbits.registers ++
    (if s.placement.bringClbits then source.clbits.registers else []) ++ s.aliases
  sound : d.clbits.Sound
  idle : ¬ s.placement.bringClbits → s.records = [] → d.clbits = c.clbits
  identifiers : d.identifiers = s.identifiers.planned
  records : d.records = if front then s.records ++ c.records else c.records ++ s.records
  table : d.table = c.indexWith front s.records
  phase : d.phase = c.phase
  /-- Where the clbits and registers are in the list depends on the list only. -/
  entered : (Edit.onlyIf s.placement.bringClbits (BitList.takeOver source.clbits) >>= fun _ =>
    Edit.each BitList.addRegister s.aliases) c.clbits = .ok () d.clbits

section

variable {A : Policy} {c source : Circuit} {o : ComposeOptions} {p : Placement} {s : Splice}

/-- A record as it arrives fits where all that it may name is there. -/
theorem LeafMap.ArrivesAt.fits {i i' : Instruction} {U : Surroundings} {d : Content}
    (h : LeafMap.ArrivesAt p i i' U) (hi : i.Fits source.content)
    (hqubits : GoodTargets source.numQubits d.numQubits p.qubits)
    (hclbits : GoodTargets source.numClbits d.numClbits p.clbits)
    (hU : U.Within d.surroundings) : i'.Fits d := by
  refine ⟨fun q hq => ?_, fun b hb => ?_, ?_, ?_, ?_, ?_, h.operation.reads.within hU⟩
  · rw [h.qubits] at hq
    obtain ⟨a, ha, rfl⟩ := List.mem_map.1 hq
    exact hqubits.range _ (hqubits.getD_mem (hi.qubits a ha))
  · rw [h.clbits] at hb
    obtain ⟨a, ha, rfl⟩ := List.mem_map.1 hb
    exact hclbits.range _ (hclbits.getD_mem (hi.clbits a ha))
  · rw [h.qubits, List.length_map, hi.qubitCount, h.operation.numQubits]
  · rw [h.clbits, List.length_map, hi.clbitCount, h.operation.numClbits]
  · rw [h.qubits]
    exact hqubits.nodup_map hi.qubitsNodup hi.qubits
  · rw [h.clbits]
    exact hclbits.nodup_map hi.clbitsNodup hi.clbits

/-! ### What comes in before the records -/

theorem Circuit.Placed.empty_of_brings (hp : c.Placed source o p) (hbring : p.bringClbits) :
    c.content.clbits.bits = [] := by
  have hbrings := hp.brings ▸ hbring
  simp only [Circuit.bringsClbits, Bool.and_eq_true, beq_iff_eq] at hbrings
  exact List.length_eq_zero_iff.1 hbrings.1.2

/-- Aliases have names that no identifier has. -/
theorem Splice.Sound.alias_free (hs : s.Sound c source p) :
    ∀ r ∈ s.aliases, ¬ c.content.identifiers.hasName r.name := by
  obtain ⟨m, hplan⟩ := hs.plan
  intro r hr hname
  refine (hs.fresh r hr).1 ?_
  rw [hplan.names]
  exact List.mem_append_left _ (IdentifierTable.hasName_iff.1 hname)

/-- What the records may name was there, or is brought. -/
theorem Placement.mem_registers_of_host {r : ClassicalRegister}
    (hr : r ∈ (p.host c source).content.clbits.registers) :
    r ∈ c.content.clbits.registers ++
      (if p.bringClbits then source.content.clbits.registers else []) := by
  unfold Placement.host at hr
  split at hr
  · rw [if_pos ‹_›]
    exact List.mem_append_right _ hr
  · exact List.mem_append_left _ hr

theorem Circuit.Placed.source_clbits (hp : c.Placed source o p) (hbring : p.bringClbits) :
    source.content.clbits.bits ≠ [] := by
  have hbrings := hp.brings ▸ hbring
  simp only [Circuit.bringsClbits, Bool.and_eq_true, decide_eq_true_eq] at hbrings
  exact List.ne_nil_of_length_pos hbrings.2

/-- The targets of clbits are good for whatever list has the clbits of the host. -/
theorem Circuit.Placed.clbits_width (hp : c.Placed source o p) {l : BitList .classical}
    (hbits : l.bits = (p.host c source).content.clbits.bits) :
    GoodTargets source.numClbits l.size p.clbits := by
  have hwidth : (if p.bringClbits then source.numClbits else c.numClbits) = l.size := by
    rw [BitList.size, hbits, Placement.bits_host]
    split <;> rfl
  exact hwidth ▸ hp.clbits

section Placed

variable (hc : c.content.Orderly) (hsource : source.content.Orderly) (hp : c.Placed source o p)
include hc hsource hp

/-- The clbits and registers that the source brings, if it brings any. -/
theorem Circuit.Placed.bring_ok
    (hfree : p.bringClbits → ∀ r ∈ source.content.clbits.registers,
      c.content.clbits.register? r.name = none) :
    ∃ l, Edit.onlyIf p.bringClbits (Content.addClbitsOf source.content) c.content =
        .ok () { c.content with clbits := l } ∧ l.Sound ∧
      l.bits = (p.host c source).content.clbits.bits ∧
      l.registers = c.content.clbits.registers ++
        (if p.bringClbits then source.content.clbits.registers else []) ∧
      (¬ p.bringClbits → l = c.content.clbits) := by
  cases hbring : p.bringClbits with
  | false =>
    refine ⟨c.content.clbits, ?_, hc.clbits, ?_, by simp, fun _ => rfl⟩
    · cases c.content
      rfl
    · rw [Placement.host_of_not_brings hbring]
  | true =>
    obtain ⟨l, hl, hsound, hbits, hregisters⟩ := Content.addClbitsOf_ok hc.clbits hsource.clbits
      (hp.empty_of_brings hbring) (hp.names hbring) (hfree hbring)
    rw [Placement.host_of_brings hbring]
    exact ⟨l, hl, hsound, hbits, hregisters, fun hfalse => absurd rfl hfalse⟩

/-- Bits, registers and identifiers come in if no register clashes. -/
theorem Splice.Sound.enter_ok (hs : s.Sound c source p)
    (hfree : p.bringClbits → ∀ r ∈ source.content.clbits.registers ++ s.aliases,
      c.content.clbits.register? r.name = none) (front : Bool) :
    ∃ l, Content.addSplice source.content front s c.content =
        (Content.addRecords front s.records >>= fun _ =>
          Edit.onlyIf source.content.phase.isPhase (Content.addPhase source.content.phase))
          { c.content with clbits := l, identifiers := s.identifiers.planned } ∧
      l.Sound ∧ l.bits = (p.host c source).content.clbits.bits ∧
      l.registers = c.content.clbits.registers ++
        (if p.bringClbits then source.content.clbits.registers else []) ++ s.aliases ∧
      (¬ p.bringClbits → s.aliases = [] → l = c.content.clbits) ∧
      (Edit.onlyIf p.bringClbits (BitList.takeOver source.content.clbits) >>= fun _ =>
        Edit.each BitList.addRegister s.aliases) c.content.clbits = .ok () l := by
  obtain ⟨l₁, hl₁, hsound₁, hbits₁, hregisters₁, hsame₁⟩ := hp.bring_ok hc hsource
    fun hbring r hr => hfree hbring r (List.mem_append_left _ hr)
  -- the registers there by then are those of the host
  have hhost : ∀ name, l₁.register? name = none ↔
      (name ∉ (p.host c source).content.clbits.registers.map (·.name) ∧
        (p.bringClbits → c.content.clbits.register? name = none)) := by
    intro name
    rw [BitList.register?_eq_none_iff, BitList.register?_eq_none_iff, hregisters₁, List.map_append,
      List.mem_append, not_or]
    cases hbring : p.bringClbits <;> simp [Placement.host, hbring, and_comm]
  obtain ⟨l, hl, hsound, hbits₂, hregisters, hsame⟩ := Content.each_addRegister_ok
    (c := { c.content with clbits := l₁ }) hsound₁ hs.alias_free
    (fun r hr bit hbit => hbits₁ ▸ hs.bits r hr bit hbit) hs.names
    fun r hr => (hhost r.name).2
      ⟨(hs.fresh r hr).2, fun hbring => hfree hbring r (List.mem_append_right _ hr)⟩
  obtain ⟨m, hplan⟩ := hs.plan
  have hadd := Content.each_addIdentifier_ok (c := { c.content with clbits := l }) hplan.planned
    fun e he => by
      have hname : e.1.name ∈ s.identifiers.planned.names := by
        rw [hplan.names]
        exact List.mem_append_right _ (List.mem_map_of_mem he)
      rw [BitList.register?_eq_none_iff, hregisters, List.map_append, List.mem_append, not_or]
      refine ⟨BitList.register?_eq_none_iff.1
          ((hhost e.1.name).2 ⟨?_, fun _ => (hplan.free e he).1⟩),
        fun hmem => ?_⟩
      · unfold Placement.host
        split
        · exact BitList.register?_eq_none_iff.1 ((hplan.free e he).2 ‹_›)
        · exact BitList.register?_eq_none_iff.1 (hplan.free e he).1
      · obtain ⟨r, hr, heq⟩ := List.mem_map.1 hmem
        exact (hs.fresh r hr).1 (heq ▸ hname)
  refine ⟨l, ?_, hsound, hbits₂.trans hbits₁, ?_, fun hbring hnil => ?_, ?_⟩
  · exact (Edit.bind_apply_of_ok (hs.placement ▸ hl₁)).trans
      ((Edit.bind_apply_of_ok hl).trans (Edit.bind_apply_of_ok hadd))
  · rw [hregisters, hregisters₁]
  · exact (hsame hnil).trans (hsame₁ hbring)
  · refine Edit.bind_eq_ok_iff.2 ⟨(), l₁, Content.clbits_of_onlyIf_addClbitsOf hl₁, ?_⟩
    exact Edit.each_project (fun r c d h => Content.clbits_of_addRegister h) hl

/-- If a register clashes, it is refused with the clbits of the source in. -/
theorem Splice.Sound.enter_clash (hs : s.Sound c source p) (hbring : p.bringClbits)
    (hclash : ∃ r ∈ source.content.clbits.registers ++ s.aliases,
      c.content.clbits.register? r.name ≠ none) (front : Bool) :
    ∃ e l, Content.addSplice source.content front s c.content =
        .error e { c.content with clbits := l } ∧
      l.bits = source.content.clbits.bits := by
  have hempty := hp.empty_of_brings hbring
  have hbrings : s.placement.bringClbits = true := hs.placement ▸ hbring
  -- the clash is with a register of the source or, once these are in, with an alias
  by_cases hown : ∃ r ∈ source.content.clbits.registers, c.content.clbits.register? r.name ≠ none
  · obtain ⟨e, l, hl, hbits⟩ := Content.addClbitsOf_clash hc.clbits hsource.clbits hempty
      (hp.names hbring) hown
    refine ⟨e, l, Edit.bind_eq_error_iff.2 (.inl ?_), hbits⟩
    rw [hbrings]
    exact hl
  · have hfree : ∀ r ∈ source.content.clbits.registers, c.content.clbits.register? r.name = none :=
      fun r hr => Decidable.not_not.1 fun hne => hown ⟨r, hr, hne⟩
    obtain ⟨l₁, hl₁, hsound₁, hbits₁, hregisters₁, -⟩ := hp.bring_ok hc hsource fun _ => hfree
    obtain ⟨r, hr, hne⟩ := hclash
    have hr : r ∈ s.aliases := (List.mem_append.1 hr).resolve_left fun hmem => hown ⟨r, hmem, hne⟩
    obtain ⟨e, l, hl, hbits₂⟩ := Content.each_addRegister_clash
      (c := { c.content with clbits := l₁ }) hsound₁ hs.alias_free
      (fun r hr bit hbit => hbits₁ ▸ hs.bits r hr bit hbit) ⟨r, hr, fun hnone => hne (by
        rw [BitList.register?_eq_none_iff] at hnone ⊢
        rw [hregisters₁, List.map_append, List.mem_append, not_or] at hnone
        exact hnone.1)⟩
    rw [Placement.host_of_brings hbring] at hbits₁
    refine ⟨e, l, ?_, hbits₂.trans hbits₁⟩
    refine Edit.bind_eq_error_iff.2 (.inr ⟨(), _, hs.placement ▸ hl₁, ?_⟩)
    exact Edit.bind_eq_error_iff.2 (.inl hl)

end Placed

/-- Records of the source as they arrive have parameters of the source only. -/
theorem Splice.Sound.parameters (hs : s.Sound c source p) (hindexed : source.content.Indexed) :
    ∀ i ∈ s.records, ∀ u ∈ i.operation.freeParameters, u.2 ∈ source.parameters := by
  intro i' hi' u hu
  obtain ⟨i, hi, harrives⟩ := Checking.exists_left hs.records hi'
  obtain ⟨k, hk⟩ := List.getElem?_of_mem hi
  refine hindexed.mem_parameters_iff.2 ⟨.record k u.1, ?_⟩
  simpa [Content.ListsAt, Content.freeAt, hk] using harrives.operation.parameters u hu

/-- The destination takes the parameters of the source. -/
theorem Circuit.Placed.takesParameters (hp : c.Placed source o p) :
    Content.TakesParameters c.content.table (· ∈ source.parameters) := by
  obtain ⟨hadmits, hapart⟩ := ParameterTable.check_eq_ok_iff.1 hp.parameters
  exact ⟨hadmits, fun q r hq hr => hapart q hq r hr⟩

/-- Up to the phase the splice is made, if no register clashes. -/
theorem Splice.Sound.made (hc : c.content.Orderly) (hsource : source.content.Orderly)
    (hindexed : source.content.Indexed) (hp : c.Placed source o p) (hs : s.Sound c source p)
    (hfree : p.bringClbits → ∀ r ∈ source.content.clbits.registers ++ s.aliases,
      c.content.clbits.register? r.name = none) (front : Bool) :
    ∃ d, s.Made source.content front c.content d ∧
      Content.addSplice source.content front s c.content =
        Edit.onlyIf source.content.phase.isPhase (Content.addPhase source.content.phase) d := by
  obtain ⟨l, hl, hsound, hbits, hregisters, hsame, hentered⟩ :=
    hs.enter_ok hc hsource hp hfree front
  have hwithin : (s.surroundings (p.host c source)).Within
      (Content.surroundings { c.content with
        clbits := l, identifiers := s.identifiers.planned }) :=
    ⟨fun _ hi => hi, fun bit hbit => (hbits ▸ hbit : bit ∈ l.bits), fun r hr => by
      refine hsound.hasRegister_of_mem ?_
      rw [hregisters]
      rcases List.mem_append.1 hr with hr | hr
      · exact List.mem_append_left _ (Placement.mem_registers_of_host hr)
      · exact List.mem_append_right _ hr⟩
  obtain ⟨t, ht⟩ := @Content.addRecords_ok
    { c.content with clbits := l, identifiers := s.identifiers.planned } _ s.records hsound
    hp.takesParameters
    (fun i' hi' => by
      obtain ⟨i, hi, harrives⟩ := Checking.exists_left hs.records hi'
      exact harrives.fits (hsource.fits i hi) hp.qubits (hp.clbits_width hbits) hwithin)
    (hs.parameters hindexed) front
  refine ⟨_, ?_, hl.trans (Edit.bind_apply_of_ok ht)⟩
  refine ⟨rfl, ?_, ?_, hsound, fun hbring hnil => ?_, rfl, rfl, rfl, rfl, ?_⟩
  · show l.bits = _
    rw [hbits, hs.placement, Placement.bits_host]
  · rw [hs.placement]
    exact hregisters
  · exact hsame (hs.placement ▸ hbring) (hs.idle hnil)
  · rw [hs.placement]
    exact hentered

end

end QuantumCircuit
