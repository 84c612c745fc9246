import QuantumCircuit.Proofs.ParameterNames
import QuantumCircuit.Proofs.Reach
import QuantumCircuit.Proofs.Splicing

/-!
# What a refused composition leaves behind

A composition is worked out before anything is written, and almost all that is written
then is bound to come in. Two things are not. A destination without clbits may still
have classical registers, and a register that the source brings may clash with one of
them when the clbits of the source are in already (`Circuit.RegisterClash`). And the sum
of the phases may be refused when the records are in, if parameters of the destination
share a name (`Circuit.PhaseClash`).

Those are all the refused compositions that change the destination:
`Circuit.Reachable.compose_changes_iff`.
-/

namespace QuantumCircuit

/-! ## Equal to every reader -/

/-- The same bits, registers, identifiers, records, phase and use of parameters. What is
noted of the duration is left out. -/
structure Content.SameAs (c d : Content) : Prop where
  qubits : c.qubits = d.qubits
  clbits : c.clbits = d.clbits
  identifiers : c.identifiers = d.identifiers
  records : c.records = d.records
  phase : c.phase = d.phase
  uses : ∀ site p, c.table.Notes site p ↔ d.table.Notes site p
  named : ∀ name, c.table.named? name = d.table.named? name

/-- The same name, open blocks and store. -/
structure Circuit.SameAs (c d : Circuit) : Prop where
  name : c.name = d.name
  blocks : c.blocks = d.blocks
  content : c.content.SameAs d.content

theorem Circuit.SameAs.refl (c : Circuit) : c.SameAs c :=
  ⟨rfl, rfl, rfl, rfl, rfl, rfl, rfl, fun _ _ => .rfl, fun _ => rfl⟩

namespace Circuit

variable {c source : Circuit} {o : ComposeOptions} {p : Placement} {s : Splice}

/-! ## The two clashes -/

/-- That the destination has a classical register of that name. -/
def TakenBy (c : Circuit) (r : ClassicalRegister) : Prop :=
  c.content.clbits.register? r.name ≠ none

/-- All is well up to where a register of the source, or an alias, comes in with the
clbits of the source and has the name of one of the destination's. -/
inductive RegisterClash (c source : Circuit) (o : ComposeOptions) : Prop
  | wrapped (p : Placement) (op : CustomOp) (r : ClassicalRegister) : o.wrap →
      c.place source o = .ok p → source.toOperation = .ok op → p.bringClbits →
      r ∈ source.content.clbits.registers → c.TakenBy r → RegisterClash c source o
  | spliced (p : Placement) (s : Splice) (r : ClassicalRegister) : ¬ o.wrap →
      c.place source o = .ok p → c.splice source o p = .ok s → p.bringClbits →
      r ∈ source.content.clbits.registers ++ s.aliases → c.TakenBy r → RegisterClash c source o

/-- The sum of the phases as it is stored. -/
def phaseSum (c source : Circuit) : Angle :=
  (ParamExpr.add c.content.phase source.content.phase).simplify.normalizedPhase

/-- The index with the records in and the old phase given up. -/
def indexForPhase (c : Circuit) (o : ComposeOptions) (s : Splice) : ParameterTable :=
  (c.content.indexWith o.front s.records).untrackPhase c.content.phase.parameters

/-- All is well up to the sum of the phases, which is refused for its names; and by then
something has come in, or taking the old phase back turns a look-up by name around. -/
structure PhaseClash.At (c source : Circuit) (o : ComposeOptions) (p : Placement) (s : Splice) :
    Prop where
  spliced : ¬ o.wrap
  place : c.place source o = .ok p
  splice : c.splice source o p = .ok s
  phase : source.content.phase.isPhase
  refused : (c.indexForPhase o s).check (c.phaseSum source).parameters ≠ .ok ()
  changed : p.bringClbits ∨ s.records ≠ [] ∨ s.identifiers.additions ≠ [] ∨
    ∃ name, ((c.indexForPhase o s).trackPhase c.content.phase.parameters).named? name ≠
      c.content.table.named? name

/-- The composition gets as far as the phases and no further. -/
def PhaseClash (c source : Circuit) (o : ComposeOptions) : Prop :=
  ∃ p s, PhaseClash.At c source o p s

/-- That the composition is refused and leaves another circuit behind. -/
def ChangedByRefusal (c source : Circuit) (o : ComposeOptions) : Prop :=
  ∃ e d, compose source o c = .error e d ∧ ¬ d.SameAs c

/-! ## Wrapped -/

/-- The parameters of a wrapped circuit are those of the circuit. -/
theorem mem_freeParameters_of_toOperation {op : CustomOp} (h : source.toOperation = .ok op)
    {u : Nat × Parameter} (hu : u ∈ (Operation.custom op).freeParameters) :
    u.2 ∈ source.parameters := by
  obtain ⟨slot, q⟩ := u
  rcases Operation.mem_freeParameters_iff.1 hu with ⟨e, he, hq⟩ | ⟨flow, b, hflow, -⟩
  · have hmem : e ∈ op.params := List.mem_of_getElem? he
    obtain ⟨_, rfl⟩ := toOperation_eq_ok h
    obtain ⟨r, hr, rfl⟩ := List.mem_map.1 hmem
    rwa [List.mem_singleton.1 hq]
  · cases hflow

section Wrapped

variable (hc : c.content.Orderly) (hsource : source.content.Orderly) (hp : c.Placed source o p)
  {op : CustomOp} (hop : source.toOperation = .ok op) (front : Bool)
include hc hsource hp hop

/-- A wrapped circuit comes in if no register clashes: the clbits that it brings first, and then
one record. -/
theorem composeWrapped_ok (hopen : c.blocks = [])
    (hfree : p.bringClbits → ∀ r ∈ source.content.clbits.registers, ¬ c.TakenBy r) :
    ∃ l d, Edit.onlyIf p.bringClbits (Content.addClbitsOf source.content) c.content =
        .ok () { c.content with clbits := l } ∧
      l.bits = (p.host c source).content.clbits.bits ∧
      Content.addRecords front [.make (.custom op) p.qubits p.clbits]
        { c.content with clbits := l } = .ok () d ∧
      composeWrapped source front p c = .ok () { c with content := d } := by
  obtain ⟨l, hl, hsound, hbits, -⟩ := hp.bring_ok hc hsource fun hbring r hr =>
    Decidable.not_not.1 (hfree hbring r hr)
  have hqubits : op.numQubits = source.numQubits := by
    obtain ⟨_, rfl⟩ := toOperation_eq_ok hop
    rfl
  have hclbits : op.numClbits = source.numClbits := by
    obtain ⟨_, rfl⟩ := toOperation_eq_ok hop
    rfl
  have hwidth := hp.clbits_width hbits
  have hfits : Instruction.Fits { c.content with clbits := l }
      (.make (.custom op) p.qubits p.clbits) :=
    ⟨hp.qubits.range, hwidth.range, hp.qubits.length.trans hqubits.symm,
      hwidth.length.trans hclbits.symm, hp.qubits.nodup, hwidth.nodup, Surroundings.cover_nil _⟩
  obtain ⟨t, ht⟩ := @Content.addRecords_ok { c.content with clbits := l } _
    [.make (.custom op) p.qubits p.clbits] hsound hp.takesParameters
    (fun i hi => List.mem_singleton.1 hi ▸ hfits)
    (fun i hi u hu => by
      rw [List.mem_singleton.1 hi] at hu
      exact mem_freeParameters_of_toOperation hop hu) front
  have hbring : Edit.onlyIf p.bringClbits (Edit.within contentFocus
      (Content.addClbitsOf source.content)) c =
      .ok () { c with content := { c.content with clbits := l } } := by
    rw [Edit.onlyIf_within_apply (by cases c; rfl)]
    exact Edit.within_eq_ok_iff.2 ⟨_, hl, rfl⟩
  refine ⟨l, _, hl, hbits, ht, ?_⟩
  -- a wrapped circuit is one record, appended by the scope unless it goes in front
  rw [composeWrapped, Edit.bind_apply_of_ok (Edit.ofExcept_eq_ok_iff.2 ⟨hop, rfl⟩),
    Edit.bind_apply_of_ok hbring]
  cases front with
  | true => exact Edit.within_eq_ok_iff.2 ⟨_, ht, rfl⟩
  | false =>
    obtain ⟨_, d, hpush, hrest⟩ := Edit.bind_eq_ok_iff.1 ht
    cases hrest
    refine Eq.trans (append_of_closed hopen) ?_
    exact Edit.within_eq_ok_iff.2 ⟨_, hpush, rfl⟩

/-- If a register clashes, it is refused with the clbits of the source in. -/
theorem composeWrapped_clash (hbring : p.bringClbits)
    (hclash : ∃ r ∈ source.content.clbits.registers, c.TakenBy r) :
    ∃ e l, composeWrapped source front p c =
        .error e { c with content := { c.content with clbits := l } } ∧
      l.bits = source.content.clbits.bits := by
  obtain ⟨e, l, hl, hbits⟩ := Content.addClbitsOf_clash hc.clbits hsource.clbits
    (hp.empty_of_brings hbring) (hp.names hbring) hclash
  refine ⟨e, l, ?_, hbits⟩
  rw [composeWrapped, Edit.bind_apply_of_ok (Edit.ofExcept_eq_ok_iff.2 ⟨hop, rfl⟩)]
  refine Edit.bind_eq_error_iff.2 (.inl ?_)
  rw [hbring]
  exact Edit.within_eq_error_iff.2 ⟨_, hl, rfl⟩

end Wrapped

/-! ## The phase -/

section Phase

variable {d : Content}

/-- The phase comes in unless the check of names refuses it, and a refusal takes the old
phase back. -/
theorem addPhase_apply (hd : s.Made source.content o.front c.content d) :
    Content.addPhase source.content.phase d =
      match (c.indexForPhase o s).check (c.phaseSum source).parameters with
      | .ok () => .ok () { d with
          table := (c.indexForPhase o s).trackPhase (c.phaseSum source).parameters
          phase := c.phaseSum source }
      | .error e => .error e { d with
          table := (c.indexForPhase o s).trackPhase c.content.phase.parameters } := by
  rw [Content.addPhase, Edit.get_bind_apply, hd.phase]
  unfold Content.setPhase
  simp only [hd.table, hd.phase]
  rfl

/-- Giving the phase up and taking it back leaves the notes of an exact index. -/
theorem notes_retaken_iff {t : ParameterTable} {ps : List Parameter} (ht : t.WellFormed)
    (hphase : ∀ p ∈ ps, t.Notes .phase p) {site : ParameterUse} {p : Parameter} :
    ((t.untrackPhase ps).trackPhase ps).Notes site p ↔ t.Notes site p := by
  rw [ParameterTable.notes_trackPhase_iff, ht.notes_untrackPhase_iff,
    ParameterTable.mem_phaseUses_iff]
  constructor
  · rintro (⟨hnotes, -⟩ | ⟨rfl, hp⟩)
    · exact hnotes
    · exact hphase p hp
  · intro hnotes
    by_cases hp : site = .phase ∧ p ∈ ps
    · exact .inr hp
    · exact .inl ⟨hnotes, hp⟩

/-- Without new records the index notes what it noted. -/
theorem indexWith_nil (hindexed : c.content.Indexed) (front : Bool) :
    (c.content.indexWith front []).WellFormed ∧
      ∀ site p, (c.content.indexWith front []).Notes site p ↔ c.content.table.Notes site p := by
  cases front with
  | false => exact ⟨hindexed.wellFormed, fun _ _ => .rfl⟩
  | true =>
    have hanew := Content.Indexed.withRecords c.content c.content.records
    refine ⟨hanew.wellFormed, fun site p => ?_⟩
    refine (hanew.notes site p).trans (Iff.trans ?_ (hindexed.notes site p).symm)
    cases site <;> rfl

/-- What a refused phase leaves behind is as before unless something came in or a look-up
by name changed. -/
theorem retaken_sameAs_iff (hindexed : c.content.Indexed) (hp : c.Placed source o p)
    (hs : s.Sound c source p) (hd : s.Made source.content o.front c.content d) :
    Content.SameAs { d with
        table := (c.indexForPhase o s).trackPhase c.content.phase.parameters } c.content ↔
      ¬ (p.bringClbits ∨ s.records ≠ [] ∨ s.identifiers.additions ≠ [] ∨
        ∃ name, ((c.indexForPhase o s).trackPhase c.content.phase.parameters).named? name ≠
          c.content.table.named? name) := by
  obtain ⟨m, hplan⟩ := hs.plan
  constructor
  · rintro hsame (hbring | hrecords | hadditions | ⟨name, hname⟩)
    · -- each of the four leaves its own trace: bits, records, identifiers, a look-up by name
      have hbits : d.clbits = c.content.clbits := hsame.clbits
      have hsource := hd.clbits
      rw [if_pos (hs.placement ▸ hbring), hbits, hp.empty_of_brings hbring] at hsource
      exact hp.source_clbits hbring hsource.symm
    · refine hrecords (List.length_eq_zero_iff.1 ?_)
      have hlength := congrArg List.length (hd.records.symm.trans hsame.records)
      split at hlength <;> rw [List.length_append] at hlength <;> omega
    · have hnames := hplan.names
      rw [← hd.identifiers, show d.identifiers = _ from hsame.identifiers] at hnames
      exact hadditions (List.map_eq_nil_iff.1 (List.append_right_eq_self.1 hnames.symm))
    · exact hname (hsame.named name)
  · rw [not_or, not_or, not_or]
    rintro ⟨hbring, hrecords, hadditions, hnamed⟩
    have hrecords : s.records = [] := not_not.1 hrecords
    have hplanned := hplan.planned
    rw [not_not.1 hadditions] at hplanned
    have hidentifiers : c.content.identifiers = s.identifiers.planned := by
      simpa [IdentifierTable.addedAll, pure, Except.pure] using hplanned
    refine ⟨hd.qubits, hd.idle (hs.placement ▸ hbring) hrecords,
      hd.identifiers.trans hidentifiers.symm, ?_, hd.phase, fun site q => ?_, fun name => ?_⟩
    · show d.records = _
      rw [hd.records, hrecords, List.nil_append, List.append_nil, ite_self]
    · obtain ⟨hwell, hnotes⟩ := indexWith_nil hindexed o.front
      simp only [indexForPhase, hrecords]
      refine (notes_retaken_iff hwell fun r hr => ?_).trans (hnotes site q)
      exact (hnotes _ _).2 ((hindexed.notes _ _).2 hr)
    · exact not_not.1 fun hne => hnamed ⟨name, hne⟩

/-- The parameters of the sum of the phases are those of the phases. -/
theorem mem_parameters_phaseSum_iff {q : Parameter} : q ∈ (c.phaseSum source).parameters ↔
    q ∈ c.content.phase.parameters ∨ q ∈ source.content.phase.parameters := by
  simp only [ParamExpr.mem_parameters_iff, phaseSum, ParamExpr.symbols_normalizedPhase,
    ParamExpr.symbols_simplify]
  exact List.mem_append

/-- The parameters of the destination and of the source. -/
def InEither (c source : Circuit) (q : Parameter) : Prop :=
  c.content.table.contains q ∨ q ∈ source.parameters

theorem apart_inEither (hnamed : c.content.Named) (hp : c.Placed source o p) :
    ParameterTable.Apart (c.InEither source) :=
  hnamed.resolves.apart_of_check hp.parameters

theorem inEither_of_mem_phase (hnamed : c.content.Named) {q : Parameter}
    (hq : q ∈ c.content.phase.parameters) : c.InEither source q :=
  .inl (hnamed.contains_of_phase hq)

theorem inEither_of_mem_phaseSum (hnamed : c.content.Named) (hindexed : source.content.Indexed)
    {q : Parameter} (hq : q ∈ (c.phaseSum source).parameters) : c.InEither source q := by
  rcases mem_parameters_phaseSum_iff.1 hq with hq | hq
  · exact inEither_of_mem_phase hnamed hq
  · exact .inr (hindexed.mem_parameters_iff.2 ⟨.phase, hq⟩)

/-- Once the records are in, the index lists parameters of either, which have names apart. -/
theorem over_indexWith (hnamed : c.content.Named) (hindexed : source.content.Indexed)
    (hp : c.Placed source o p) (hs : s.Sound c source p) :
    ParameterTable.Over (c.InEither source) (c.content.indexWith o.front s.records) := by
  have hapart := apart_inEither hnamed hp
  have hold : ∀ i ∈ c.content.records, ∀ u ∈ i.operation.freeParameters, c.InEither source u.2 :=
    fun i hi u hu => .inl (hnamed.contains_of_record hi hu)
  have hnew : ∀ i ∈ s.records, ∀ u ∈ i.operation.freeParameters, c.InEither source u.2 :=
    fun i hi u hu => .inr (hs.parameters hindexed i hi u hu)
  have hslots : ∀ {records : List Instruction},
      (∀ i ∈ records, ∀ u ∈ i.operation.freeParameters, c.InEither source u.2) →
      ∀ slots ∈ records.map (·.operation.freeParameters), ∀ u ∈ slots, c.InEither source u.2 := by
    intro records h slots hslots
    obtain ⟨i, hi, rfl⟩ := List.mem_map.1 hslots
    exact h i hi
  unfold Content.indexWith
  split
  · rw [ParameterTable.build_eq_trackFrom]
    refine ((ParameterTable.Over.empty _).trackPhase hapart
      fun q hq => inEither_of_mem_phase hnamed hq).trackFrom hapart 0 ?_
    exact hslots (List.forall_mem_append.2 ⟨hnew, hold⟩)
  · refine ParameterTable.Over.trackFrom ⟨hnamed.wellFormed, hnamed.resolves, ?_⟩ hapart _
      (hslots hnew)
    exact fun q hq => .inl hq

/-- Where names are unique and resolved, the sum of the phases is not refused. -/
theorem phaseSum_admitted (hnamed : c.content.Named) (hindexed : source.content.Indexed)
    (hp : c.Placed source o p) (hs : s.Sound c source p) :
    (c.indexForPhase o s).check (c.phaseSum source).parameters = .ok () := by
  have hwithout := (over_indexWith hnamed hindexed hp hs).untrackPhase c.content.phase.parameters
  exact (Content.TakesParameters.of_over hwithout (apart_inEither hnamed hp)).check
    fun q hq => inEither_of_mem_phaseSum hnamed hindexed hq

end Phase

/-! ## All refused compositions -/

/-- A circuit with other clbits than before is not the same. -/
theorem not_sameAs_of_clbits {l : BitList .classical} (hp : c.Placed source o p)
    (hbring : p.bringClbits) (hl : l.bits = source.content.clbits.bits) :
    ¬ Circuit.SameAs { c with content := { c.content with clbits := l } } c := by
  intro hsame
  have hclbits : l = c.content.clbits := hsame.content.clbits
  rw [hclbits, hp.empty_of_brings hbring] at hl
  exact hp.source_clbits hbring hl.symm

/-- A composition that is given a place goes on as one operation or with a splice. -/
theorem compose_apply_of_place (hplace : c.place source o = .ok p) : compose source o c =
    (if o.wrap then composeWrapped source o.front p
      else (do
        let s ← Edit.ofExcept (c.splice source o p)
        if c.inScope then addSpliceInScope s
        else Edit.within contentFocus (Content.addSplice source.content o.front s)) :
      Edit Circuit Unit) c := by
  rw [compose, Edit.get_bind_apply]
  exact Edit.bind_apply_of_ok (Edit.ofExcept_eq_ok_iff.2 ⟨hplace, rfl⟩)

theorem compose_refused_of_place {e : CircuitError} (hplace : c.place source o = .error e) :
    compose source o c = .error e c := by
  rw [compose, Edit.get_bind_apply, hplace]
  rfl

theorem place_of_ok (h : compose source o c = .ok () d) : ∃ p, c.place source o = .ok p := by
  cases hplace : c.place source o with
  | ok p => exact ⟨p, rfl⟩
  | error cause =>
    rw [compose_refused_of_place hplace] at h
    cases h

/-- Up to where it is worked out, a composition changes nothing. -/
theorem place_of_changed (h : c.ChangedByRefusal source o) : ∃ p, c.place source o = .ok p := by
  obtain ⟨e, d, hd, hchanged⟩ := h
  cases hplace : c.place source o with
  | ok p => exact ⟨p, rfl⟩
  | error cause =>
    rw [compose_refused_of_place hplace] at hd
    cases hd
    exact absurd (.refl c) hchanged

theorem toOperation_of_changed (hplace : c.place source o = .ok p) (hwrap : o.wrap = true)
    (h : c.ChangedByRefusal source o) : ∃ op, source.toOperation = .ok op := by
  obtain ⟨e, d, hd, hchanged⟩ := h
  cases hop : source.toOperation with
  | ok op => exact ⟨op, rfl⟩
  | error cause =>
    rw [compose_apply_of_place hplace, if_pos hwrap, composeWrapped, hop] at hd
    cases hd
    exact absurd (.refl c) hchanged

theorem splice_of_changed (hplace : c.place source o = .ok p) (hwrap : ¬ o.wrap = true)
    (h : c.ChangedByRefusal source o) : ∃ s, c.splice source o p = .ok s := by
  obtain ⟨e, d, hd, hchanged⟩ := h
  cases hsplice : c.splice source o p with
  | ok s => exact ⟨s, rfl⟩
  | error cause =>
    rw [compose_apply_of_place hplace, if_neg hwrap, hsplice] at hd
    cases hd
    exact absurd (.refl c) hchanged

/-- What is left of a composition that is worked out is to make the splice. -/
theorem compose_apply_of_splice (hopen : c.blocks = []) (hplace : c.place source o = .ok p)
    (hwrap : ¬ o.wrap = true) (hsplice : c.splice source o p = .ok s) :
    compose source o c =
      Edit.within contentFocus (Content.addSplice source.content o.front s) c := by
  rw [compose_apply_of_place hplace, if_neg hwrap,
    Edit.bind_apply_of_ok (Edit.ofExcept_eq_ok_iff.2 ⟨hsplice, rfl⟩)]
  have hscope : c.inScope = false := by simp [inScope, hopen]
  simp only [hscope, Bool.false_eq_true, if_false]

section Outcome

variable (hc : c.content.Orderly) (hsource : source.content.Orderly) (hp : c.Placed source o p)
  (hopen : c.blocks = []) (hplace : c.place source o = .ok p)
include hc hsource hp hopen hplace

/-- A wrapped composition changes the destination and is refused when a register clashes. -/
theorem compose_wrapped_changes_iff (hwrap : o.wrap = true) {op : CustomOp}
    (hop : source.toOperation = .ok op) :
    c.ChangedByRefusal source o ↔
      p.bringClbits ∧ ∃ r ∈ source.content.clbits.registers, c.TakenBy r := by
  have hrun : compose source o c = composeWrapped source o.front p c := by
    rw [compose_apply_of_place hplace, if_pos hwrap]
  rw [ChangedByRefusal, hrun]
  constructor
  · rintro ⟨e, d, hd, -⟩
    by_contra hnone
    obtain ⟨l, d', -, -, -, hd'⟩ := composeWrapped_ok hc hsource hp hop o.front hopen
      fun hbring r hr htaken => hnone ⟨hbring, r, hr, htaken⟩
    rw [hd'] at hd
    cases hd
  · rintro ⟨hbring, hclash⟩
    obtain ⟨e, l, hl, hbits⟩ := composeWrapped_clash hc hsource hp hop o.front hbring hclash
    exact ⟨e, _, hl, not_sameAs_of_clbits hp hbring hbits⟩

/-- A spliced composition changes the destination and is refused when a register clashes,
or else when the phase is refused and that leaves a trace. -/
theorem compose_spliced_changes_iff (hwrap : ¬ o.wrap = true) (hs : s.Sound c source p)
    (hsplice : c.splice source o p = .ok s) (hindexed : c.content.Indexed)
    (hsourceIndexed : source.content.Indexed) :
    c.ChangedByRefusal source o ↔
      (p.bringClbits ∧ ∃ r ∈ source.content.clbits.registers ++ s.aliases, c.TakenBy r) ∨
      PhaseClash.At c source o p s := by
  rw [ChangedByRefusal, compose_apply_of_splice hopen hplace hwrap hsplice]
  by_cases hclash : p.bringClbits ∧ ∃ r ∈ source.content.clbits.registers ++ s.aliases, c.TakenBy r
  · -- a clash is refused with the source's clbits in, which is a change by itself
    refine iff_of_true ?_ (.inl hclash)
    obtain ⟨hbring, hclash⟩ := hclash
    obtain ⟨e, l, hl, hbits⟩ := hs.enter_clash hc hsource hp hbring hclash o.front
    exact ⟨e, _, Edit.within_eq_error_iff.2 ⟨_, hl, rfl⟩, not_sameAs_of_clbits hp hbring hbits⟩
  · -- without a clash all comes in up to the phase, so only the phase is left to be refused
    obtain ⟨d, hd, happly⟩ := Splice.Sound.made hc hsource hsourceIndexed hp hs
      (fun hbring r hr => not_not.1 fun hne => hclash ⟨hbring, r, hr, hne⟩) o.front
    have hsame := retaken_sameAs_iff hindexed hp hs hd
    have hcontent : ∀ u : Content, Circuit.SameAs { c with content := u } c ↔ u.SameAs c.content :=
      fun u => ⟨fun h => h.content, fun h => ⟨rfl, rfl, h⟩⟩
    simp only [hclash, false_or]
    constructor
    · rintro ⟨e, d', herror, hchanged⟩
      obtain ⟨u, hu, rfl⟩ := Edit.within_eq_error_iff.1 herror
      replace hu : Content.addSplice source.content o.front s c.content = .error e u := hu
      rw [happly] at hu
      cases hphase : source.content.phase.isPhase with
      | false =>
        rw [hphase] at hu
        cases hu
      | true =>
        rw [hphase] at hu
        replace hu : Content.addPhase source.content.phase d = .error e u := hu
        rw [addPhase_apply hd] at hu
        split at hu
        · cases hu
        · rename_i cause hcheck
          cases hu
          refine ⟨hwrap, hplace, hsplice, hphase, by simp [hcheck], ?_⟩
          exact not_not.1 fun hnone => hchanged ((hcontent _).2 (hsame.2 hnone))
    · rintro ⟨-, -, -, hphase, hrefused, hchanged⟩
      cases hcheck : (c.indexForPhase o s).check (c.phaseSum source).parameters with
      | ok u => exact absurd hcheck hrefused
      | error e =>
        refine ⟨e, _, Edit.within_eq_error_iff.2 ⟨_, ?_, rfl⟩,
          fun h => hsame.1 ((hcontent _).1 h) hchanged⟩
        show Content.addSplice source.content o.front s c.content = _
        rw [happly, hphase]
        show Content.addPhase source.content.phase d = _
        rw [addPhase_apply hd, hcheck]

end Outcome

/-- A composition onto a reached circuit without open blocks changes the destination and
is refused exactly when a register clashes or, names being ambiguous there, the phase is
refused. All other refused compositions leave the destination as it was. -/
theorem Reachable.compose_changes_iff {A : Policy} (hc : c.Reachable A)
    (hsource : source.Reachable A) (hopen : c.blocks = []) (o : ComposeOptions) :
    (c.ChangedByRefusal source o ↔ c.RegisterClash source o ∨ c.PhaseClash source o) ∧
      (c.content.NamesExact → ¬ c.PhaseClash source o) := by
  have horderly := hc.built.orderly
  have hsourceOrderly := hsource.built.orderly
  have hindexed := (hc.built.everywhere_any Content.indexed_invariant).here
  have hsourceIndexed := (hsource.built.everywhere_any Content.indexed_invariant).here
  refine ⟨⟨?_, ?_⟩, ?_⟩
  · intro hchanged
    obtain ⟨p, hplace⟩ := place_of_changed hchanged
    have hp := place_eq_ok hopen hplace
    by_cases hwrap : o.wrap = true
    · obtain ⟨op, hop⟩ := toOperation_of_changed hplace hwrap hchanged
      obtain ⟨hbring, r, hr, htaken⟩ :=
        (compose_wrapped_changes_iff horderly hsourceOrderly hp hopen hplace hwrap hop).1 hchanged
      exact .inl (.wrapped p op r hwrap hplace hop hbring hr htaken)
    · obtain ⟨s, hsplice⟩ := splice_of_changed hplace hwrap hchanged
      have hs := splice_eq_ok hopen hsource.built hsplice
      rcases (compose_spliced_changes_iff horderly hsourceOrderly hp hopen hplace hwrap hs hsplice
        hindexed hsourceIndexed).1 hchanged with ⟨hbring, r, hr, htaken⟩ | hat
      · exact .inl (.spliced p s r hwrap hplace hsplice hbring hr htaken)
      · exact .inr ⟨p, s, hat⟩
  · rintro ((⟨p, op, r, hwrap, hplace, hop, hbring, hr, htaken⟩ |
      ⟨p, s, r, hwrap, hplace, hsplice, hbring, hr, htaken⟩) | ⟨p, s, hat⟩)
    · exact (compose_wrapped_changes_iff horderly hsourceOrderly (place_eq_ok hopen hplace) hopen
        hplace hwrap hop).2 ⟨hbring, r, hr, htaken⟩
    · have hs := splice_eq_ok hopen hsource.built hsplice
      exact (compose_spliced_changes_iff horderly hsourceOrderly (place_eq_ok hopen hplace) hopen
        hplace hwrap hs hsplice hindexed hsourceIndexed).2 (.inl ⟨hbring, r, hr, htaken⟩)
    · have hs := splice_eq_ok hopen hsource.built hat.splice
      exact (compose_spliced_changes_iff horderly hsourceOrderly (place_eq_ok hopen hat.place) hopen
        hat.place hat.spliced hs hat.splice hindexed hsourceIndexed).2 (.inr hat)
  · rintro hnames ⟨p, s, hat⟩
    have hp := place_eq_ok hopen hat.place
    have hs := splice_eq_ok hopen hsource.built hat.splice
    exact hat.refused (phaseSum_admitted ⟨hindexed, Content.namesExact_iff.1 hnames⟩
      hsourceIndexed hp hs)

/-- A circuit with one register, of `size` clbits, called `cr`. -/
def onRegister (name : String) (size stamp : Nat) : Circuit :=
  let register := Register.make .classical "cr" size stamp
  ⟨name, Content.empty.after [.addRegister .classical register], []⟩

theorem onRegister_reachable (name : String) (size stamp : Nat) :
    (onRegister name size stamp).Reachable .any :=
  .ofStore name (.empty_after rfl)

/-- An empty register in the destination is in the way of the source's register. -/
theorem compose_changes_of_equal_names :
    (onRegister "d" 0 1).Reachable .any ∧ (onRegister "s" 1 2).Reachable .any ∧
      (onRegister "d" 0 1).blocks = [] ∧
      (onRegister "d" 0 1).ChangedByRefusal (onRegister "s" 1 2) {} := by
  have hc := onRegister_reachable "d" 0 1
  have hsource := onRegister_reachable "s" 1 2
  refine ⟨hc, hsource, rfl, (hc.compose_changes_iff hsource rfl {}).1.2 (.inl ?_)⟩
  exact .spliced ⟨[], [0], true⟩ ⟨⟨[], [0], true⟩, ⟨.empty, [], [], []⟩, [], []⟩
    (Register.make .classical "cr" 1 2) Bool.false_ne_true rfl rfl rfl List.mem_cons_self
    (Option.isSome_iff_ne_none.1 (by decide +kernel))

/-- Not every refused composition leaves the destination as it was. -/
theorem compose_not_atomic :
    ¬ ∀ c source : Circuit, c.Reachable .any → source.Reachable .any → c.blocks = [] →
      ∀ o e d, compose source o c = .error e d → d.SameAs c := by
  intro hatomic
  let clbitsAfter : Nat :=
    match compose (onRegister "s" 1 2) {} (onRegister "d" 0 1) with
    | .ok _ _ => 0
    | .error _ d => d.numClbits
  have hone : clbitsAfter = 1 := by decide +kernel
  cases hrun : compose (onRegister "s" 1 2) {} (onRegister "d" 0 1) with
  | ok a d => simp [clbitsAfter, hrun] at hone
  | error e d =>
    have hsame := hatomic _ _ (onRegister_reachable "d" 0 1) (onRegister_reachable "s" 1 2) rfl
      {} e d hrun
    have hclbits : d.numClbits = 0 := congrArg BitList.size hsame.content.clbits
    simp [clbitsAfter, hrun, hclbits] at hone

end Circuit

end QuantumCircuit
