import QuantumCircuit.Proofs.Composed
import QuantumCircuit.Proofs.Restoring

/-!
# Adding a circuit as one operation

What a composition makes when the source has no identifiers and stands as one operation in
the one case, and is spliced in in the other. The two results have the same bits and the same
identifiers, and the first uses no parameter that the second does not use; but aliases come in
with the splice only. `Circuit.WrapOf` says so, and `Circuit.WrapOf.step` that one more source
keeps it: where it can be spliced in, it can be added as an operation.

All this is about circuits in which names resolve (`Circuit.Ready`). A splice keeps that
(`Circuit.Outcome.named`).
-/

namespace QuantumCircuit

namespace Content

variable {c : Content}

/-- An index that looks names up among fewer parameters takes what the other takes. -/
theorem Named.check_of_contains {d : Content} (hc : c.Named) (hd : d.table.Honest)
    (hsub : ∀ q, d.table.contains q → c.table.contains q) {ps : List Parameter}
    (hps : c.table.check ps = .ok ()) : d.table.check ps = .ok () := by
  obtain ⟨hadmits, hapart⟩ := ParameterTable.check_eq_ok_iff.1 hps
  refine ParameterTable.check_eq_ok_iff.2 ⟨fun q hq r hr => hadmits q hq r ?_, hapart⟩
  obtain ⟨hthere, hname⟩ := hd _ _ hr
  exact (hc.resolves _ _).2 ⟨hsub r hthere, hname⟩

end Content

/-- A phase with a parameter has to be added. -/
theorem ParamExpr.isPhase_of_mem {e : Angle} {p : Parameter} (hp : p ∈ e.parameters) :
    e.isPhase = true := by
  refine isPhase_iff.2 fun x hx => ?_
  rw [mem_parameters_iff, symbols_eq_nil_of_eval hx] at hp
  exact absurd hp List.not_mem_nil

/-- Without anything to rename, an operation keeps its parameters where they are. -/
theorem LeafMap.freeParameters_of_operationAmong {m : LeafMap}
    {aliases : List ClassicalRegister} (hsame : m.identifiers.changesAny = false)
    {op op' : Operation} (h : m.operationAmong aliases op = .ok op') :
    op'.freeParameters = op.freeParameters := by
  cases op with
  | store a =>
    obtain ⟨a', -, h⟩ := Checking.bind_eq_ok_iff.1 h
    cases h
    rfl
  | delay d =>
    obtain ⟨d', -, h⟩ := Checking.bind_eq_ok_iff.1 h
    cases h
    rfl
  | control flow =>
    obtain ⟨mapped, hmapped, h⟩ := Checking.bind_eq_ok_iff.1 h
    rw [hsame] at h
    cases h
    have halike := ControlFlow.mapLeaves_eq_ok hmapped
    simp only [Operation.freeParameters, halike.bodies, halike.loopParameter?]
  | gate | custom | measure | reset | barrier =>
    cases h
    rfl

namespace Circuit

variable {A : Policy} {c source d : Circuit} {o : ComposeOptions} {p : Placement} {s : Splice}
  {images : Renaming} {u : Content}

namespace Outcome

variable (h : Outcome c source o d p s images u)
include h

/-- A composition keeps names where the destination resolves them. -/
theorem named (hc : c.content.Named) (hsource : source.content.Indexed)
    (hd : d.content.Indexed) : d.content.Named := by
  refine ⟨hd, ?_⟩
  have hover := over_indexWith hc hsource h.placed h.sound
  have hphase := h.phase
  cases hadded : source.content.phase.isPhase with
  | false =>
    rw [hadded] at hphase
    cases hphase
    rw [h.made.table]
    exact hover.resolves
  | true =>
    rw [hadded] at hphase
    replace hphase : Content.addPhase source.content.phase u = .ok () d.content := hphase
    rw [addPhase_apply h.made, phaseSum_admitted hc hsource h.placed h.sound] at hphase
    rw [← (EStateM.Result.ok.inj hphase).2]
    exact ((hover.untrackPhase _).trackPhase (apart_inEither hc h.placed)
      fun q hq => inEither_of_mem_phaseSum hc hsource hq).resolves

/-- What is in use after a composition was so in the destination or in the source. -/
theorem inEither_of_contains (hc : c.content.Indexed) (hsource : source.content.Indexed)
    (hd : d.content.Indexed) {q : Parameter} (hq : d.content.table.contains q) :
    c.InEither source q := by
  rcases hd.contains_iff_listed.1 hq with hq | ⟨i, hi, v, hv, rfl⟩
  · rw [h.frame.2.2.2.2, h.made.phase] at hq
    split at hq
    · rcases mem_parameters_phaseSum_iff.1 hq with hq | hq
      · exact .inl (hc.contains_of_phase hq)
      · exact .inr (hsource.mem_parameters_iff.2 ⟨.phase, hq⟩)
    · exact .inl (hc.contains_of_phase hq)
  · have hmem : i ∈ s.records ∨ i ∈ c.content.records := by
      rw [h.records] at hi
      split at hi
      · exact List.mem_append.1 hi
      · exact (List.mem_append.1 hi).symm
    rcases hmem with hi | hi
    · exact .inr (h.sound.parameters hsource i hi v hv)
    · exact .inl (hc.contains_of_record hi hv)

/-- All parameters of the destination and of a source without identifiers are in use then. -/
theorem contains_of_inEither (hc : c.content.Indexed) (hsource : source.content.Indexed)
    (hd : d.content.Indexed) (hfront : o.front = false) (hsame : images.changesAny = false)
    {q : Parameter} (hq : c.InEither source q) : d.content.table.contains q := by
  have hrecords := h.records
  rw [hfront, if_neg Bool.false_ne_true] at hrecords
  have hphase := h.frame.2.2.2.2
  rcases hq with hq | hq
  · rcases hc.contains_iff_listed.1 hq with hq | ⟨i, hi, v, hv, rfl⟩
    · refine hd.contains_of_phase ?_
      rw [hphase]
      split
      · exact mem_parameters_phaseSum_iff.2 (.inl hq)
      · rwa [h.made.phase]
    · exact hd.contains_of_record (hrecords ▸ List.mem_append_left _ hi) hv
  · rcases hsource.contains_iff_listed.1 (hsource.wellFormed.mem_sorted_iff.1 hq) with
      hq | ⟨i, hi, v, hv, rfl⟩
    · refine hd.contains_of_phase ?_
      rw [hphase, if_pos (ParamExpr.isPhase_of_mem hq)]
      exact mem_parameters_phaseSum_iff.2 (.inr hq)
    · obtain ⟨i', hi', op, hop, rfl⟩ := Checking.exists_right h.moved hi
      refine hd.contains_of_record (hrecords ▸ List.mem_append_right _ hi') ?_
      exact LeafMap.freeParameters_of_operationAmong hsame hop ▸ hv

/-- A register that is brought has a name that the destination has not. -/
theorem not_taken (hbring : p.bringClbits = true) :
    ∀ r ∈ source.content.clbits.registers, ¬ c.TakenBy r := by
  intro r hr
  have hnames := h.made.sound.names
  rw [← h.frame.2.1, h.registers, if_pos hbring, List.map_append, List.map_append] at hnames
  have hapart := (List.nodup_append.1 (List.nodup_append.1 hnames).1).2.2
  refine not_not.2 (BitList.register?_eq_none_iff.2 fun hmem => ?_)
  exact hapart _ hmem _ (List.mem_map_of_mem hr) rfl

theorem not_brings (hbits : d.content.clbits.bits = []) : p.bringClbits = false := by
  by_contra hbring
  rw [Bool.not_eq_false] at hbring
  have hclbits := h.clbits
  rw [hbits, Placement.host_of_brings hbring] at hclbits
  exact h.placed.source_clbits hbring hclbits.symm

/-- Without clbits an alias would be empty. -/
theorem aliases_eq_nil (hregisters : ∀ r ∈ d.content.clbits.registers, r.bits ≠ [])
    (hbits : d.content.clbits.bits = []) : s.aliases = [] := by
  refine List.eq_nil_iff_forall_not_mem.2 fun a ha => ?_
  refine hregisters a (h.registers ▸ List.mem_append_right _ ha) ?_
  refine List.eq_nil_iff_forall_not_mem.2 fun bit hbit => ?_
  have hlisted := h.sound.bits a ha bit hbit
  rw [← h.clbits, hbits] at hlisted
  exact List.not_mem_nil hlisted

/-- The list of clbits is made from the old one, what is brought and the aliases. -/
theorem entered : (Edit.onlyIf p.bringClbits (BitList.takeOver source.content.clbits) >>= fun _ =>
    Edit.each BitList.addRegister s.aliases) c.content.clbits = .ok () d.content.clbits := by
  rw [h.frame.2.1, ← h.settled.placement]
  exact h.made.entered

/-- So as long as there are no clbits, their list is the old one. -/
theorem clbits_eq (hregisters : ∀ r ∈ d.content.clbits.registers, r.bits ≠ [])
    (hbits : d.content.clbits.bits = []) : d.content.clbits = c.content.clbits := by
  have hentered := h.entered
  rw [h.not_brings hbits, h.aliases_eq_nil hregisters hbits] at hentered
  exact (EStateM.Result.ok.inj hentered).2.symm

section NoIdentifiers

variable (hnone : source.content.identifiers.toList = [])
include hnone

theorem images_eq_nil : images = [] := by
  have hresolved := h.settled.resolved
  rw [hnone] at hresolved
  cases hresolved
  rfl

theorem identifiers_eq : d.content.identifiers = c.content.identifiers := by
  have hplan := h.settled.plan
  rw [IdentifierPlan.make, hnone] at hplan
  rw [h.frame.2.2.1, h.made.identifiers, ← Except.ok.inj hplan]

end NoIdentifiers

end Outcome

/-! ## One operation -/

/-- Where a source goes depends on the number of bits, the identifiers and the names of parameters
in the destination only. -/
theorem place_congr {w : Circuit} (hblocks : w.blocks = c.blocks)
    (hqubits : w.numQubits = c.numQubits) (hclbits : w.numClbits = c.numClbits)
    (hidentifiers : w.content.identifiers = c.content.identifiers)
    (hcheck : w.content.table.check source.parameters = c.content.table.check source.parameters)
    (wrap : Bool) : w.place source { o with wrap := wrap } = c.place source o := by
  simp only [place, inScope, hblocks, hqubits, hclbits, hidentifiers, hcheck]
  rfl

/-- A reached circuit without open blocks in which names resolve. -/
structure Ready (A : Policy) (c : Circuit) : Prop where
  reachable : c.Reachable A
  closed : c.blocks = []
  named : c.content.Named

/-- A reached circuit that can stand as one operation. -/
structure Wrappable (A : Policy) (source : Circuit) : Prop where
  reachable : source.Reachable A
  closed : source.blocks = []
  identifiers : source.content.identifiers.isEmpty

namespace Wrappable

variable (h : source.Wrappable A)
include h

theorem indexed : source.content.Indexed :=
  h.reachable.built.indexed

theorem toList_eq_nil : source.content.identifiers.toList = [] := by
  rw [IdentifierTable.toList, List.isEmpty_iff.1 h.identifiers]
  rfl

theorem toOperation_ok : ∃ op, source.toOperation = .ok op := by
  unfold toOperation
  split
  · exact ⟨_, rfl⟩
  · exact ⟨_, toInstruction_eq_ok_iff.2 ⟨h.closed, h.identifiers, rfl⟩⟩

end Wrappable

/-- A composition that answers onto a circuit in which names resolve. -/
theorem outcome_of_compose (hc : c.Ready A) (hsource : source.Wrappable A) (hwrap : o.wrap = false)
    (h : compose source o c = .ok () d) :
    ∃ p s u, Outcome c source o d p s [] u ∧ d.Ready A := by
  obtain ⟨p, s, images, u, hout⟩ :=
    compose_outcome hc.reachable hsource.reachable hc.closed hwrap h
  have hreach : d.Reachable A :=
    Reachable.compose hsource.reachable.built _ _ _ hc.reachable (.of_ok h)
  have hindexed := hreach.built.indexed
  obtain rfl := hout.images_eq_nil hsource.toList_eq_nil
  exact ⟨p, s, u, hout, hreach, hout.blocks.trans hc.closed,
    hout.named hc.named hsource.indexed hindexed⟩

/-- The circuit with this list of clbits and one more operation. -/
def withOperation (w : Circuit) (l : BitList .classical) (op : CustomOp) (p : Placement) :
    Circuit :=
  let content := { w.content with clbits := l }
  { w with content := content.snoc (.make (.custom op) p.qubits p.clbits) }

/-- A source that has a place is added as one operation, if none of its registers clashes. -/
theorem compose_withOperation {w : Circuit} (hw : w.Reachable A) (hclosed : w.blocks = [])
    (hsource : source.Wrappable A) (hfront : o.front = false)
    (hplace : w.place source { o with wrap := true } = .ok p)
    (hfree : p.bringClbits → ∀ r ∈ source.content.clbits.registers, ¬ w.TakenBy r) :
    ∃ op l, source.toOperation = .ok op ∧
      Edit.onlyIf p.bringClbits (BitList.takeOver source.content.clbits) w.content.clbits =
        .ok () l ∧
      l.bits = (p.host w source).content.clbits.bits ∧
      compose source { o with wrap := true } w = .ok () (w.withOperation l op p) := by
  obtain ⟨op, hop⟩ := hsource.toOperation_ok
  obtain ⟨l, v, hl, hbits, hv, hrun⟩ := composeWrapped_ok hw.built.orderly
    hsource.reachable.built.orderly (place_eq_ok hclosed hplace) hop false hclosed hfree
  obtain ⟨_, v', hpush, hrest⟩ := Edit.bind_eq_ok_iff.1 hv
  cases hrest
  obtain ⟨-, rfl⟩ := Content.push_eq_ok_iff.1 hpush
  refine ⟨op, l, hop, Content.clbits_of_onlyIf_addClbitsOf hl, hbits, ?_⟩
  rw [compose_apply_of_place hplace, if_pos rfl, hfront]
  exact hrun

/-- How the circuit `w` with circuits added as one operation each stands to the circuit `d` that
they are spliced into: it has the same bits and identifiers, no more parameters, and, as long as
there are no clbits, the same list of them. -/
structure WrapOf (A : Policy) (d w : Circuit) : Prop where
  reachable : w.Reachable A
  closed : w.blocks = []
  name : w.name = d.name
  qubits : w.content.qubits = d.content.qubits
  bits : w.content.clbits.bits = d.content.clbits.bits
  identifiers : w.content.identifiers = d.content.identifiers
  parameters : ∀ q, w.content.table.contains q → d.content.table.contains q
  bare : d.content.clbits.bits = [] → w.content.clbits = d.content.clbits

namespace WrapOf

variable {w : Circuit}

theorem refl (hc : c.Ready A) : WrapOf A c c :=
  ⟨hc.reachable, hc.closed, rfl, rfl, rfl, rfl, fun _ hq => hq, fun _ => rfl⟩

/-- What the one takes the other takes. -/
theorem check (h : WrapOf A c w) (hc : c.content.Named) {ps : List Parameter}
    (hps : c.content.table.check ps = .ok ()) : w.content.table.check ps = .ok () :=
  hc.check_of_contains h.reachable.built.honest h.parameters hps

/-- A source that can be spliced in can be added as one operation. -/
theorem step (hw : WrapOf A c w) (hc : c.Ready A) (hsource : source.Wrappable A)
    (hfront : o.front = false)
    (hout : Outcome c source { o with wrap := false } d p s [] u) (hd : d.Ready A)
    (hregisters : ∀ r ∈ d.content.clbits.registers, r.bits ≠ []) :
    ∃ op l, source.toOperation = .ok op ∧
      Edit.onlyIf p.bringClbits (BitList.takeOver source.content.clbits) w.content.clbits =
        .ok () l ∧
      compose source { o with wrap := true } w = .ok () (w.withOperation l op p) ∧
      WrapOf A d (w.withOperation l op p) := by
  have hsize : w.numClbits = c.numClbits := congrArg List.length hw.bits
  have hplace : w.place source { o with wrap := true } = .ok p := by
    have hcheck := hout.placed.parameters
    refine Eq.trans ?_ hout.place
    exact place_congr (hw.closed.trans hc.closed.symm) (congrArg BitList.size hw.qubits) hsize
      hw.identifiers ((hw.check hc.named hcheck).trans hcheck.symm) true
  obtain ⟨op, l, hop, hentered, hbits, hcompose⟩ := compose_withOperation hw.reachable hw.closed
    hsource hfront hplace fun hbring r hr => by
      rw [TakenBy, hw.bare (hout.placed.empty_of_brings hbring)]
      exact hout.not_taken hbring r hr
  have hreach : (w.withOperation l op p).Reachable A :=
    Reachable.compose hsource.reachable.built _ _ _ hw.reachable (.of_ok hcompose)
  have hindexed := hreach.built.indexed
  have hold := hw.reachable.built.indexed
  refine ⟨op, l, hop, hentered, hcompose, hreach, hw.closed, hw.name.trans hout.name.symm,
    ?_, ?_, ?_, fun q hq => ?_, fun hbare => ?_⟩
  · exact hw.qubits.trans (hout.frame.1.trans hout.made.qubits).symm
  · show l.bits = _
    rw [hbits, hout.clbits, Placement.bits_host, Placement.bits_host, hw.bits]
  · exact hw.identifiers.trans (hout.identifiers_eq hsource.toList_eq_nil).symm
  · -- the operation has the parameters of the source, and nothing else has come in
    refine hout.contains_of_inEither hc.named.toIndexed hsource.indexed hd.named.toIndexed hfront
      rfl ?_
    rcases hindexed.contains_iff_listed.1 hq with hq | ⟨i, hi, v, hv, rfl⟩
    · exact .inl (hw.parameters q (hold.contains_of_phase hq))
    · rcases List.mem_append.1 hi with hi | hi
      · exact .inl (hw.parameters v.2 (hold.contains_of_record hi hv))
      · rw [List.mem_singleton.1 hi] at hv
        exact .inr (mem_freeParameters_of_toOperation hop hv)
  · rw [hout.not_brings hbare] at hentered
    have hkept := hout.clbits_eq hregisters hbare
    rw [hkept] at hbare
    exact (EStateM.Result.ok.inj hentered).2.symm.trans ((hw.bare hbare).trans hkept.symm)

end WrapOf

end Circuit

end QuantumCircuit
