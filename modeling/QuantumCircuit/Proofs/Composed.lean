import QuantumCircuit.Proofs.Composing
import QuantumCircuit.Proofs.Scoping
import QuantumCircuit.Proofs.Standing

/-!
# What a composition makes

A composition onto a circuit without open blocks that answers, and does not wrap, is a
splice: the records of the source stand before or behind those that were there, on the
targets of their operands and with the kinds and labels that they had; identifiers of the
source come in under their images; bits, registers and the phase are as `Circuit.Spliced`
says (`Circuit.Reachable.compose_spliced`).

What conditions, switch targets and stores read goes along. For every register that they
read a register of the destination stands in, over the clbits that the bits of the
register go to; where there is none an alias under a name of its own is made
(`Circuit.Reachable.compose_keeps_registers`).
-/

namespace QuantumCircuit

/-- A phase is added unless it evaluates to zero. -/
theorem ParamExpr.isPhase_iff {e : Angle} :
    e.isPhase = true ↔ ∀ x, e.eval = some x → (x == 0) = false := by
  unfold ParamExpr.isPhase
  cases e.eval <;> simp

/-! ## The plan in full -/

namespace ComposeOptions

/-- Where the qubits of the source go: to the targets asked for, or to the first positions. -/
def qubitTargets (o : ComposeOptions) (source : Circuit) : List Nat :=
  o.qubits.getD (List.range source.numQubits)

/-- Where the clbits of the source go: to the targets asked for, or to the first positions. -/
def clbitTargets (o : ComposeOptions) (source : Circuit) : List Nat :=
  o.clbits.getD (List.range source.numClbits)

end ComposeOptions

theorem Circuit.place_targets {c source : Circuit} {o : ComposeOptions} {p : Placement}
    (h : c.place source o = .ok p) :
    p.qubits = o.qubitTargets source ∧ p.clbits = o.clbitTargets source := by
  have hp := place_eq_ok_iff.1 h
  exact ⟨(targetPositions_eq_ok_iff.1 hp.qubits).1.symm,
    (targetPositions_eq_ok_iff.1 hp.clbits).1.symm⟩

theorem IdentifierTable.toList_addedAll {t u : IdentifierTable}
    {additions : List (Identifier × IdentifierKind)} (h : t.addedAll additions = .ok u) :
    u.toList = t.toList ++ additions := by
  induction additions generalizing t with
  | nil =>
    cases h
    rw [List.append_nil]
  | cons e rest ih =>
    obtain ⟨v, hv, h⟩ := Checking.bind_eq_ok_iff.1 h
    obtain ⟨hcheck, rfl⟩ := added_eq_ok_iff.1 hv
    rw [ih h, toList_insert (get?_eq_none_of_check hcheck), List.append_assoc]
    rfl

/-- Whether an identifier of the source is a capture that is taken for one that is there. -/
def ComposeOptions.inlines (o : ComposeOptions) (e : Identifier × IdentifierKind) : Bool :=
  decide (e.2 = .capture) && o.inlineCaptures

namespace IdentifierPlan

variable {c source : Circuit} {o : ComposeOptions} {p : Placement} {m : Renaming}

/-- Without open blocks an identifier is added under its image, unless it is inlined. -/
theorem additions_of_step (hopen : c.blocks = []) {plan plan' : IdentifierPlan}
    {e : Identifier × IdentifierKind}
    (h : plan.step c source o p (m.apply e.1) e.2 = .ok plan') :
    plan'.additions = plan.additions ++ if o.inlines e then [] else [(m.apply e.1, e.2)] := by
  have hscope : c.inScope = false := by simp [Circuit.inScope, hopen]
  simp only [step, hscope, Bool.false_eq_true, if_false] at h
  split at h
  · rename_i hinlined
    have hinlines : o.inlines e = true := by simpa [ComposeOptions.inlines] using hinlined
    split at h
    · cases h
      rw [if_pos hinlines, List.append_nil]
    · cases h
  · rename_i hinlined
    have hinlines : ¬ o.inlines e = true := by simpa [ComposeOptions.inlines] using hinlined
    split at h
    · cases h
    · obtain ⟨planned, -, h⟩ := Checking.bind_eq_ok_iff.1 h
      cases h
      rw [if_neg hinlines]

theorem additions_of_make (hopen : c.blocks = []) {plan : IdentifierPlan}
    (h : make c source o p m = .ok plan) :
    plan.additions =
      (source.content.identifiers.toList.filter fun e => !o.inlines e).map
        fun e => (m.apply e.1, e.2) := by
  refine make_keeps (P := fun done plan => plan.additions =
    (done.filter fun e => !o.inlines e).map fun e => (m.apply e.1, e.2)) rfl ?_ h
  intro done plan e plan' hdone hstep
  rw [additions_of_step hopen hstep, hdone, List.filter_append, List.map_append]
  cases hinlines : o.inlines e <;> simp [hinlines]

end IdentifierPlan

/-- Identifiers under names that are all different are all different. -/
theorem IdentifierTable.Listed.nodup_toList {t : IdentifierTable} (h : t.Listed) :
    (t.toList.map (·.1)).Nodup := by
  have hnames : ((t.toList.map (·.1)).map (·.name)).Nodup := by
    rw [List.map_map]
    exact h.names_toList ▸ h.keys
  exact hnames.of_map

/-- Every identifier listed has an image, and no other has. -/
theorem IdentifierRemap.keys_images {r : IdentifierRemap} {stamp : Nat}
    {identifiers : List Identifier} {m : Renaming} (h : r.images stamp identifiers = .ok m) :
    Assoc.keys m = identifiers := by
  rw [← List.zipIdx_map_fst 0 identifiers]
  refine Checking.map_congr (Checking.mapM_eq_ok_iff.1 h) fun e e' he => ?_
  obtain ⟨image, -, heq⟩ := Checking.bind_eq_ok_iff.1 he
  cases heq
  rfl

/-- The image of an identifier that is listed once is what it resolves to at its place. -/
theorem IdentifierRemap.apply_images {r : IdentifierRemap} {stamp : Nat}
    {identifiers : List Identifier} {m : Renaming} (h : r.images stamp identifiers = .ok m)
    (hnodup : identifiers.Nodup) {k : Nat} {i : Identifier} (hi : identifiers[k]? = some i) :
    r.resolve i ⟨stamp, k⟩ = .ok (m.apply i) := by
  have hall := Checking.mapM_eq_ok_iff.1 h
  have hkeys := keys_images h
  have hentry : (i, k) ∈ identifiers.zipIdx := by
    rw [List.mk_mem_zipIdx_iff_getElem?]
    exact hi
  obtain ⟨e, he, hone⟩ := Checking.exists_right hall hentry
  obtain ⟨image, himage, heq⟩ := Checking.bind_eq_ok_iff.1 hone
  cases heq
  have hfound : Assoc.find? i m = some image := Assoc.find?_of_mem (hkeys ▸ hnodup) he
  simp only [Renaming.apply, hfound, Option.getD_some]
  exact himage

namespace Circuit

variable {c source d : Circuit} {o : ComposeOptions} {p : Placement} {s : Splice}

/-- How the parts of a splice are made, in a block or outside. -/
structure Settled (c source : Circuit) (o : ComposeOptions) (p : Placement) (s : Splice)
    (images : Renaming) : Prop where
  placement : s.placement = p
  resolved : o.remap.images o.stamp (source.content.identifiers.toList.map (·.1)) = .ok images
  plan : IdentifierPlan.make c source o p images = .ok s.identifiers
  records : source.content.records.mapM ((c.spliceMap source p images).recordAmong s.aliases p) =
    .ok s.records
  needed : ∀ a ∈ s.aliases, ∀ q ∈ (p.host c source).content.clbits.registers, q.bits ≠ a.bits
  idle : ∀ records, source.content.records.mapM
    ((c.spliceMap source p images).recordAmong [] p) = .ok records → s.aliases = []

theorem splice_settled (h : c.splice source o p = .ok s) :
    ∃ images, Settled c source o p s images := by
  obtain ⟨hplacement, images, choice, himages, hplan, hrecords, haliases⟩ := splice_worked h
  obtain ⟨hsettled, -, hall, hidle⟩ := LeafMap.records_settle p source.content.records _ _ _
    ⟨fun _ he => absurd he List.not_mem_nil, fun _ ha => absurd ha List.not_mem_nil⟩ hrecords
  refine ⟨images, hplacement, himages, hplan, ?_, haliases ▸ hsettled.needed,
    fun records hrecords => haliases.trans (hidle records hrecords)⟩
  rw [haliases]
  exact hall _ List.prefix_rfl

/-- Clbits that come along go to their own positions. -/
theorem range_of_brings (hp : c.Placed source o p) (hplace : c.place source o = .ok p)
    (hbring : p.bringClbits = true) : p.clbits = List.range source.numClbits := by
  have hbrings := hp.brings ▸ hbring
  simp only [bringsClbits, Bool.and_eq_true, Option.isNone_iff_eq_none] at hbrings
  rw [(place_targets hplace).2, ComposeOptions.clbitTargets, hbrings.1.1]
  rfl

/-- Where a clbit of the source goes. -/
def ClbitGoes (source : Circuit) (o : ComposeOptions) (d : Circuit) (b b' : Clbit) : Prop :=
  ∃ k t : Nat, source.content.clbits.bits[k]? = some b ∧ (o.clbitTargets source)[k]? = some t ∧
    d.content.clbits.bits[t]? = some b'

/-- The map of clbits says where they go, wherever the clbits of the host are listed. -/
theorem clbitGoes_of_clbit (hp : c.Placed source o p) (hplace : c.place source o = .ok p)
    (hd : d.content.clbits.bits = (p.host c source).content.clbits.bits) {images : Renaming}
    {b b' : Clbit} (h : (c.spliceMap source p images).clbit b = .ok b') :
    ClbitGoes source o d b b' := by
  obtain ⟨-, htargets⟩ := place_targets hplace
  have hmem : (b, b') ∈ (c.spliceMap source p images).clbits := LeafMap.mem_of_clbit_eq_ok h
  obtain ⟨k, hk⟩ := List.getElem?_of_mem hmem
  obtain ⟨hb, hb'⟩ := List.getElem?_zip_eq_some.1 hk
  have hlt : k < source.content.clbits.bits.length := (List.getElem?_eq_some_iff.1 hb).1
  unfold ClbitGoes
  rw [← htargets, hd]
  unfold Placement.host
  cases hbring : p.bringClbits with
  | true =>
    -- the clbits come along, so each goes to its own position
    refine ⟨k, k, hb, ?_, ?_⟩
    · rw [range_of_brings hp hplace hbring]
      exact List.getElem?_range hlt
    · simpa [hbring] using hb'
  | false =>
    have hwidth := hp.clbits
    rw [if_neg (by simp [hbring])] at hwidth
    -- every target is a position of the destination, so no look-up is left out
    have hsome : ∀ t ∈ p.clbits,
        c.content.clbits.get? t = some (c.content.clbits.bits.getD t b) := by
      intro t ht
      have hrange : t < c.content.clbits.bits.length := hwidth.range t ht
      simp [BitList.get?, hrange]
    have hlookups : p.clbits.filterMap c.content.clbits.get? =
        p.clbits.map fun t => c.content.clbits.bits.getD t b := by
      rw [← List.filterMap_eq_map]
      exact List.filterMap_congr hsome
    have hkt : k < p.clbits.length := by
      rw [hwidth.length]
      exact hlt
    refine ⟨k, p.clbits[k], hb, List.getElem?_eq_getElem hkt, ?_⟩
    simp only [hbring, Bool.false_eq_true, if_false] at hb' ⊢
    rw [hlookups, List.getElem?_map, List.getElem?_eq_getElem hkt, Option.map_some] at hb'
    exact (hsome _ (List.getElem_mem hkt)).trans hb'

/-! ## The composition as a splice -/

/-- A record of the source as it stands in the destination, on the targets of its operands. -/
structure MovedTo (qubits clbits : List Nat) (i i' : Instruction) : Prop where
  kind : i.operation.SameKind i'.operation
  label : i'.label = i.label
  qubits : List.Forall₂ (fun q q' => qubits[q]? = some q') i.qubits i'.qubits
  clbits : List.Forall₂ (fun b b' => clbits[b]? = some b') i.clbits i'.clbits

/-- What a composition makes of the destination `c`: the circuit `d`. -/
structure Spliced (c source : Circuit) (o : ComposeOptions) (d : Circuit) : Prop where
  name : d.name = c.name
  blocks : d.blocks = c.blocks
  /-- As many different targets as qubits of the source, all in range. -/
  qubitTargets : GoodTargets source.numQubits d.numQubits (o.qubitTargets source)
  clbitTargets : GoodTargets source.numClbits d.numClbits (o.clbitTargets source)
  qubits : d.content.qubits = c.content.qubits
  clbits : d.content.clbits.bits =
    if c.bringsClbits source o then source.content.clbits.bits else c.content.clbits.bits
  registers : c.content.clbits.registers <+: d.content.clbits.registers
  /-- No operand of the source is looked up in vain. -/
  records : ∃ moved, List.Forall₂ (MovedTo (o.qubitTargets source) (o.clbitTargets source))
      source.content.records moved ∧
    d.content.records =
      if o.front then moved ++ c.content.records else c.content.records ++ moved
  /-- An identifier of the source is resolved at its place in the list of all. -/
  identifiers : ∃ image : Identifier → Identifier,
    (∀ k e, source.content.identifiers.toList[k]? = some e →
      o.remap.resolve e.1 ⟨o.stamp, k⟩ = .ok (image e.1)) ∧
    d.content.identifiers.toList = c.content.identifiers.toList ++
      (source.content.identifiers.toList.filter fun e => !o.inlines e).map
        fun e => (image e.1, e.2)
  phaseKept : ∀ x, source.content.phase.eval = some x → (x == 0) = true →
    d.content.phase = c.content.phase
  phaseAdded : (∀ x, source.content.phase.eval = some x → (x == 0) = false) →
    d.content.phase = (ParamExpr.add c.content.phase source.content.phase).simplify.normalizedPhase

/-- What is known of a composition that answers: how it was worked out, and the store up to
the phase. -/
structure Outcome (c source : Circuit) (o : ComposeOptions) (d : Circuit) (p : Placement)
    (s : Splice) (images : Renaming) (u : Content) : Prop where
  place : c.place source o = .ok p
  placed : c.Placed source o p
  splice : c.splice source o p = .ok s
  sound : s.Sound c source p
  settled : Settled c source o p s images
  made : s.Made source.content o.front c.content u
  name : d.name = c.name
  blocks : d.blocks = c.blocks
  phase : Edit.onlyIf source.content.phase.isPhase (Content.addPhase source.content.phase) u =
    .ok () d.content

/-- A composition that answers has met no clash of registers. -/
theorem compose_outcome {A : Policy} (hc : c.Reachable A) (hsource : source.Reachable A)
    (hopen : c.blocks = []) (hwrap : o.wrap = false) (h : compose source o c = .ok () d) :
    ∃ p s images u, Outcome c source o d p s images u := by
  have horderly := hc.built.orderly
  have hsourceOrderly := hsource.built.orderly
  have hindexed := hsource.built.indexed
  have hspliced : ¬ o.wrap = true := by simp [hwrap]
  obtain ⟨p, hplace⟩ := place_of_ok h
  have hrun := h
  rw [compose_apply_of_place hplace, if_neg hspliced] at hrun
  obtain ⟨s, hsplice, -⟩ := Edit.ofExcept_bind_eq_ok_iff.1 hrun
  have hp := place_eq_ok hopen hplace
  have hs := splice_eq_ok hopen hsource.built hsplice
  obtain ⟨images, hsettled⟩ := splice_settled hsplice
  rw [compose_apply_of_splice hopen hplace hspliced hsplice] at h
  obtain ⟨v, hv, rfl⟩ := Edit.within_eq_ok_iff.1 h
  replace hv : Content.addSplice source.content o.front s c.content = .ok () v := hv
  -- a clash would have been refused
  have hfree : p.bringClbits → ∀ r ∈ source.content.clbits.registers ++ s.aliases,
      c.content.clbits.register? r.name = none := by
    intro hbring r hr
    by_contra hne
    obtain ⟨e, l, hclash, -⟩ :=
      hs.enter_clash horderly hsourceOrderly hp hbring ⟨r, hr, hne⟩ o.front
    rw [hclash] at hv
    cases hv
  obtain ⟨u, hmade, happly⟩ := hs.made horderly hsourceOrderly hindexed hp hfree o.front
  exact ⟨p, s, images, u, hplace, hp, hsplice, hs, hsettled, hmade, rfl, rfl, happly ▸ hv⟩

namespace Outcome

variable {images : Renaming} {u : Content}

/-- The phase changes nothing but the phase and the index. -/
theorem frame (h : Outcome c source o d p s images u) :
    d.content.qubits = u.qubits ∧ d.content.clbits = u.clbits ∧
      d.content.identifiers = u.identifiers ∧ d.content.records = u.records ∧
      d.content.phase = if source.content.phase.isPhase then c.phaseSum source else u.phase := by
  have hphase := h.phase
  cases hadded : source.content.phase.isPhase with
  | false =>
    rw [hadded] at hphase
    obtain rfl : u = d.content := by
      cases hphase
      rfl
    exact ⟨rfl, rfl, rfl, rfl, rfl⟩
  | true =>
    rw [hadded] at hphase
    replace hphase : Content.addPhase source.content.phase u = .ok () d.content := hphase
    rw [addPhase_apply h.made] at hphase
    -- a sum whose parameters clash is refused, and the composition has answered
    split at hphase
    · replace hphase := EStateM.Result.ok.inj hphase
      rw [← hphase.2]
      exact ⟨rfl, rfl, rfl, rfl, rfl⟩
    · cases hphase

theorem clbits (h : Outcome c source o d p s images u) :
    d.content.clbits.bits = (p.host c source).content.clbits.bits := by
  rw [h.frame.2.1, h.made.clbits, h.settled.placement, Placement.bits_host]

theorem registers (h : Outcome c source o d p s images u) :
    d.content.clbits.registers = c.content.clbits.registers ++
      (if p.bringClbits then source.content.clbits.registers else []) ++ s.aliases := by
  rw [h.frame.2.1, h.made.registers, h.settled.placement]

/-- What can stand for a register, one of the host or an alias, is a register of the result. -/
theorem mem_registers (h : Outcome c source o d p s images u) {r : ClassicalRegister}
    (hr : r ∈ (c.spliceMap source p images).registers ++ s.aliases) :
    r ∈ d.content.clbits.registers := by
  rw [h.registers]
  rcases List.mem_append.1 hr with hr | hr
  · exact List.mem_append_left _ (Placement.mem_registers_of_host hr)
  · exact List.mem_append_right _ hr

theorem records (h : Outcome c source o d p s images u) :
    d.content.records =
      if o.front then s.records ++ c.content.records else c.content.records ++ s.records := by
  rw [h.frame.2.2.2.1, h.made.records]

/-- Each record of the source has been moved, by what the finished aliases say. -/
theorem moved (h : Outcome c source o d p s images u) :
    List.Forall₂ (fun i i' => ∃ op, (c.spliceMap source p images).operationAmong s.aliases
        i.operation = .ok op ∧
      i' = { i.remapped (fun q => p.qubits.getD q q) (fun b => p.clbits.getD b b) with
        operation := op }) source.content.records s.records := by
  refine (Checking.mapM_eq_ok_iff.1 h.settled.records).imp fun i i' hi => ?_
  obtain ⟨op, hop, heq⟩ := Checking.bind_eq_ok_iff.1 hi
  cases heq
  exact ⟨op, hop, rfl⟩

end Outcome

/-- An operand in range is found among the targets. -/
theorem forall₂_targets {source destination : Nat} {targets operands : List Nat}
    (h : GoodTargets source destination targets) (hrange : ∀ q ∈ operands, q < source) :
    List.Forall₂ (fun q q' => targets[q]? = some q') operands
      (operands.map fun q => targets.getD q q) := by
  rw [List.forall₂_map_right_iff, List.forall₂_same]
  intro q hq
  have hlt : q < targets.length := h.length ▸ hrange q hq
  simp [hlt]

theorem Reachable.listed {A : Policy} (h : c.Reachable A) : c.content.identifiers.Listed :=
  (h.built.everywhere_any Content.namesFree_invariant).here.listed

theorem Outcome.spliced {A : Policy} {images : Renaming} {u : Content}
    (hout : Outcome c source o d p s images u) (hsource : source.Reachable A)
    (hopen : c.blocks = []) : Spliced c source o d := by
  obtain ⟨hqubits, -, hidentifiers, -, hphase⟩ := hout.frame
  obtain ⟨hqubitTargets, hclbitTargets⟩ := place_targets hout.place
  have hgoodQubits := hout.placed.qubits
  have hgoodClbits := hout.placed.clbits_width hout.clbits
  have hlisted := hsource.listed
  obtain ⟨m, hplan⟩ := hout.sound.plan
  refine ⟨hout.name, hout.blocks, ?_, ?_,
    hqubits.trans hout.made.qubits, ?_, ?_, ⟨s.records, ?_, hout.records⟩,
    ⟨images.apply, fun k e he => ?_, ?_⟩, ?_, ?_⟩
  · rw [← hqubitTargets]
    show GoodTargets _ d.content.qubits.size _
    rw [hqubits, hout.made.qubits]
    exact hgoodQubits
  · rw [← hclbitTargets]
    exact hgoodClbits
  · rw [hout.clbits, ← hout.placed.brings, Placement.bits_host]
  · rw [hout.registers, List.append_assoc]
    exact List.prefix_append _ _
  · rw [← hqubitTargets, ← hclbitTargets]
    -- an operand of a record of the source is in range, so its target is looked up
    refine List.forall₂_iff_get.2 ⟨hout.moved.length_eq, fun k hk hk' => ?_⟩
    obtain ⟨op, hop, hi'⟩ := hout.moved.get hk hk'
    have hfits := hsource.built.orderly.fits _ (List.get_mem source.content.records ⟨k, hk⟩)
    rw [hi']
    exact ⟨LeafMap.sameKind_of_operationAmong hop, rfl, forall₂_targets hgoodQubits hfits.qubits,
      forall₂_targets hgoodClbits hfits.clbits⟩
  · -- each identifier is listed once, so its image is looked up in its own place
    refine IdentifierRemap.apply_images hout.settled.resolved hlisted.nodup_toList ?_
    rw [List.getElem?_map, he, Option.map_some]
  · rw [hidentifiers, hout.made.identifiers,
      IdentifierTable.toList_addedAll hplan.planned,
      IdentifierPlan.additions_of_make hopen hout.settled.plan]
  · -- a phase that evaluates to zero is not added
    intro x hx hzero
    rw [hphase, if_neg, hout.made.phase]
    exact fun hadded => Bool.noConfusion (hzero.symm.trans (ParamExpr.isPhase_iff.1 hadded x hx))
  · intro hnonzero
    rw [hphase, if_pos (ParamExpr.isPhase_iff.2 hnonzero)]
    rfl

/-- A composition onto a reached circuit without open blocks that answers is a splice. -/
theorem Reachable.compose_spliced {A : Policy} (hc : c.Reachable A) (hsource : source.Reachable A)
    (hopen : c.blocks = []) (hwrap : o.wrap = false)
    (h : Circuit.compose source o c = .ok () d) : Spliced c source o d := by
  obtain ⟨p, s, images, u, hout⟩ := compose_outcome hc hsource hopen hwrap h
  exact hout.spliced hsource hopen

/-- A circuit with a phase and one clbit, which no register has. -/
def looseClbit : Circuit :=
  ⟨"d", Content.empty.after
    [.setPhase (.sym ⟨"a", ⟨1, 0⟩, none⟩), .addBit .classical (.loose .classical ⟨1, 1⟩)], []⟩

/-- A circuit with a phase that copies its register, of one clbit, to itself. -/
def copiesRegister : Circuit :=
  let register := Register.make .classical "cr" 1 2
  let copy := Operation.store ⟨.register register, .register register⟩
  ⟨"s", Content.empty.after
    [.setPhase (.sym ⟨"b", ⟨3, 0⟩, none⟩), .addRegister .classical register,
      .push (.make copy [] [])], []⟩

theorem looseClbit_reachable : looseClbit.Reachable .any :=
  .ofStore "d" (.empty_after rfl)

theorem copiesRegister_reachable : copiesRegister.Reachable .any :=
  .ofStore "s" (.empty_after rfl)

theorem compose_copiesRegister_answers :
    ∃ d, compose copiesRegister {} looseClbit = .ok () d :=
  Edit.answers_of_isOk (by decide +kernel)

/-- The copy arrives behind what was there, and the phases are added up. -/
theorem compose_spliced_loose_clbit :
    looseClbit.Reachable .any ∧ copiesRegister.Reachable .any ∧ looseClbit.blocks = [] ∧
      ({} : ComposeOptions).wrap = false ∧
      ∃ d, compose copiesRegister {} looseClbit = .ok () d ∧
        Spliced looseClbit copiesRegister {} d := by
  obtain ⟨d, hd⟩ := compose_copiesRegister_answers
  exact ⟨looseClbit_reachable, copiesRegister_reachable, rfl, rfl, d, hd,
    looseClbit_reachable.compose_spliced copiesRegister_reachable rfl rfl hd⟩

/-! ## The registers that are read -/

/-- The registers that conditions, switch targets and stores of the records read. -/
def readRegisters (source : Circuit) : List ClassicalRegister :=
  source.content.records.flatMap (·.operation.classicalUse.registers)

/-- The registers that come along with the clbits of the source. -/
def broughtRegisters (c source : Circuit) (o : ComposeOptions) : List ClassicalRegister :=
  if c.bringsClbits source o then source.content.clbits.registers else []

/-- What becomes of the registers that the source reads, when `image` says which register
stands for which, and `aliases` are those made for the purpose. -/
structure RegistersKept (c source : Circuit) (o : ComposeOptions) (d : Circuit)
    (image : ClassicalRegister → ClassicalRegister) (aliases : List ClassicalRegister) :
    Prop where
  records : ∃ moved, List.Forall₂ (fun i i' : Instruction =>
      i'.operation.classicalUse.registers = i.operation.classicalUse.registers.map image)
      source.content.records moved ∧
    d.content.records =
      if o.front then moved ++ c.content.records else c.content.records ++ moved
  /-- The bits of the register that stands in are those that the bits go to, in order. -/
  stands : ∀ r ∈ source.readRegisters, image r ∈ d.content.clbits.registers ∧
    List.Forall₂ (ClbitGoes source o d) r.bits (image r).bits
  sameBits : ∀ r ∈ source.readRegisters, ∀ q ∈ source.readRegisters, q.bits = r.bits →
    image q = image r
  registers : d.content.clbits.registers =
    c.content.clbits.registers ++ c.broughtRegisters source o ++ aliases
  /-- An alias that stands for one of them has bits that no register of the destination has, those
  that came along included. -/
  needed : ∀ r ∈ source.readRegisters, image r ∈ aliases →
    ∀ q ∈ c.content.clbits.registers ++ c.broughtRegisters source o, q.bits ≠ (image r).bits
  /-- So has any other alias, for a register that only a duration names; but beside clbits that
  came along it may have no bits at all. -/
  spare : ∀ a ∈ aliases, a.bits ≠ [] ∨ ¬ c.bringsClbits source o →
    ∀ q ∈ c.content.clbits.registers ++ c.broughtRegisters source o, q.bits ≠ a.bits
  names : (d.content.clbits.registers.map (·.name)).Nodup
  fresh : ∀ a ∈ aliases, ¬ d.content.identifiers.hasName a.name

/-- Where the clbits come along, each goes to itself. -/
theorem eq_of_clbit_of_brings (hbring : p.bringClbits = true) {images : Renaming} {b b' : Clbit}
    (h : (c.spliceMap source p images).clbit b = .ok b') : b' = b := by
  have hmem : (b, b') ∈ (c.spliceMap source p images).clbits := LeafMap.mem_of_clbit_eq_ok h
  simp only [spliceMap, hbring, if_true] at hmem
  obtain ⟨k, hk⟩ := List.getElem?_of_mem hmem
  obtain ⟨hb, hb'⟩ := List.getElem?_zip_eq_some.1 hk
  exact Option.some.inj (hb'.symm.trans hb)

namespace Outcome

variable {images : Renaming} {u : Content} {r a q : ClassicalRegister}

/-- In every record something stands for each register that is read. -/
theorem replaced (h : Outcome c source o d p s images u) :
    List.Forall₂ (fun i i' : Instruction =>
      List.Forall₂ (fun r found => (c.spliceMap source p images).standIn s.aliases r = .ok found)
        i.operation.classicalUse.registers i'.operation.classicalUse.registers)
      source.content.records s.records := by
  refine h.moved.imp fun i i' hi => ?_
  obtain ⟨op, hop, rfl⟩ := hi
  exact LeafMap.registers_of_operationAmong
    (IdentifierRemap.keepsSorts_images h.settled.resolved) hop

/-- So every list of registers that are read goes to the list of what stands for them. -/
theorem reads (h : Outcome c source o d p s images u) :
    List.Forall₂ (fun i i' : Instruction => i'.operation.classicalUse.registers =
        i.operation.classicalUse.registers.map
          ((c.spliceMap source p images).imageAmong s.aliases))
      source.content.records s.records := by
  refine h.replaced.imp fun i i' hi => ?_
  have hmap := Checking.map_congr
    (f := (c.spliceMap source p images).imageAmong s.aliases) (g := id) hi
    fun r found hfound => (LeafMap.imageAmong_of_standIn hfound).symm
  rwa [List.map_id] at hmap

theorem standIn_of_read (h : Outcome c source o d p s images u) (hr : r ∈ source.readRegisters) :
    (c.spliceMap source p images).standIn s.aliases r =
      .ok ((c.spliceMap source p images).imageAmong s.aliases r) := by
  obtain ⟨i, hi, hr⟩ := List.mem_flatMap.1 hr
  obtain ⟨i', -, hregisters⟩ := Checking.exists_right h.replaced hi
  obtain ⟨found, -, hfound⟩ := Checking.exists_right hregisters hr
  rw [LeafMap.imageAmong_of_standIn hfound]
  exact hfound

theorem broughtRegisters_eq (h : Outcome c source o d p s images u) : c.broughtRegisters source o =
    if p.bringClbits then source.content.clbits.registers else [] := by
  rw [broughtRegisters, h.placed.brings]

/-- Where clbits are brought, no alias stands for a register that is read: the source has the
register, and it comes along. -/
theorem image_not_alias (h : Outcome c source o d p s images u) {A : Policy}
    (hsource : source.Reachable A) (hbring : p.bringClbits = true) (hr : r ∈ source.readRegisters) :
    (c.spliceMap source p images).imageAmong s.aliases r ∉ s.aliases := by
  intro halias
  obtain ⟨i, hi, hri⟩ := List.mem_flatMap.1 hr
  have hthere : source.content.clbits.hasRegister r :=
    (hsource.built.orderly.fits i hi).reads.registers r hri
  obtain ⟨own, hown, -, hownBits⟩ := BitList.exists_mem_of_hasRegister hthere
  obtain ⟨-, hgoes⟩ := LeafMap.standIn_bits (h.standIn_of_read hr)
  have hsame : ((c.spliceMap source p images).imageAmong s.aliases r).bits = r.bits := by
    have hmap := Checking.map_congr (f := id) (g := id) hgoes fun b b' hb =>
      eq_of_clbit_of_brings hbring hb
    rwa [List.map_id, List.map_id] at hmap
  have hneeded := h.settled.needed _ halias
  rw [Placement.host_of_brings hbring] at hneeded
  exact hneeded own hown (by rw [hsame, hownBits])

/-- An alias has the bits of a register of the destination only where clbits are brought. The
destination had no clbits then, so that its registers, and the alias, are empty. -/
theorem empty_of_alias (h : Outcome c source o d p s images u) {A : Policy} (hc : c.Reachable A)
    (ha : a ∈ s.aliases) (hq : q ∈ c.content.clbits.registers ++ c.broughtRegisters source o)
    (hbits : q.bits = a.bits) : p.bringClbits = true ∧ a.bits = [] := by
  -- an alias is only made if no register among those of the host has its bits
  have hneeded := h.settled.needed a ha
  rw [h.broughtRegisters_eq] at hq
  cases hbring : p.bringClbits with
  | false =>
    simp only [hbring, Bool.false_eq_true, if_false, List.append_nil] at hq
    rw [Placement.host_of_not_brings hbring] at hneeded
    exact absurd hbits (hneeded q hq)
  | true =>
    rw [hbring, if_pos rfl] at hq
    rcases List.mem_append.1 hq with hq | hq
    · have hnone : q.bits = [] := by
        refine List.eq_nil_iff_forall_not_mem.2 fun bit hbit => ?_
        have hlisted := hc.built.orderly.clbits.members q hq bit hbit
        rw [h.placed.empty_of_brings hbring] at hlisted
        exact absurd hlisted List.not_mem_nil
      exact ⟨rfl, hbits ▸ hnone⟩
    · rw [Placement.host_of_brings hbring] at hneeded
      exact absurd hbits (hneeded q hq)

end Outcome

/-- A composition onto a reached circuit without open blocks keeps what registers read. -/
theorem Reachable.compose_keeps_registers {A : Policy} (hc : c.Reachable A)
    (hsource : source.Reachable A) (hopen : c.blocks = []) (hwrap : o.wrap = false)
    (h : Circuit.compose source o c = .ok () d) :
    ∃ image aliases, RegistersKept c source o d image aliases := by
  obtain ⟨p, s, images, u, hout⟩ := compose_outcome hc hsource hopen hwrap h
  obtain ⟨-, hclbits, hidentifiers, -, -⟩ := hout.frame
  have hregisters : d.content.clbits.registers =
      c.content.clbits.registers ++ c.broughtRegisters source o ++ s.aliases := by
    rw [hout.broughtRegisters_eq]
    exact hout.registers
  refine ⟨(c.spliceMap source p images).imageAmong s.aliases, s.aliases,
    ⟨s.records, hout.reads, hout.records⟩,
    fun r hr => ?_, fun r hr q hq hbits => ?_, hregisters, fun r hr halias q hq hbits => ?_,
    fun a ha hor q hq hbits => ?_, ?_, fun a ha => ?_⟩
  · obtain ⟨hmem, hbits⟩ := LeafMap.standIn_bits (hout.standIn_of_read hr)
    exact ⟨hout.mem_registers hmem, hbits.imp fun b b' hb =>
      clbitGoes_of_clbit hout.placed hout.place hout.clbits hb⟩
  · have hsame := LeafMap.standIn_congr hbits (hout.standIn_of_read hr)
    exact LeafMap.imageAmong_of_standIn hsame
  · exact hout.image_not_alias hsource (hout.empty_of_alias hc halias hq hbits).1 hr halias
  · obtain ⟨hbring, hnone⟩ := hout.empty_of_alias hc ha hq hbits
    exact hor.elim (· hnone) (· (hout.placed.brings ▸ hbring))
  · rw [hclbits]
    exact hout.made.sound.names
  · rw [hidentifiers, hout.made.identifiers, IdentifierTable.hasName_iff]
    exact (hout.sound.fresh a ha).1

/-- An alias is made for the register that is copied. -/
theorem compose_keeps_registers_loose_clbit :
    looseClbit.Reachable .any ∧ copiesRegister.Reachable .any ∧ looseClbit.blocks = [] ∧
      ({} : ComposeOptions).wrap = false ∧
      ∃ d, compose copiesRegister {} looseClbit = .ok () d ∧
        ∃ image aliases, RegistersKept looseClbit copiesRegister {} d image aliases := by
  obtain ⟨d, hd⟩ := compose_copiesRegister_answers
  exact ⟨looseClbit_reachable, copiesRegister_reachable, rfl, rfl, d, hd,
    looseClbit_reachable.compose_keeps_registers copiesRegister_reachable rfl rfl hd⟩

end Circuit

end QuantumCircuit
