import QuantumCircuit.Proofs.Wrapping

/-!
# Taking one operation apart

An operation that was added with its clbits is taken apart where these clbits are there from
the start. So the composition that puts the definition in its place is not the one that would
have spliced it in: it is given all targets, and brings nothing. It makes the same splice all
the same (`Circuit.Outcome.splice_of_host`), since the clbits and registers among which the
records come to stand are the same; only where there are no clbits at all may registers have
come in later, and then no record reads one (`Circuit.Outcome.splice_of_bare`). Hence one step
keeps the circuits equal but for the clbits that are still to come (`Circuit.Expands.step`).
-/

namespace QuantumCircuit

/-! ## Placing a definition -/

/-- The options with which a definition is put in the place of its operation. -/
def ComposeOptions.onto (qubits clbits : List Nat) : ComposeOptions :=
  { qubits := some qubits, clbits := some clbits }

namespace Circuit

variable {A : Policy} {c e source d : Circuit} {o : ComposeOptions} {p : Placement} {s : Splice}

theorem place_at {qubits clbits : List Nat} (hclosed : c.blocks = [])
    (hqubits : GoodTargets source.numQubits c.numQubits qubits)
    (hclbits : GoodTargets source.numClbits c.numClbits clbits)
    (hcheck : c.content.table.check source.parameters = .ok ()) :
    c.place source (.onto qubits clbits) = .ok ⟨qubits, clbits, false⟩ := by
  have hscope : c.inScope = false := by simp [inScope, hclosed]
  exact place_eq_ok_iff.2 {
    front := rfl
    numQubits := hqubits.le
    brings := rfl
    numClbits := fun _ => hclbits.le
    names := fun hbring => absurd hbring Bool.false_ne_true
    qubits := targetPositions_eq_ok_iff.2 ⟨rfl, fun _ => hqubits⟩
    clbits := targetPositions_eq_ok_iff.2 ⟨rfl, fun _ => hclbits⟩
    parameters := hcheck
    phase := by rw [hscope, Bool.false_and] }

end Circuit

/-! ## The same splice -/

namespace LeafMap

variable {m m' : LeafMap}

/-- Where the records go depends on the targets only. -/
theorem records_congr {p p' : Placement} (hqubits : p'.qubits = p.qubits)
    (hclbits : p'.clbits = p.clbits) (records : List Instruction) :
    m.records p' records = m.records p records := by
  induction records with
  | nil => rfl
  | cons i rest ih => simp only [LeafMap.records, hqubits, hclbits, ih]

/-- That the edit answers as the computation does, if that has an answer, and changes nothing. -/
def Echoes {σ α : Type} (g : Unit → Except CircuitError α) (e : Edit σ α) : Prop :=
  ∀ a, g () = .ok a → ∀ s, e s = .ok a s

theorem Echoes.sequential {σ : Type} : Sequential (σ := σ) fun _ g e => Echoes g e where
  ofExcept r a hr s := Edit.ofExcept_eq_ok_iff.2 ⟨hr, rfl⟩
  bind he hk b hb s := by
    obtain ⟨a, ha, hb⟩ := Checking.bind_eq_ok_iff.1 hb
    exact Edit.bind_eq_ok_iff.2 ⟨a, s, he a ha s, hk a b hb s⟩

/-- A leaf that stays the same among no registers is no register, so the registers do not matter. -/
theorem leaf_echoes (hidentifiers : m'.identifiers = m.identifiers) (hclbits : m'.clbits = m.clbits)
    (hregisters : m.registers = []) (x : Expr) :
    Echoes (fun _ => m.leafAmong [] x) (m'.leaf x) := by
  intro a ha s
  cases x with
  | clbit bit =>
    obtain ⟨image, himage, ha⟩ := Checking.bind_eq_ok_iff.1 ha
    cases ha
    have himage' : m'.clbit bit = .ok image := by rwa [clbit, hclbits]
    exact Edit.bind_eq_ok_iff.2 ⟨image, s, Edit.ofExcept_eq_ok_iff.2 ⟨himage', rfl⟩, rfl⟩
  | register r =>
    obtain ⟨image, himage, -⟩ := Checking.bind_eq_ok_iff.1 ha
    obtain ⟨hmem, -⟩ := standIn_bits himage
    rw [hregisters] at hmem
    exact absurd hmem List.not_mem_nil
  | var | stretch | value | unary | binary | cast | index =>
    cases ha
    simp only [leaf, hidentifiers]
    rfl

end LeafMap

/-- All positions give all bits. -/
theorem BitList.filterMap_range {k : BitKind} (l : BitList k) :
    (List.range l.bits.length).filterMap l.get? = l.bits := by
  have hsome : (List.range l.bits.length).map l.get? = l.bits.map some :=
    List.ext_getElem (by simp) fun k hk hk' => by simp [get?]
  have hmapped := congrArg (List.filterMap id) hsome
  rwa [List.filterMap_map, List.filterMap_map, Function.id_comp, Function.id_comp,
    List.filterMap_some] at hmapped

/-- A placement on the same targets to which nothing has to be brought. -/
def Placement.there (p : Placement) : Placement := { p with bringClbits := false }

namespace Circuit

variable {A : Policy} {c e source d : Circuit} {o : ComposeOptions} {p : Placement} {s : Splice}
  {u : Content}

/-- The splice of a source without identifiers into a circuit in which all is there. -/
def spliceThere (e : Circuit) (p : Placement) (s : Splice) : Splice :=
  ⟨p.there, ⟨e.content.identifiers, [], [], []⟩, s.aliases, s.records⟩

theorem Outcome.records_run (h : Outcome c source o d p s [] u)
    (hnone : source.content.identifiers.toList = []) :
    ∃ choice, (c.spliceMap source p []).records p source.content.records
        ⟨[], [], .ofStem BitKind.classical.letter,
          (p.host c source).content.clbits.registers.map (·.name) ++
            c.content.identifiers.names⟩ = .ok s.records choice ∧ choice.aliases = s.aliases := by
  obtain ⟨-, images, choice, himages, hplan, hrecords, haliases⟩ := splice_worked h.splice
  rw [hnone] at himages
  cases himages
  rw [IdentifierPlan.make, hnone] at hplan
  rw [← Except.ok.inj hplan] at hrecords
  exact ⟨choice, hrecords, haliases.symm⟩

/-- A circuit with the clbits and the registers of the host makes the same splice. -/
theorem Outcome.splice_of_host (h : Outcome c source o d p s [] u)
    (hnone : source.content.identifiers.toList = [])
    (hidentifiers : e.content.identifiers = c.content.identifiers)
    (hbits : e.content.clbits.bits = (p.host c source).content.clbits.bits)
    (hregisters : e.content.clbits.registers = (p.host c source).content.clbits.registers) :
    e.splice source (.onto p.qubits p.clbits) p.there = .ok (e.spliceThere p s) := by
  obtain ⟨choice, hrecords, haliases⟩ := h.records_run hnone
  have htargets : p.clbits.filterMap e.content.clbits.get? =
      if p.bringClbits then source.content.clbits.bits
        else p.clbits.filterMap c.content.clbits.get? := by
    cases hbring : p.bringClbits with
    | false =>
      have hsame : e.content.clbits.bits = c.content.clbits.bits := by
        rwa [Placement.host_of_not_brings hbring] at hbits
      have hget : e.content.clbits.get? = c.content.clbits.get? :=
        funext fun n => by simp only [BitList.get?, hsame]
      rw [if_neg Bool.false_ne_true, hget]
    | true =>
      have hsame : e.content.clbits.bits = source.content.clbits.bits := by
        rwa [Placement.host_of_brings hbring] at hbits
      rw [if_pos rfl, range_of_brings h.placed h.place hbring, ← hsame]
      show (List.range source.content.clbits.bits.length).filterMap _ = _
      rw [← hsame]
      exact BitList.filterMap_range e.content.clbits
  have hmap : e.spliceMap source p.there [] = c.spliceMap source p [] := by
    simp only [spliceMap, Placement.there, Bool.false_eq_true, if_false, htargets]
    rw [← hregisters]
    rfl
  have hrun : (e.spliceMap source p.there []).records p.there source.content.records
      ⟨[], [], .ofStem BitKind.classical.letter, e.content.clbits.registers.map (·.name) ++
        e.content.identifiers.names⟩ = .ok s.records choice := by
    rw [hmap, hregisters, hidentifiers, ← hrecords]
    exact congrFun (@LeafMap.records_congr _ p p.there rfl rfl _) _
  rw [spliceThere, ← haliases]
  exact splice_of_worked (by rw [hnone]; rfl) (by rw [IdentifierPlan.make, hnone]; rfl) hrun

/-- Without clbits, and without aliases, the registers do not matter. -/
theorem Outcome.splice_of_bare (h : Outcome c source o d p s [] u)
    (hnone : source.content.identifiers.toList = []) (hbring : p.bringClbits = false)
    (hsource : source.content.clbits.bits = []) (hregisters : c.content.clbits.registers = [])
    (haliases : s.aliases = []) :
    e.splice source (.onto p.qubits p.clbits) p.there = .ok (e.spliceThere p s) := by
  have hrecords := h.settled.records
  rw [haliases] at hrecords
  have hleaf : ∀ x, LeafMap.Echoes (fun _ => (c.spliceMap source p []).leafAmong [] x)
      ((e.spliceMap source p.there []).leaf x) :=
    LeafMap.leaf_echoes rfl (by simp [spliceMap, hsource])
      (by simp [spliceMap, Placement.host, hbring, hregisters])
  have hecho : LeafMap.Echoes
      (fun _ => source.content.records.mapM ((c.spliceMap source p []).recordAmong [] p))
      ((e.spliceMap source p.there []).records p source.content.records) :=
    @LeafMap.records_related (c.spliceMap source p []) Unit (fun _ g e => LeafMap.Echoes g e)
      LeafMap.Echoes.sequential.sequencing (fun _ => LeafMap.Echoes.sequential.ofExcept)
      (e.spliceMap source p.there []) rfl (fun _ => []) p
      source.content.records fun _ _ x _ => hleaf x
  have hrun : ∀ choice, (e.spliceMap source p.there []).records p.there source.content.records
      choice = .ok s.records choice := by
    intro choice
    rw [@LeafMap.records_congr _ p p.there rfl rfl]
    exact hecho s.records hrecords choice
  rw [spliceThere, haliases]
  exact splice_of_worked (by rw [hnone]; rfl) (by rw [IdentifierPlan.make, hnone]; rfl) (hrun _)

/-! ## One step -/

/-- A composition that has been worked out, and brings no register along, answers where names
resolve. -/
theorem compose_answers (hc : c.Ready A) (hsource : source.Reachable A) (hwrap : ¬ o.wrap = true)
    (hplace : c.place source o = .ok p) (hsplice : c.splice source o p = .ok s)
    (hbring : p.bringClbits = false) : ∃ d, compose source o c = .ok () d := by
  have hp := place_eq_ok hc.closed hplace
  have hs := splice_eq_ok hc.closed hsource.built hsplice
  obtain ⟨v, hv, happly⟩ := hs.made hc.reachable.built.orderly hsource.built.orderly
    hsource.built.indexed hp (fun hbrings => by rw [hbring] at hbrings; cases hbrings) o.front
  have hphase : ∃ u, Edit.onlyIf source.content.phase.isPhase
      (Content.addPhase source.content.phase) v = .ok () u := by
    cases source.content.phase.isPhase with
    | false => exact ⟨v, rfl⟩
    | true =>
      have hadd := addPhase_apply hv
      rw [phaseSum_admitted hc.named hsource.built.indexed hp hs] at hadd
      exact ⟨_, hadd⟩
  obtain ⟨u, hu⟩ := hphase
  rw [compose_apply_of_splice hc.closed hplace hwrap hsplice]
  exact ⟨{ c with content := u }, Edit.within_eq_ok_iff.2 ⟨u, happly.trans hu, rfl⟩⟩

/-- How the circuit `e` in which operations are being taken apart stands to the circuit `d` that
their definitions are spliced into: all is equal but for the clbits, which have been in `e` from
the start, as the list `l`. -/
structure Expands (A : Policy) (l : BitList .classical) (d e : Circuit) : Prop where
  ready : e.Ready A
  name : e.name = d.name
  qubits : e.content.qubits = d.content.qubits
  clbits : e.content.clbits = if d.content.clbits.bits = [] then l else d.content.clbits
  identifiers : e.content.identifiers = d.content.identifiers
  records : e.content.records = d.content.records
  phase : e.content.phase = d.content.phase

/-- That `e` is ready for the splice `s`: the targets of clbits are good there, the splice is worked
out as it was, and with its aliases the clbits become `l`. -/
structure Prepared (e source : Circuit) (p : Placement) (s : Splice) (l : BitList .classical) :
    Prop where
  targets : GoodTargets source.numClbits e.numClbits p.clbits
  splice : e.splice source (.onto p.qubits p.clbits) p.there = .ok (e.spliceThere p s)
  aliases : Edit.each BitList.addRegister s.aliases e.content.clbits = .ok () l

namespace Expands

variable {l k k' : BitList .classical}

theorem contains (he : Expands A l c e) (hc : c.Ready A) {q : Parameter}
    (hq : e.content.table.contains q) : c.content.table.contains q := by
  rw [he.ready.named.contains_iff_listed, he.records, he.phase] at hq
  exact hc.named.contains_iff_listed.2 hq

section Step

variable (hc : c.Ready A) (hsource : source.Wrappable A) (hout : Outcome c source o d p s [] u)
  (hregisters : ∀ r ∈ d.content.clbits.registers, r.bits ≠ [])
include hc hout hregisters

/-- Without clbits there are no registers either. -/
theorem registers_eq_nil (hempty : c.content.clbits.bits = []) :
    c.content.clbits.registers = [] := by
  refine List.eq_nil_iff_forall_not_mem.2 fun r hr => ?_
  refine hregisters r ?_ (List.eq_nil_iff_forall_not_mem.2 fun bit hbit => ?_)
  · rw [hout.registers, List.append_assoc]
    exact List.mem_append_left _ hr
  · have hlisted := hc.reachable.built.orderly.clbits.members r hr bit hbit
    rw [hempty] at hlisted
    exact List.not_mem_nil hlisted

include hsource

/-- Where the clbits are those that the splice found or brought, all goes as it did there. -/
theorem prepared_of_entered (he : Expands A l c e) (hentered : Edit.onlyIf p.bringClbits
      (BitList.takeOver source.content.clbits) c.content.clbits = .ok () e.content.clbits) :
    Prepared e source p s d.content.clbits := by
  obtain ⟨k, hk, -, hbits, hall, -⟩ := hout.placed.bring_ok hc.reachable.built.orderly
    hsource.reachable.built.orderly fun hbring r hr => not_not.1 (hout.not_taken hbring r hr)
  obtain rfl : e.content.clbits = k := (EStateM.Result.ok.inj
    (hentered.symm.trans (Content.clbits_of_onlyIf_addClbitsOf hk))).2
  have hhost : e.content.clbits.registers = (p.host c source).content.clbits.registers := by
    rw [hall]
    cases hbring : p.bringClbits with
    | false => simp [Placement.host, hbring]
    | true =>
      simp [Placement.host, hbring,
        registers_eq_nil hc hout hregisters (hout.placed.empty_of_brings hbring)]
  obtain ⟨_, k, hk, haliases⟩ := Edit.bind_eq_ok_iff.1 hout.entered
  obtain rfl : e.content.clbits = k := (EStateM.Result.ok.inj (hentered.symm.trans hk)).2
  exact ⟨hout.placed.clbits_width hbits,
    hout.splice_of_host hsource.toList_eq_nil he.identifiers hbits hhost, haliases⟩

/-- Where there are no clbits at all, those that come in later do not matter. -/
theorem prepared_of_bare (hbare : d.content.clbits.bits = []) :
    Prepared e source p s e.content.clbits := by
  have hbring := hout.not_brings hbare
  have haliases := hout.aliases_eq_nil hregisters hbare
  have hempty : c.content.clbits.bits = [] := (hout.clbits_eq hregisters hbare) ▸ hbare
  have hwidth := hout.placed.clbits_width hout.clbits
  have hnone : source.content.clbits.bits = [] := by
    have hle := hwidth.le
    rw [BitList.size, hbare] at hle
    exact List.length_eq_zero_iff.1 (Nat.le_zero.1 hle)
  have htargets : p.clbits = [] := by
    refine List.length_eq_zero_iff.1 (hwidth.length.trans ?_)
    exact List.length_eq_zero_iff.2 hnone
  refine ⟨⟨hwidth.length, hwidth.nodup, by simp [htargets]⟩, ?_, ?_⟩
  · exact hout.splice_of_bare hsource.toList_eq_nil hbring hnone
      (registers_eq_nil hc hout hregisters hempty) haliases
  · rw [haliases]
    rfl

/-- Whether its clbits have been brought or were there before, the operation finds all that it
needs. -/
theorem prepared (he : Expands A l c e) (hbare : c.content.clbits.bits = [] → k = c.content.clbits)
    (hbring : Edit.onlyIf p.bringClbits (BitList.takeOver source.content.clbits) k = .ok () k')
    (hl : d.content.clbits.bits ≠ [] → l = k') :
    Prepared e source p s (if d.content.clbits.bits = [] then l else d.content.clbits) := by
  have hclbits := he.clbits
  by_cases hnone : d.content.clbits.bits = []
  · have hempty : c.content.clbits.bits = [] := (hout.clbits_eq hregisters hnone) ▸ hnone
    rw [if_pos hempty] at hclbits
    rw [if_pos hnone, ← hclbits]
    exact prepared_of_bare hc hsource hout hregisters hnone
  · rw [if_neg hnone]
    refine prepared_of_entered hc hsource hout hregisters he ?_
    by_cases hempty : c.content.clbits.bits = []
    · -- the clbits have come in with the operation
      rwa [hclbits, if_pos hempty, ← hbare hempty, hl hnone]
    · rw [hclbits, if_neg hempty]
      cases hbrings : p.bringClbits with
      | true => exact absurd (hout.placed.empty_of_brings hbrings) hempty
      | false => rfl

omit hregisters in
/-- If an operation is taken apart, its definition is spliced in just as it would have been. -/
theorem step (he : Expands A l c e) (hfront : o.front = false)
    (hprepared : Prepared e source p s
      (if d.content.clbits.bits = [] then l else d.content.clbits)) :
    ∃ e', compose source (.onto p.qubits p.clbits) e = .ok () e' ∧ Expands A l d e' := by
  have hsize : e.numQubits = c.numQubits := congrArg BitList.size he.qubits
  have hcheck := hc.named.check_of_contains he.ready.reachable.built.honest
    (fun q hq => he.contains hc hq) hout.placed.parameters
  have hplace := place_at he.ready.closed (hsize ▸ hout.placed.qubits) hprepared.targets hcheck
  obtain ⟨e', hrun⟩ := compose_answers he.ready hsource.reachable Bool.false_ne_true hplace
    hprepared.splice rfl
  obtain ⟨p', s', u', hout', hready⟩ := outcome_of_compose he.ready hsource rfl hrun
  obtain rfl : p.there = p' := Except.ok.inj (hplace.symm.trans hout'.place)
  obtain rfl : e.spliceThere p s = s' := Except.ok.inj (hprepared.splice.symm.trans hout'.splice)
  refine ⟨e', hrun, hready, hout'.name.trans (he.name.trans hout.name.symm), ?_, ?_, ?_, ?_, ?_⟩
  · rw [hout'.frame.1, hout'.made.qubits, he.qubits, hout.frame.1, hout.made.qubits]
  · exact (EStateM.Result.ok.inj (hout'.entered.symm.trans hprepared.aliases)).2
  · rw [hout'.identifiers_eq hsource.toList_eq_nil, he.identifiers,
      hout.identifiers_eq hsource.toList_eq_nil]
  · rw [hout'.records, hout.records, hfront, he.records]
    rfl
  · rw [hout'.frame.2.2.2.2, hout.frame.2.2.2.2, hout'.made.phase, hout.made.phase, phaseSum,
      phaseSum, he.phase]

end Step

end Expands

end Circuit

end QuantumCircuit
