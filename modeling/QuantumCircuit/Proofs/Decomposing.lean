import QuantumCircuit.Proofs.Expanding

/-!
# Adding circuits as operations and taking them apart again

Circuits without identifiers that are spliced in one after another, at the end, make the same
circuit as when each is added as one operation and all operations are taken apart in the end
(`Circuit.Reachable.decompose_wrapped`). The two ways make clbits and registers at different
times: an operation brings its clbits and registers when it is added, and the aliases come
when it is taken apart. What would tell the ways apart is a register that is there before there
are any clbits, and that is an empty one; so no register may be empty.

The run is followed from both ends: each operation that is added is known to unfold, whatever
is added afterwards (`Circuit.Unfolds`), and in the end they unfold one by one from an empty copy.
-/

namespace QuantumCircuit

/-! ## No empty alias -/

namespace LeafMap

/-- That the edit makes no empty alias. -/
def KeepsFilled {α : Type} (e : Edit RegisterChoice α) : Prop :=
  ∀ s a s', (∀ r ∈ s.aliases, r.bits ≠ []) → e s = .ok a s' → ∀ r ∈ s'.aliases, r.bits ≠ []

namespace KeepsFilled

variable {α β : Type}

theorem ofExcept (r : Except CircuitError α) : KeepsFilled (Edit.ofExcept r) := by
  intro s a s' hs h
  obtain ⟨-, rfl⟩ := Edit.ofExcept_eq_ok_iff.1 h
  exact hs

theorem bind {f : Edit RegisterChoice α} {k : α → Edit RegisterChoice β} (hf : KeepsFilled f)
    (hk : ∀ a, KeepsFilled (k a)) : KeepsFilled (f >>= k) := by
  intro s b s' hs h
  obtain ⟨a, u, ha, hb⟩ := Edit.bind_eq_ok_iff.1 h
  exact hk a u b s' (hf s a u hs ha) hb

theorem sequential : Sequential fun _ (_ : Unit → Except CircuitError _) f => KeepsFilled f :=
  ⟨ofExcept, bind⟩

end KeepsFilled

theorem register_keepsFilled {m : LeafMap} {r : ClassicalRegister} (hr : r.bits ≠ []) :
    KeepsFilled (m.register r) := by
  intro s image s' hs h
  cases register_chooses h with
  | before | there => exact hs
  | made hall _ hbits _ =>
    refine List.forall_mem_append.2 ⟨hs, List.forall_mem_singleton.2 ?_⟩
    -- as many bits as the register has
    have hlength := (Checking.mapM_eq_ok_iff.1 hall).length_eq
    rw [hbits]
    exact List.ne_nil_of_length_pos (hlength ▸ List.length_pos_iff.2 hr)

theorem leaf_keepsFilled {m : LeafMap} {x : Expr}
    (hx : ∀ r, x.ownRegister? = some r → r.bits ≠ []) :
    KeepsFilled (m.leaf x) := by
  cases x with
  | clbit bit => exact (KeepsFilled.ofExcept _).bind fun image => .ofExcept (.ok _)
  | register r => exact (register_keepsFilled (hx r rfl)).bind fun image => .ofExcept (.ok _)
  | var | stretch | value | unary | binary | cast | index => exact .ofExcept (.ok _)

/-- Records that name no empty register make no empty alias. -/
theorem records_keepsFilled {m : LeafMap} (p : Placement) {records : List Instruction}
    (hnamed : ∀ i ∈ records, ∀ r ∈ i.operation.nodes.filterMap Expr.ownRegister?, r.bits ≠ []) :
    KeepsFilled (m.records p records) :=
  @records_related m Unit (fun _ _ f => KeepsFilled f) KeepsFilled.sequential.sequencing
    (fun _ => KeepsFilled.sequential.ofExcept) m rfl (fun _ => [])
    p records fun i hi _ hx => leaf_keepsFilled fun r hr =>
      hnamed i hi r (List.mem_filterMap.2 ⟨_, hx, hr⟩)

end LeafMap

namespace Circuit

variable {A : Policy} {c d e w w' source : Circuit} {o : ComposeOptions} {p : Placement}
  {s : Splice} {u : Content} {l : BitList .classical}

/-! ## Taking the records apart -/

/-- A record without a definition stays. -/
theorem addExpanded_of_plain {i : Instruction}
    (hplain : ∀ op, i.operation = .custom op → op.definition = none) :
    addExpanded i = Edit.within contentFocus (Content.push i) := by
  unfold addExpanded
  split
  · rename_i hop
    cases hplain _ hop
  · rfl

theorem each_addExpanded_of_plain {records : List Instruction}
    (hplain : ∀ i ∈ records, ∀ op, i.operation = .custom op → op.definition = none)
    {content : Content} (h : Edit.each Content.push records c.content = .ok () content) :
    Edit.each addExpanded records c = .ok () { c with content := content } := by
  induction records generalizing c with
  | nil =>
    cases h
    cases c
    rfl
  | cons i rest ih =>
    obtain ⟨hi, hrest⟩ := List.forall_mem_cons.1 hplain
    obtain ⟨_, v, hv, h⟩ := Edit.bind_eq_ok_iff.1 h
    refine Edit.bind_eq_ok_iff.2
      ⟨(), { c with content := v }, ?_, @ih { c with content := v } hrest h⟩
    rw [addExpanded_of_plain hi]
    exact Edit.within_eq_ok_iff.2 ⟨v, hv, rfl⟩

/-- An operation made of a circuit is taken apart into the circuit. -/
theorem addExpanded_of_toOperation {op : CustomOp} (hop : source.toOperation = .ok op)
    (qubits clbits : List Nat) : addExpanded (.make (.custom op) qubits clbits) =
      compose source (.onto qubits clbits) := by
  obtain ⟨_, rfl⟩ := toOperation_eq_ok hop
  rfl

/-- The records that were there before all operations come back first, into a circuit that has all
the clbits already. -/
theorem expands_copyEmpty (hc : c.Ready A) (hw : w.Reachable A) (hname : w.name = c.name)
    (hqubits : w.content.qubits = c.content.qubits)
    (hclbits : c.content.clbits.bits ≠ [] → w.content.clbits = c.content.clbits)
    (hidentifiers : w.content.identifiers = c.content.identifiers)
    (hphase : w.content.phase = c.content.phase)
    (hrecords : c.content.records ⊆ w.content.records)
    (hplain : ∀ i ∈ c.content.records, ∀ op, i.operation = .custom op → op.definition = none) :
    ∃ e, Edit.each addExpanded c.content.records (w.copyEmpty none .alike) = .ok () e ∧
      Expands A w.content.clbits c e := by
  have hstart := hw.copyEmpty none .alike
  have hapart := hc.named.resolves.apart
  have hover : (w.content.copyEmpty .alike).table.Over fun q => c.content.table.contains q :=
    (ParameterTable.Over.empty _).trackPhase hapart fun q hq =>
      hc.named.contains_of_phase (hphase ▸ hq)
  have hlisted : ∀ i ∈ c.content.records, ∀ v ∈ i.operation.freeParameters,
      c.content.table.contains v.2 := fun i hi v hv => hc.named.contains_of_record hi hv
  obtain ⟨t, ht⟩ := Content.each_push_ok (c := w.content.copyEmpty .alike)
    hstart.built.orderly.clbits (.of_over hover hapart)
    (fun i hi => (hw.built.orderly.fits i (hrecords hi)).within
      ⟨.refl _, .refl _, fun _ hj => hj⟩) hlisted
  have hrun := each_addExpanded_of_plain (c := w.copyEmpty none .alike) hplain ht
  have hreach := (Edit.Keeps.each fun i hi =>
    Reachable.addExpanded (hc.reachable.built.ofBuilt hi)) _ _ hstart (.of_ok hrun)
  refine ⟨_, hrun, ⟨hreach, rfl, hreach.built.indexed, ?_⟩, hname, hqubits, ?_, hidentifiers, rfl,
    hphase⟩
  · refine (hover.trackFrom hapart _ fun slots hslots => ?_).resolves
    obtain ⟨i, hi, rfl⟩ := List.mem_map.1 hslots
    exact hlisted i hi
  · show w.content.clbits = _
    split
    · rfl
    · exact hclbits ‹_›

/-! ## A run -/

/-- Compose circuits onto the circuit one after another, each as one operation or spliced in. -/
def composeAll (wrap : Bool) (sources : List (Circuit × ComposeOptions)) : Edit Circuit Unit :=
  Edit.each (fun (source, o) => compose source { o with wrap := wrap }) sources

/-- That no classical register is empty, neither one that the circuit has nor one that an operation
of it names. Those in a duration need not be there. -/
structure Filled (c : Circuit) : Prop where
  listed : ∀ r ∈ c.content.clbits.registers, r.bits ≠ []
  named : ∀ i ∈ c.content.records, ∀ r ∈ i.operation.nodes.filterMap Expr.ownRegister?, r.bits ≠ []

/-- That the circuits can stand as operations, have no empty registers and go to the end. -/
def BackInsertions (A : Policy) (sources : List (Circuit × ComposeOptions)) : Prop :=
  ∀ s ∈ sources, s.1.Wrappable A ∧ s.1.Filled ∧ s.2.front = false

/-- The operations that make `w'` of `w` can be taken apart into what makes `d` of `c`, whatever
clbits there are by then: if there are any in `w'`, they are those. -/
structure Unfolds (A : Policy) (c d w w' : Circuit) : Prop where
  wraps : WrapOf A d w'
  name : w'.name = w.name
  qubits : w'.content.qubits = w.content.qubits
  clbits : w.content.clbits.bits ≠ [] → w'.content.clbits = w.content.clbits
  identifiers : w'.content.identifiers = w.content.identifiers
  phase : w'.content.phase = w.content.phase
  added : ∃ added, w'.content.records = w.content.records ++ added ∧
    ∀ l, (w'.content.clbits.bits ≠ [] → l = w'.content.clbits) → ∀ e, Expands A l c e →
      ∃ e', Edit.each addExpanded added e = .ok () e' ∧ Expands A l d e'

namespace Unfolds

theorem refl (h : WrapOf A c w) : Unfolds A c c w w :=
  ⟨h, rfl, rfl, fun _ => rfl, rfl, rfl, [], (List.append_nil _).symm, fun _ _ e he => ⟨e, rfl, he⟩⟩

theorem trans {c₁ w₁ : Circuit} (h₁ : Unfolds A c c₁ w w₁) (h₂ : Unfolds A c₁ d w₁ w') :
    Unfolds A c d w w' := by
  obtain ⟨added₁, hrecords₁, hexpand₁⟩ := h₁.added
  obtain ⟨added₂, hrecords₂, hexpand₂⟩ := h₂.added
  have hclbits : w.content.clbits.bits ≠ [] → w'.content.clbits = w.content.clbits := fun hsome =>
    (h₂.clbits (h₁.clbits hsome ▸ hsome)).trans (h₁.clbits hsome)
  refine ⟨h₂.wraps, h₂.name.trans h₁.name, h₂.qubits.trans h₁.qubits, hclbits,
    h₂.identifiers.trans h₁.identifiers, h₂.phase.trans h₁.phase, added₁ ++ added₂, ?_, ?_⟩
  · rw [hrecords₂, hrecords₁, List.append_assoc]
  · intro l hl e he
    -- clbits that are there after the first run are there for good
    obtain ⟨e₁, hrun₁, he₁⟩ := hexpand₁ l (fun hsome => by
      have hkept := h₂.clbits hsome
      rw [← hkept]
      exact hl (hkept ▸ hsome)) e he
    obtain ⟨e₂, hrun₂, he₂⟩ := hexpand₂ l hl e₁ he₁
    exact ⟨e₂, (Edit.each_append_of_ok hrun₁).trans hrun₂, he₂⟩

end Unfolds

/-- One source. -/
theorem WrapOf.unfolds (hw : WrapOf A c w) (hc : c.Ready A) (hsource : source.Wrappable A)
    (hfront : o.front = false) (hout : Outcome c source { o with wrap := false } d p s [] u)
    (hd : d.Ready A) (hregisters : ∀ r ∈ d.content.clbits.registers, r.bits ≠ []) :
    ∃ w', compose source { o with wrap := true } w = .ok () w' ∧ Unfolds A c d w w' := by
  obtain ⟨op, l, hop, hl, hrun, hwraps⟩ := hw.step hc hsource hfront hout hd hregisters
  refine ⟨_, hrun, hwraps, rfl, rfl, fun hsome => ?_, rfl, rfl,
    [.make (.custom op) p.qubits p.clbits], rfl, fun k hk e he => ?_⟩
  · cases hbring : p.bringClbits with
    | true => exact absurd (hw.bits.trans (hout.placed.empty_of_brings hbring)) hsome
    | false =>
      rw [hbring] at hl
      exact (EStateM.Result.ok.inj hl).2.symm
  · have hprepared := Expands.prepared hc hsource hout hregisters he hw.bare hl
      fun hsome => hk (hwraps.bits ▸ hsome)
    obtain ⟨e', hcompose, he'⟩ := Expands.step hc hsource hout he hfront hprepared
    refine ⟨e', ?_, he'⟩
    exact Edit.bind_eq_ok_iff.2
      ⟨(), e', (addExpanded_of_toOperation hop _ _) ▸ hcompose, rfl⟩

/-- A splice of a circuit without empty registers makes no empty alias. -/
theorem Filled.aliases (hsource : source.Filled) (h : c.splice source o p = .ok s) :
    ∀ r ∈ s.aliases, r.bits ≠ [] := by
  obtain ⟨-, images, choice, -, -, hrecords, haliases⟩ := splice_worked h
  rw [haliases]
  exact LeafMap.records_keepsFilled p hsource.named _ s.records choice
    (fun _ hr => absurd hr List.not_mem_nil) hrecords

theorem Filled.registers (hsource : source.Filled) (hout : Outcome c source o d p s [] u)
    (hregisters : ∀ r ∈ c.content.clbits.registers, r.bits ≠ []) :
    ∀ r ∈ d.content.clbits.registers, r.bits ≠ [] := by
  rw [hout.registers]
  refine List.forall_mem_append.2 ⟨List.forall_mem_append.2 ⟨hregisters, ?_⟩,
    hsource.aliases hout.splice⟩
  split
  · exact hsource.listed
  · exact fun _ hr => absurd hr List.not_mem_nil

/-- If circuits can be spliced in one after another, they can be added as operations, and these
unfold. -/
theorem WrapOf.unfolds_all {sources : List (Circuit × ComposeOptions)} (hw : WrapOf A c w)
    (hc : c.Ready A) (hregisters : ∀ r ∈ c.content.clbits.registers, r.bits ≠ [])
    (hsources : BackInsertions A sources) (h : composeAll false sources c = .ok () d) :
    ∃ w', composeAll true sources w = .ok () w' ∧ d.Ready A ∧ Unfolds A c d w w' := by
  induction sources generalizing c w with
  | nil =>
    cases h
    exact ⟨w, rfl, hc, .refl hw⟩
  | cons first rest ih =>
    obtain ⟨⟨hsource, hfilled, hfront⟩, hrest⟩ := List.forall_mem_cons.1 hsources
    obtain ⟨_, c₁, hfirst, h⟩ := Edit.bind_eq_ok_iff.1 h
    obtain ⟨p, s, u, hout, hc₁⟩ := outcome_of_compose hc hsource rfl hfirst
    have hregisters₁ := hfilled.registers hout hregisters
    obtain ⟨w₁, hrun₁, hunfolds₁⟩ := hw.unfolds hc hsource hfront hout hc₁ hregisters₁
    obtain ⟨w', hrun, hd, hunfolds⟩ := ih hunfolds₁.wraps hc₁ hregisters₁ hrest h
    exact ⟨w', (Edit.bind_apply_of_ok hrun₁).trans hrun, hd, hunfolds₁.trans hunfolds⟩

/-! ## There and back -/

/-- To splice circuits in one after another is to add each as one operation and then to take these
apart, once: where names resolve and no classical register is empty, if the one answers, so does
the other, and the two circuits are the same. -/
theorem Reachable.decompose_wrapped {sources : List (Circuit × ComposeOptions)}
    (hc : c.Reachable A) (hclosed : c.blocks = []) (hnames : c.content.FoundByName)
    (hregisters : ∀ r ∈ c.content.clbits.registers, r.bits ≠ [])
    (hplain : ∀ i ∈ c.content.records, ∀ op, i.operation = .custom op → op.definition = none)
    (hsources : BackInsertions A sources) (h : composeAll false sources c = .ok () d) :
    ∃ w e, composeAll true sources c = .ok () w ∧ w.decompose = .ok e ∧ e.SameAs d := by
  have hready : c.Ready A := ⟨hc, hclosed, hc.built.named hnames⟩
  obtain ⟨w, hrun, hd, hunfolds⟩ :=
    (WrapOf.refl hready).unfolds_all hready hregisters hsources h
  obtain ⟨added, hrecords, hexpand⟩ := hunfolds.added
  -- first the records that were there before, then the operations
  obtain ⟨e₁, hrun₁, he₁⟩ := expands_copyEmpty hready hunfolds.wraps.reachable hunfolds.name
    hunfolds.qubits hunfolds.clbits hunfolds.identifiers hunfolds.phase
    (hrecords ▸ List.subset_append_left _ _) hplain
  obtain ⟨e, hrun₂, he⟩ := hexpand w.content.clbits (fun _ => rfl) e₁ he₁
  have hscope : ¬ w.inScope = true := by simp [inScope, hunfolds.wraps.closed]
  have hclbits : e.content.clbits = d.content.clbits := by
    rw [he.clbits]
    split
    · exact hunfolds.wraps.bare ‹_›
    · rfl
  refine ⟨w, e, hrun, ?_, he.name, he.ready.closed.trans hd.closed.symm,
    he.ready.named.sameAs hd.named he.records he.phase he.qubits hclbits he.identifiers⟩
  rw [Circuit.decompose, if_neg hscope, Edit.finalState_eq_ok_iff, hrecords,
    Edit.each_append_of_ok hrun₁]
  exact hrun₂

/-- A circuit on two qubits, without clbits, with a phase and a rotation. -/
def phasedRotation : Circuit :=
  ⟨"d", Content.empty.after
    [.setPhase (.sym ⟨"a", ⟨1, 0⟩, none⟩), .addRegister .quantum (.make .quantum "q" 2 1),
      .push (.make (.gate (.rotation .rz (.sym ⟨"a", ⟨1, 0⟩, none⟩))) [0] [])], []⟩

/-- A circuit on two qubits that measures one of them and copies its register to itself. -/
def measuresAndCopies : Circuit :=
  let register := Register.make .classical "cr" 2 2
  let copy := Operation.store ⟨.register register, .register register⟩
  ⟨"s", Content.empty.after
    [.setPhase (.sym ⟨"b", ⟨3, 0⟩, none⟩), .addRegister .quantum (.make .quantum "q" 2 3),
      .addRegister .classical register, .push (.make .measure [1] [0]), .push (.make copy [] [])],
    []⟩

/-- The same twice: at first it brings its clbits and its register along, and then the clbits cross
over, for which an alias is made. -/
def measuredTwice : List (Circuit × ComposeOptions) :=
  [(measuresAndCopies, {}), (measuresAndCopies, .onto [1, 0] [1, 0])]

theorem decompose_wrapped_twice :
    phasedRotation.Reachable .any ∧ phasedRotation.blocks = [] ∧
      phasedRotation.content.FoundByName ∧
      (∀ r ∈ phasedRotation.content.clbits.registers, r.bits ≠ []) ∧
      (∀ i ∈ phasedRotation.content.records, ∀ op, i.operation = .custom op →
        op.definition = none) ∧
      BackInsertions .any measuredTwice ∧
      ∃ d w e, composeAll false measuredTwice phasedRotation = .ok () d ∧
        composeAll true measuredTwice phasedRotation = .ok () w ∧
        w.decompose = .ok e ∧ e.SameAs d := by
  have hc : phasedRotation.Reachable .any := .ofStore "d" (.empty_after rfl)
  have hnames : phasedRotation.content.FoundByName := by
    refine (Content.named_invariant.empty.after fun k hk => ?_).foundByName
    simp only [List.mem_cons, List.not_mem_nil, or_false] at hk
    rcases hk with rfl | rfl | rfl <;> exact fun s strict heq => by cases heq
  have hregisters : ∀ r ∈ phasedRotation.content.clbits.registers, r.bits ≠ [] := by
    decide +kernel
  have hplain : ∀ i ∈ phasedRotation.content.records, ∀ op, i.operation = .custom op →
      op.definition = none := by
    have hrecords : phasedRotation.content.records =
        [.make (.gate (.rotation .rz (.sym ⟨"a", ⟨1, 0⟩, none⟩))) [0] []] := rfl
    rw [hrecords]
    intro i hi op hop
    rw [List.mem_singleton.1 hi] at hop
    cases hop
  have hsources : BackInsertions .any measuredTwice := by
    have hwrappable : measuresAndCopies.Wrappable .any :=
      ⟨.ofStore "s" (.empty_after rfl), rfl, by decide +kernel⟩
    have hfilled : measuresAndCopies.Filled := ⟨by decide +kernel, by decide +kernel⟩
    intro s hs
    simp only [measuredTwice, List.mem_cons, List.not_mem_nil, or_false] at hs
    rcases hs with rfl | rfl <;> exact ⟨hwrappable, hfilled, rfl⟩
  obtain ⟨d, hd⟩ : ∃ d, composeAll false measuredTwice phasedRotation = .ok () d :=
    Edit.answers_of_isOk (by decide +kernel)
  obtain ⟨w, e, hw, he, hsame⟩ := hc.decompose_wrapped rfl hnames hregisters hplain hsources hd
  exact ⟨hc, rfl, hnames, hregisters, hplain, hsources, d, w, e, hd, hw, he, hsame⟩

end Circuit

end QuantumCircuit
