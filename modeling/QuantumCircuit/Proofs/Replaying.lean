import QuantumCircuit.Proofs.Shadowing
import QuantumCircuit.Proofs.Restoring
import QuantumCircuit.Proofs.Splicing
import QuantumCircuit.Proofs.Mirroring

/-!
# Records replayed onto an empty copy

A circuit outside every block is rebuilt from an empty copy of itself by appending its records in
order (`Circuit.Reachable.replay`). The records may have come in by other ways than appending, so
it has to be known that each still fits the store it is in, and that no two parameters in use share
a name; then nothing is refused on the way (`Content.each_push_copyEmpty`).
-/

namespace QuantumCircuit

namespace Content

variable {c d : Content} {mode : IdentifierMode}

/-- The same bits, registers, records and phase, with the same parameters at the same sites. The
parameters come each once and in canonical order; where no two of them tie in that order, which the
names of vector elements see to, they are the same list. -/
structure ReplayOf (c d : Content) : Prop where
  qubits : d.qubits = c.qubits
  clbits : d.clbits = c.clbits
  records : d.records = c.records
  phase : d.phase = c.phase
  uses : ∀ site p, d.table.Notes site p ↔ c.table.Notes site p
  listed : d.parameters.Perm c.parameters
  parameters : (∀ p ∈ c.parameters, p.NamedByPlace) → d.parameters = c.parameters

/-- Stores in step with equal data use the same parameters at the same sites. -/
theorem Indexed.replayOf (hd : d.Indexed) (hc : c.Indexed) (hresolves : d.table.Resolves)
    (hqubits : d.qubits = c.qubits) (hclbits : d.clbits = c.clbits)
    (hrecords : d.records = c.records) (hphase : d.phase = c.phase) : ReplayOf c d := by
  have huses : ∀ site p, d.table.Notes site p ↔ c.table.Notes site p := by
    intro site p
    rw [hd.notes, hc.notes]
    cases site <;> simp [ListsAt, hrecords, hphase]
  have hcontains := hd.wellFormed.contains_congr hc.wellFormed huses
  have hlisted : d.parameters.Perm c.parameters := hd.wellFormed.perm_sorted hc.wellFormed hcontains
  refine ⟨hqubits, hclbits, hrecords, hphase, huses, hlisted, fun hplaces => ?_⟩
  apply hd.wellFormed.sorted_congr hc.wellFormed hresolves hcontains
  intro p hp
  exact hplaces p (hlisted.mem_iff.1 hp)

/-- What the identifiers of an empty copy contain, unless they are dropped. -/
theorem contains_copyEmpty_iff (hc : c.identifiers.Listed) (hmode : mode ≠ .drop)
    {i : Identifier} :
    (c.copyEmpty mode).identifiers.contains i ↔ c.identifiers.contains i := by
  cases mode with
  | alike => rfl
  | captures => exact hc.contains_asCaptures_iff
  | drop => exact absurd rfl hmode

/-- All records come in again where they came from, in whatever way they did. -/
theorem each_push_copyEmpty (hc : c.Orderly) (hindexed : c.Indexed) (hlisted : c.identifiers.Listed)
    (hapart : ParameterTable.Apart fun p => c.table.contains p) (hmode : mode ≠ .drop) :
    ∃ d, Edit.each push c.records (c.copyEmpty mode) = .ok () d ∧
      d.identifiers = (c.copyEmpty mode).identifiers ∧ d.table.Resolves ∧ d.qubits = c.qubits ∧
      d.clbits = c.clbits ∧ d.records = c.records ∧ d.phase = c.phase := by
  have hrecords : ∀ i ∈ c.records, ∀ u ∈ i.operation.freeParameters, c.table.contains u.2 :=
    fun i hi u hu => hindexed.contains_of_record hi hu
  have hover : (c.copyEmpty mode).table.Over fun p => c.table.contains p :=
    (ParameterTable.Over.empty _).trackPhase hapart fun p hp => hindexed.contains_of_phase hp
  have hwithin : c.Within (c.copyEmpty mode) :=
    ⟨.refl _, .refl _, fun i hi => (contains_copyEmpty_iff hlisted hmode).2 hi⟩
  obtain ⟨t, ht⟩ := each_push_ok (c := c.copyEmpty mode) hc.clbits (.of_over hover hapart)
    (fun i hi => (hc.fits i hi).within hwithin) hrecords
  refine ⟨_, ht, rfl, ?_, rfl, rfl, rfl, rfl⟩
  refine (hover.trackFrom hapart _ fun slots hslots => ?_).resolves
  obtain ⟨i, hi, rfl⟩ := List.mem_map.1 hslots
  exact hrecords i hi

end Content

namespace Circuit

variable {A : Policy} {c d : Circuit}

/-- Of two circuits only the bits, registers, records, phases and identifiers are compared. -/
theorem beq_congr (hqubits : d.content.qubits = c.content.qubits)
    (hclbits : d.content.clbits = c.content.clbits)
    (hrecords : d.content.records = c.content.records) (hphase : d.content.phase = c.content.phase)
    (hidentifiers : d.content.identifiers = c.content.identifiers) (e : Circuit) :
    (d == e) = (c == e) := by
  obtain ⟨name, content, blocks⟩ := c
  obtain ⟨name', content', blocks'⟩ := d
  obtain ⟨qubits, clbits, records, table, phase, identifiers, duration⟩ := content
  obtain ⟨qubits', clbits', records', table', phase', identifiers', duration'⟩ := content'
  cases hqubits
  cases hclbits
  cases hrecords
  cases hphase
  cases hidentifiers
  obtain ⟨name'', content'', blocks''⟩ := e
  obtain ⟨_, _, _, _, _, _, _⟩ := content''
  show Circuit.beq _ _ = Circuit.beq _ _
  simp only [Circuit.beq, Content.beq]

/-- To append all records of a circuit, in order, to an empty copy of it rebuilds the circuit,
where no two parameters in use share a name: no record is refused, and it compares with all circuits
as the first one does. If the identifiers of the copy were made captures, they are still, and
nothing else is different. -/
theorem Reachable.replay (hc : c.Reachable A) (hclosed : c.blocks = [])
    (hnames : ∀ p ∈ c.parameters, ∀ q ∈ c.parameters, p.name = q.name → p = q)
    (name : Option String) :
    (∃ d, Edit.each append c.content.records (c.copyEmpty name .alike) = .ok () d ∧
      d.name = name.getD c.name ∧ d.blocks = c.blocks ∧ c.content.ReplayOf d.content ∧
      d.content.identifiers = c.content.identifiers ∧ ∀ e : Circuit, (d == e) = (c == e)) ∧
    ∃ d, Edit.each append c.content.records (c.copyEmpty name .captures) = .ok () d ∧
      d.name = name.getD c.name ∧ d.blocks = c.blocks ∧ c.content.ReplayOf d.content ∧
      d.content.identifiers.toList =
        c.content.identifiers.toList.map fun (i, _) => (i, .capture) := by
  have hindexed := hc.built.indexed
  have hapart : ParameterTable.Apart fun p => c.content.table.contains p := by
    intro p q hp hq
    exact hnames p (hindexed.wellFormed.mem_sorted_iff.2 hp) q
      (hindexed.wellFormed.mem_sorted_iff.2 hq)
  have hreplay : ∀ mode : Content.IdentifierMode, mode ≠ .drop → ∃ d : Content,
      Edit.each append c.content.records (c.copyEmpty name mode) =
        .ok () ⟨name.getD c.name, d, []⟩ ∧
      c.content.ReplayOf d ∧ d.identifiers = (c.content.copyEmpty mode).identifiers := by
    intro mode hmode
    obtain ⟨d, hd, hidentifiers, hresolves, hqubits, hclbits, hrecords, hphase⟩ :=
      Content.each_push_copyEmpty hc.built.orderly hindexed hc.listed hapart hmode
    have hrun : Edit.each append c.content.records (c.copyEmpty name mode) =
        .ok () ⟨name.getD c.name, d, []⟩ := each_append_of_closed rfl hd
    have hreach : Reachable A ⟨name.getD c.name, d, []⟩ := by
      refine Edit.Keeps.each (fun i hi => ?_) _ _ (hc.copyEmpty name mode) (.of_ok hrun)
      intro u v hu hv
      exact hu.call (.append i) trivial (hc.built.ofBuilt hi) hv
    have hnew := hreach.built.indexed
    exact ⟨d, hrun, hnew.replayOf hindexed hresolves hqubits hclbits hrecords hphase, hidentifiers⟩
  constructor
  · obtain ⟨d, hrun, hreplayed, hidentifiers⟩ := hreplay .alike (by decide)
    refine ⟨_, hrun, rfl, hclosed.symm, hreplayed, hidentifiers, ?_⟩
    exact beq_congr hreplayed.qubits hreplayed.clbits hreplayed.records hreplayed.phase hidentifiers
  · obtain ⟨d, hrun, hreplayed, hidentifiers⟩ := hreplay .captures (by decide)
    refine ⟨_, hrun, rfl, hclosed.symm, hreplayed, ?_⟩
    show d.identifiers.toList = _
    rw [hidentifiers]
    exact hc.listed.toList_asCaptures

/-- A circuit with a variable, whose phase and last rotation use one parameter, and in which another
rotation was put before the first. -/
def rotationPutFirst : Circuit :=
  ⟨"d", Content.empty.after
    [.setPhase (.sym ⟨"a", ⟨0, 0⟩, none⟩), .addRegister .quantum (.make .quantum "q" 2 1),
      .addIdentifier (.var ⟨"v", .bool, ⟨2, 0⟩⟩) .declare,
      .push (.make (.gate (.rotation .rz (.sym ⟨"a", ⟨0, 0⟩, none⟩))) [0] []),
      .insertFront [.make (.gate (.rotation .rx (.sym ⟨"b", ⟨3, 0⟩, none⟩))) [1] []]], []⟩

theorem replay_rotationPutFirst : rotationPutFirst.Reachable .any ∧ rotationPutFirst.blocks = [] ∧
    (∀ p ∈ rotationPutFirst.parameters, ∀ q ∈ rotationPutFirst.parameters,
      p.name = q.name → p = q) ∧
    ∃ d, Edit.each append rotationPutFirst.content.records
        (rotationPutFirst.copyEmpty none .captures) = .ok () d ∧
      rotationPutFirst.content.ReplayOf d.content ∧
      d.content.identifiers.toList = [(.var ⟨"v", .bool, ⟨2, 0⟩⟩, .capture)] := by
  have hreach : rotationPutFirst.Reachable .any := .ofStore "d" (.empty_after rfl)
  have hparameters : rotationPutFirst.parameters =
      [⟨"a", ⟨0, 0⟩, none⟩, ⟨"b", ⟨3, 0⟩, none⟩] := by decide +kernel
  have hnames : ∀ p ∈ rotationPutFirst.parameters, ∀ q ∈ rotationPutFirst.parameters,
      p.name = q.name → p = q := by
    rw [hparameters]
    decide
  obtain ⟨-, d, hd, -, -, hreplayed, hcaptures⟩ := hreach.replay rfl hnames none
  exact ⟨hreach, rfl, hnames, d, hd, hreplayed, hcaptures⟩

end Circuit

end QuantumCircuit
