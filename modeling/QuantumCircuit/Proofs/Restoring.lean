import QuantumCircuit.Proofs.Composing
import QuantumCircuit.Proofs.Refusing

/-!
# Refused calls on a store

A call that changes a store and is refused leaves nothing behind that a reader could tell
(`Content.Built.reads_as_before`), as long as the store has not run out of positions for bits.

All calls but one write nothing before their last check (`Content.Change.eq_of_refused`). Setting
the phase gives the parameters of the old phase up first, and takes them back when the new one is
refused. Their entries in the index may then stand in another order, so the store is not the same;
but what an index answers depends only on the records and the phase that it is in step with
(`Content.Named.readsAs`).
-/

namespace QuantumCircuit

/-! ## The canonical order without ties -/

namespace Parameter

variable {p q : Parameter}

theorem keyLe_antisymm {a b : String × Option Nat} (hab : keyLe a b) (hba : keyLe b a) : a = b := by
  obtain ⟨a, i⟩ := a
  obtain ⟨b, j⟩ := b
  unfold keyLe at hab hba
  by_cases h : a = b
  · subst h
    cases i <;> cases j <;> simp_all
    omega
  · simp only [h, Ne.symm h, if_false, decide_eq_true_eq] at hab hba
    exact absurd (String.lt_trans hab hba) (String.lt_irrefl a)

/-- That an element of a vector is named by its place there. -/
def NamedByPlace (p : Parameter) : Prop :=
  ∀ e, p.element = some e → p.name = e.vector ++ "[" ++ toString e.index ++ "]"

/-- Parameters that the canonical order does not tell apart have one name. -/
theorem name_eq_of_le_of_le (hp : p.NamedByPlace) (hq : q.NamedByPlace) (hpq : p.le q)
    (hqp : q.le p) : p.name = q.name := by
  have hkey : p.sortKey = q.sortKey := keyLe_antisymm hpq hqp
  unfold sortKey at hkey
  cases hpe : p.element with
  | none =>
    cases hqe : q.element with
    | none => simpa [hpe, hqe] using hkey
    | some b => simp [hpe, hqe] at hkey
  | some a =>
    cases hqe : q.element with
    | none => simp [hpe, hqe] at hkey
    | some b =>
      obtain ⟨hvector, hindex⟩ : a.vector = b.vector ∧ a.index = b.index := by
        simpa [hpe, hqe, UInt32.toNat_inj] using hkey
      rw [hp a hpe, hq b hqe, hvector, hindex]

end Parameter

/-- The elements of a new vector are named by their places. -/
theorem ParameterVector.namedByPlace_make {name : String} {size stamp : Nat} :
    ∀ p ∈ (ParameterVector.make name size stamp).elements, p.NamedByPlace := by
  intro p hp
  obtain ⟨i, -, rfl⟩ := List.mem_map.1 hp
  intro e he
  cases he
  rfl

namespace ParameterTable

variable {t u : ParameterTable}

/-- Which parameters are in use follows from the sites. -/
theorem WellFormed.contains_congr (ht : t.WellFormed) (hu : u.WellFormed)
    (h : ∀ site p, t.Notes site p ↔ u.Notes site p) (p : Parameter) : t.contains p = u.contains p :=
  Bool.eq_iff_iff.2 (by rw [ht.contains_iff, hu.contains_iff]; simp only [h])

/-- And what names give follows from which parameters are in use, where names resolve. -/
theorem Resolves.named?_congr (ht : t.Resolves) (hu : u.Resolves)
    (h : ∀ p, t.contains p = u.contains p) (name : String) : t.named? name = u.named? name := by
  refine Option.ext fun p => ?_
  show t.named? name = some p ↔ u.named? name = some p
  rw [ht name p, hu name p, h p]

theorem WellFormed.perm_sorted (ht : t.WellFormed) (hu : u.WellFormed)
    (h : ∀ p, t.contains p = u.contains p) : t.sorted.Perm u.sorted := by
  refine (List.perm_ext_iff_of_nodup ht.nodup_sorted hu.nodup_sorted).2 fun p => ?_
  rw [ht.mem_sorted_iff, hu.mem_sorted_iff, h p]

theorem WellFormed.length_sorted (ht : t.WellFormed) : t.sorted.length = t.size := by
  rw [ht.sorted_eq, (Sorting.perm_sort Parameter.le _).length_eq]
  exact List.length_map _

/-- Without ties the canonical order is one list. -/
theorem WellFormed.sorted_congr (ht : t.WellFormed) (hu : u.WellFormed) (hnames : t.Resolves)
    (h : ∀ p, t.contains p = u.contains p) (hplaces : ∀ p ∈ t.sorted, p.NamedByPlace) :
    t.sorted = u.sorted := by
  have hperm := ht.perm_sorted hu h
  refine hperm.eq_of_pairwise (fun p q hp hq hpq hqp => ?_) ht.pairwise_sorted hu.pairwise_sorted
  have hq : q ∈ t.sorted := hperm.mem_iff.2 hq
  exact hnames.eq_of_name_eq (ht.mem_sorted_iff.1 hp) (ht.mem_sorted_iff.1 hq)
    (Parameter.name_eq_of_le_of_le (hplaces p hp) (hplaces q hq) hpq hqp)

/-! ## Look-ups that give what is in use -/

/-- Well-formed, and what a look-up by name gives is in use and has the name. -/
structure Reliable (t : ParameterTable) : Prop where
  wellFormed : t.WellFormed
  honest : t.Honest

namespace Reliable

theorem empty : Reliable empty := ⟨wellFormed_empty, resolves_empty.honest⟩

theorem track (h : t.Reliable) (site : ParameterUse) (p : Parameter) : (t.track site p).Reliable :=
  ⟨h.wellFormed.track site p, h.honest.track h.wellFormed site p⟩

theorem untrack (h : t.Reliable) (site : ParameterUse) (p : Parameter) :
    (t.untrack site p).Reliable :=
  ⟨h.wellFormed.untrack site p, h.honest.untrack h.wellFormed site p⟩

section Lists

variable {α : Type} (f : α → ParameterUse × Parameter) (l : List α)

theorem foldl_track (h : t.Reliable) :
    (l.foldl (fun t a => t.track (f a).1 (f a).2) t).Reliable :=
  List.foldlRecOn l _ h fun _ ht _ _ => ht.track _ _

theorem foldl_untrack (h : t.Reliable) :
    (l.foldl (fun t a => t.untrack (f a).1 (f a).2) t).Reliable :=
  List.foldlRecOn l _ h fun _ ht _ _ => ht.untrack _ _

end Lists

theorem trackPhase (h : t.Reliable) (ps : List Parameter) : (t.trackPhase ps).Reliable :=
  h.foldl_track (.phase, ·) ps

theorem untrackPhase (h : t.Reliable) (ps : List Parameter) : (t.untrackPhase ps).Reliable :=
  h.foldl_untrack (.phase, ·) ps

theorem trackRecord (h : t.Reliable) (k : Nat) (slots : List (Nat × Parameter)) :
    (t.trackRecord k slots).Reliable :=
  h.foldl_track (fun u : Nat × Parameter => (.record k u.1, u.2)) slots

theorem trackFrom (h : t.Reliable) (n : Nat) (records : List (List (Nat × Parameter))) :
    (t.trackFrom n records).Reliable := by
  induction records generalizing t n with
  | nil => exact h
  | cons slots rest ih => exact ih (h.trackRecord n slots) (n + 1)

theorem build (phase : List Parameter) (records : List (List (Nat × Parameter))) :
    (build phase records).Reliable := by
  rw [build_eq_trackFrom]
  exact (empty.trackPhase phase).trackFrom 0 records

theorem foldl_stage (h : t.Reliable) (stages : List Stage) : (stages.foldl stage t).Reliable :=
  List.foldlRecOn stages _ h fun _ ht g _ =>
    (ht.foldl_untrack id g.before).foldl_track id g.after

end Reliable

end ParameterTable

namespace Content

variable {c d : Content} {e : CircuitError}

theorem SameUses.reliable (h : c.SameUses d) (hc : c.table.Reliable) : d.table.Reliable :=
  h.table ▸ hc

/-- Every call, assignments included, leaves look-ups by name reliable. -/
theorem reliable_invariant : Invariant .any fun c => c.table.Reliable where
  empty := .empty
  addBit bit c d hc hd := (addBit_sameUses hd).reliable hc
  addRegister r c d hc hd := (addRegister_sameUses hd).reliable hc
  addIdentifier i kind c d hc hd := (addIdentifier_sameUses hd).reliable hc
  snoc c i hc _ := hc.trackRecord _ _
  front _ _ _ _ _ := .build _ _
  pop c i d hc hd := by
    obtain ⟨-, rfl⟩ := pop?_eq_some_iff.1 hd
    exact hc.foldl_untrack (fun u : Nat × Parameter => (.record (c.records.length - 1) u.1, u.2)) _
  clear _ _ := .build _ _
  setPhase phase c d hc hd := by
    rcases setPhase_leaves hd with rfl | rfl
    · exact (hc.untrackPhase _).trackPhase _
    · exact (hc.untrackPhase _).trackPhase _
  setDuration _ _ hc := hc
  listParameters c d hc hd := by
    obtain rfl := listParameters_leaves_iff.1 hd
    exact ⟨hc.wellFormed.remembered, hc.honest⟩
  copyEmpty c mode _ := ParameterTable.Reliable.empty.trackPhase _
  assign c s d hc _ hd := by
    obtain ⟨-, assigned, -, rfl⟩ := assign_eq_ok_iff.1 hd
    rw [reassigned_table]
    exact hc.foldl_stage _

theorem Built.honest {A : Policy} (h : c.Built A) : c.table.Honest :=
  (h.everywhere_any reliable_invariant).here.honest

/-- That each parameter in use is found by its name. Then no two of them have one name. -/
def FoundByName (c : Content) : Prop :=
  ∀ p, c.table.contains p → c.table.named? p.name = some p

/-- In a built store nothing else is found by a name then. -/
theorem Built.namesExact_iff_foundByName {A : Policy} (hc : c.Built A) :
    c.NamesExact ↔ c.FoundByName := by
  rw [Content.namesExact_iff]
  constructor
  · exact fun hnames p hp => (hnames p.name p).2 ⟨hp, rfl⟩
  · intro hfound n p
    constructor
    · exact hc.honest n p
    · rintro ⟨hp, rfl⟩
      exact hfound p hp

/-- So the index of a built store is in step with its data and resolves names. -/
theorem Built.named {A : Policy} (hc : c.Built A) (hnames : c.FoundByName) : c.Named :=
  ⟨hc.indexed, namesExact_iff.1 (hc.namesExact_iff_foundByName.2 hnames)⟩

theorem Named.foundByName (hc : c.Named) : c.FoundByName :=
  fun p hp => (hc.resolves p.name p).2 ⟨hp, rfl⟩

/-! ## Equal to every reader, duration and parameters included -/

/-- That whatever can be read from `d` is what can be read from `c`. The parameters are the same,
each once and in canonical order; where no two of them tie in that order, which the names of vector
elements see to, they are the same list. -/
structure ReadsAs (d c : Content) : Prop extends SameAs d c where
  duration : d.duration = c.duration
  size : d.table.size = c.table.size
  contains : ∀ p, d.table.contains p = c.table.contains p
  ordered : d.parameters.Pairwise (Parameter.le · ·)
  listed : d.parameters.Perm c.parameters
  parameters : (∀ p ∈ d.parameters, p.NamedByPlace) → d.parameters = c.parameters

namespace Named

variable (hd : d.Named) (hc : c.Named) (hrecords : d.records = c.records)
  (hphase : d.phase = c.phase)
include hd hc hrecords hphase

theorem notes_congr (site : ParameterUse) (p : Parameter) :
    d.table.Notes site p ↔ c.table.Notes site p := by
  rw [hd.notes, hc.notes]
  cases site <;> simp [ListsAt, hrecords, hphase]

variable (hqubits : d.qubits = c.qubits) (hclbits : d.clbits = c.clbits)
  (hidentifiers : d.identifiers = c.identifiers)
include hqubits hclbits hidentifiers

/-- Where names resolve, stores with equal data are the same, whatever the history of the index. -/
theorem sameAs : d.SameAs c := by
  have hnotes := hd.notes_congr hc hrecords hphase
  refine ⟨hqubits, hclbits, hidentifiers, hrecords, hphase, hnotes, ?_⟩
  exact hd.resolves.named?_congr hc.resolves (hd.wellFormed.contains_congr hc.wellFormed hnotes)

/-- If what is noted of the duration is equal as well, they read the same. -/
theorem readsAs (hduration : d.duration = c.duration) : d.ReadsAs c := by
  have hcontains :=
    hd.wellFormed.contains_congr hc.wellFormed (hd.notes_congr hc hrecords hphase)
  have hlisted : d.parameters.Perm c.parameters := hd.wellFormed.perm_sorted hc.wellFormed hcontains
  refine ⟨hd.sameAs hc hrecords hphase hqubits hclbits hidentifiers, hduration, ?_, hcontains,
    hd.wellFormed.pairwise_sorted, hlisted, ?_⟩
  · rw [← hd.wellFormed.length_sorted, ← hc.wellFormed.length_sorted]
    exact hlisted.length_eq
  · exact hd.wellFormed.sorted_congr hc.wellFormed hd.resolves hcontains

end Named

/-! ## Calls that write after their last check -/

/-- A call that changes a store: a call by positions, or one by handles or by names that comes down
to one. -/
inductive Change where
  | call (k : Call)
  | append (i : HandleInstruction)
  | assignValues (values : List Angle)
  | assignNamed (values : List (String × Angle))

/-- Make the call. What it answers is left out. -/
def Change.run : Change → Edit Content Unit
  | call k => k.run
  | append i => Content.append i
  | assignValues values => Content.assignValues values
  | assignNamed values => Content.assignNamed values

end Content

namespace BitList

variable {k : BitKind} {l l' : BitList k} {e : CircuitError}

/-- Members are refused only where positions have run out. -/
theorem capacity_le_of_addMembers {r : Register k} {place : Nat} {bits : List (Bit k)}
    (h : addMembers r place bits l = .error e l') : capacity ≤ l'.size := by
  induction bits generalizing place l with
  | nil => cases h
  | cons bit rest ih =>
    rcases Edit.bind_eq_error_iff.1 h with h | ⟨_, u, -, h⟩
    · obtain ⟨⟨-, hstrict, -⟩ | ⟨-, hfull, -⟩, rfl⟩ := add_eq_error_iff.1 h
      · cases hstrict
      · exact hfull
    · rcases Edit.bind_eq_error_iff.1 h with h | ⟨_, v, -, h⟩
      · cases h
      · exact ih h

theorem addRegister_refused {r : Register k} (h : addRegister r l = .error e l')
    (hsize : l'.size < capacity) : l' = l := by
  rcases Edit.bind_eq_error_iff.1 h with h | ⟨_, u, hget, h⟩
  · cases h
  cases hget
  refine Edit.eq_of_check_refused h fun _ _ h => ?_
  rcases Edit.bind_eq_error_iff.1 h with h | ⟨_, u, -, h⟩
  · exact absurd (capacity_le_of_addMembers h) (Nat.not_le_of_lt hsize)
  · cases h

end BitList

namespace Content

variable {c d : Content} {e : CircuitError}

theorem addBit_refused {k : BitKind} {bit : Bit k} (h : addBit bit c = .error e d) : d = c := by
  obtain ⟨l, hl, rfl⟩ := Edit.within_eq_error_iff.1 h
  obtain ⟨-, rfl⟩ := BitList.add_eq_error_iff.1 hl
  cases k <;> cases c <;> rfl

theorem addRegister_refused {k : BitKind} {r : Register k} (h : addRegister r c = .error e d)
    (hqubits : d.qubits.size < BitList.capacity) (hclbits : d.clbits.size < BitList.capacity) :
    d = c := by
  cases k with
  | quantum =>
    obtain ⟨l, hl, rfl⟩ := Edit.within_eq_error_iff.1 h
    obtain rfl := BitList.addRegister_refused hl hqubits
    cases c
    rfl
  | classical =>
    refine Edit.eq_of_check_refused (r := refuseIf (c.identifiers.hasName r.name) _) h
      fun _ _ h => ?_
    obtain ⟨l, hl, rfl⟩ := Edit.within_eq_error_iff.1 h
    obtain rfl := BitList.addRegister_refused hl hclbits
    cases c
    rfl

theorem push_refused {i : Instruction} (h : push i c = .error e d) : d = c :=
  (Edit.update_eq_error_iff.1 h).2.symm

theorem insertFront_refused {front : List Instruction} (h : insertFront front c = .error e d) :
    d = c :=
  (Edit.update_eq_error_iff.1 h).2.symm

theorem assignParameters_refused {s : Binding Float} {strict : Bool}
    (h : assignParameters s strict c = .error e d) : d = c :=
  (Edit.update_eq_error_iff.1 h).2.symm

/-- Apart from setting the phase, a call that is refused writes nothing. -/
theorem Change.eq_of_refused {k : Change} (hphase : ∀ phase, k ≠ .call (.setPhase phase))
    (h : k.run c = .error e d) (hqubits : d.qubits.size < BitList.capacity)
    (hclbits : d.clbits.size < BitList.capacity) : d = c := by
  cases k with
  | append i =>
    exact Edit.eq_of_check_refused (r := c.instructionOf i) h fun _ _ h => push_refused h
  | assignValues values =>
    exact Edit.eq_of_check_refused (r := refuseIf (values.length ≠ c.table.size) _) h
      fun _ _ h => assignParameters_refused h
  | assignNamed values =>
    exact Edit.eq_of_check_refused (r := c.bindingOfNames [] values) h
      fun _ _ h => assignParameters_refused h
  | call k =>
    cases k with
    | addBit k bit =>
      rcases Edit.bind_eq_error_iff.1 h with h | ⟨_, u, -, h⟩
      · exact addBit_refused h
      · cases h
    | addRegister k r => exact addRegister_refused h hqubits hclbits
    | addIdentifier i kind => exact (addIdentifier_eq_error_iff.1 h).2
    | push i => exact push_refused h
    | insertFront front => exact insertFront_refused h
    | setPhase phase => exact absurd rfl (hphase phase)
    | assign s strict => exact assignParameters_refused h
    -- the others are never refused
    | pop | clear | setDuration _ | listParameters | copyEmpty _ => cases h

/-! ## The phase, and all calls -/

/-- A phase that is refused leaves all but the index as it was, and names still resolve. -/
theorem setPhase_refused (hc : c.Named) {phase : Angle} (h : setPhase phase c = .error e d) :
    d.ReadsAs c := by
  have hd : d.Named := hc.setPhase (.of_error h)
  simp only [setPhase] at h
  split at h
  · cases h
  · cases h
    exact hd.readsAs hc rfl rfl rfl rfl rfl rfl

/-- A call that is refused on a built store in which parameters are found by their names: nothing
that can be read from the store has changed, neither bits with their locations, registers,
identifiers and counts, records, phase and duration, nor parameters with their use sites and
names. -/
theorem Built.reads_as_before {A : Policy} (hc : c.Built A) (hnames : c.FoundByName) (k : Change)
    (h : k.run c = .error e d) (hqubits : d.qubits.size < BitList.capacity)
    (hclbits : d.clbits.size < BitList.capacity) : d.ReadsAs c := by
  have hnamed := hc.named hnames
  by_cases hphase : ∃ phase, k = .call (.setPhase phase)
  · obtain ⟨phase, rfl⟩ := hphase
    exact setPhase_refused hnamed h
  · obtain rfl := Change.eq_of_refused (fun phase hk => hphase ⟨phase, hk⟩) h hqubits hclbits
    exact hnamed.readsAs hnamed rfl rfl rfl rfl rfl rfl

/-! ### A phase that is refused for a name -/

/-- Without assignments names stay exact. -/
theorem Named.after (hc : c.Named) {calls : List Call}
    (h : ∀ k ∈ calls, ∀ s strict, k ≠ .assign s strict) : (c.after calls).Named := by
  refine List.foldlRecOn calls _ hc fun b hb k hk => ?_
  have hallowed : k.Allowed KeepsNames b := by
    cases k with
    | assign s strict => exact absurd rfl (h _ hk s strict)
    | _ => trivial
  exact named_invariant.call hb hallowed (Edit.leaves_iff.2 rfl)

/-- The phase is `b`, and there is a rotation by `a`. -/
def phaseAndRotation : Content :=
  Content.empty.after [.setPhase (.sym ⟨"b", ⟨0, 1⟩, none⟩),
    .addBit .quantum (.loose .quantum ⟨2, 0⟩),
    .push (.make (.gate (.rotation .rz (.sym ⟨"a", ⟨0, 0⟩, none⟩))) [0] [])]

/-- Another parameter called `a` cannot come in as the phase. The entry of `b` has come to stand
behind that of `a` by then, but nothing that can be read has changed. -/
theorem reads_as_before_phase : phaseAndRotation.Built .any ∧ phaseAndRotation.FoundByName ∧
    ∃ e d, setPhase (.sym ⟨"a", ⟨1, 0⟩, none⟩) phaseAndRotation = .error e d ∧
      d.qubits.size < BitList.capacity ∧ d.clbits.size < BitList.capacity ∧
      Assoc.keys d.table.uses ≠ Assoc.keys phaseAndRotation.table.uses ∧
      d.ReadsAs phaseAndRotation := by
  have hbuilt : phaseAndRotation.Built .any :=
    .empty_after rfl
  have hnames : phaseAndRotation.FoundByName := by
    refine (named_invariant.empty.after fun k hk => ?_).foundByName
    simp only [List.mem_cons, List.not_mem_nil, or_false] at hk
    rcases hk with rfl | rfl | rfl <;> exact fun s strict heq => by cases heq
  obtain ⟨e, d, hd⟩ : ∃ e d, setPhase (.sym ⟨"a", ⟨1, 0⟩, none⟩) phaseAndRotation = .error e d :=
    ⟨_, _, rfl⟩
  have hsize : d.qubits.size < BitList.capacity ∧ d.clbits.size < BitList.capacity := by
    cases hd
    decide +kernel
  refine ⟨hbuilt, hnames, e, d, hd, hsize.1, hsize.2, ?_, ?_⟩
  · cases hd
    decide +kernel
  · exact hbuilt.reads_as_before hnames (.call (.setPhase (.sym ⟨"a", ⟨1, 0⟩, none⟩))) hd
      hsize.1 hsize.2

end Content

end QuantumCircuit
