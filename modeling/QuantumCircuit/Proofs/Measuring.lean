import QuantumCircuit.Proofs.Drawing
import QuantumCircuit.Proofs.Framing
import QuantumCircuit.Proofs.Positions

/-!
# Measuring everything

`Circuit.measureAll` adds a register, a barrier and the measurements of all qubits, on a copy of the
store that takes the place of the store when all is done. None of the steps is refused. The name of
the register is free, as a sequence of names gives it (`NameSequence.fresh_least`); the clbits are
new, so they come in and stand behind those that were there; then each record fits the store and has
no parameters (`Content.each_measureInto`). Only positions may run out, as they do for all bits.
`Circuit.measureAll_exact` says what comes of it.
-/

namespace QuantumCircuit

namespace Content

variable {c : Content} {i : Instruction}

/-- A register comes in among the clbits if no identifier has its name. -/
theorem addClassical_ok {r : ClassicalRegister} {l : BitList .classical}
    (hidentifiers : ¬ c.identifiers.hasName r.name)
    (hl : BitList.addRegister r c.clbits = .ok () l) :
    addRegister r c = .ok () { c with clbits := l } := by
  rw [addRegister, Edit.get_bind_apply]
  refine Edit.bind_eq_ok_iff.2 ⟨(), c, Edit.ofExcept_eq_ok_iff.2 ⟨?_, rfl⟩, ?_⟩
  · simpa using hidentifiers
  · exact Edit.within_eq_ok_iff.2 ⟨l, hl, rfl⟩

/-! ## Records without parameters -/

/-- A record that fits comes in if it has no parameters. -/
theorem push_plain (hclbits : c.clbits.Sound) (hfits : i.Fits c)
    (hplain : i.operation.freeParameters = []) :
    push i c = .ok () { c with records := c.records ++ [i], duration := none } := by
  refine push_eq_ok_iff.2 ⟨(check_eq_ok_iff hclbits).2 ⟨hfits, ?_⟩, ?_⟩
  · rw [hplain]
    rfl
  · rw [snoc, hplain]
    rfl

theorem barrier_fits {qubits : List Nat} (hqubits : ∀ q ∈ qubits, q < c.numQubits)
    (hnodup : qubits.Nodup) : (Instruction.barrier qubits).Fits c :=
  ⟨hqubits, fun _ hb => absurd hb List.not_mem_nil, rfl, rfl, hnodup, .nil,
    Surroundings.cover_nil _⟩

theorem measure_fits {qubit clbit : Nat} (hqubit : qubit < c.numQubits)
    (hclbit : clbit < c.numClbits) : (Instruction.measure qubit clbit).Fits c :=
  ⟨List.forall_mem_singleton.2 hqubit, List.forall_mem_singleton.2 hclbit, rfl, rfl,
    List.nodup_singleton _, List.nodup_singleton _, Surroundings.cover_nil _⟩

/-! ## Measurements one after another -/

/-- Measure a qubit into a clbit given by its handle. -/
def measureInto (u : Clbit × Nat) : Edit Content Unit := do
  let position ← Edit.ofExcept ((← get).clbits.resolve u.1 (some "measure"))
  push (.measure u.2 position)

/-- A measurement of a qubit that is there, into a clbit that is there, comes in. -/
theorem measureInto_ok (hclbits : c.clbits.Exact) {u : Clbit × Nat} {position : Nat}
    (hqubit : u.2 < c.numQubits) (hclbit : c.clbits.get? position = some u.1) :
    measureInto u c =
      .ok () { c with records := c.records ++ [.measure u.2 position], duration := none } := by
  have hindex : c.clbits.indexOf? u.1 = some position :=
    hclbits.indexOf?_eq_some_iff.2 hclbit
  have hlisted : position < c.numClbits := (List.getElem?_eq_some_iff.1 hclbit).1
  rw [measureInto, Edit.get_bind_apply]
  refine Edit.bind_eq_ok_iff.2 ⟨position, c, Edit.ofExcept_eq_ok_iff.2 ⟨?_, rfl⟩, ?_⟩
  · simp only [BitList.resolve, hindex]
  · exact push_plain hclbits.sound (measure_fits hqubit hlisted) rfl

/-- Measurements come in at the end, in their order. -/
theorem each_measureInto (hclbits : c.clbits.Exact) (hduration : c.duration = none)
    {pairs : List (Clbit × Nat)} {position : Nat → Nat} (hqubits : ∀ u ∈ pairs, u.2 < c.numQubits)
    (hpositions : ∀ u ∈ pairs, c.clbits.get? (position u.2) = some u.1) :
    Edit.each measureInto pairs c = .ok ()
      { c with records := c.records ++ pairs.map fun u => .measure u.2 (position u.2) } := by
  induction pairs generalizing c with
  | nil =>
    rw [List.map_nil, List.append_nil]
    cases c
    rfl
  | cons u rest ih =>
    obtain ⟨hqubit, hqubits⟩ := List.forall_mem_cons.1 hqubits
    obtain ⟨hclbit, hpositions⟩ := List.forall_mem_cons.1 hpositions
    refine Edit.bind_eq_ok_iff.2 ⟨(), _, measureInto_ok hclbits hqubit hclbit, ?_⟩
    refine (ih (c := { c with records := c.records ++ _, duration := none }) hclbits rfl hqubits
      hpositions).trans ?_
    rw [List.map_cons, List.append_assoc, hduration]
    rfl

/-- After a barrier over all qubits, their measurements into clbits that stand in a row. -/
theorem barrier_measures_ok (hclbits : c.clbits.Exact) {bits : List Clbit} {m : Nat}
    (hwidth : bits.length = c.numQubits)
    (hplaces : ∀ i bit, bits[i]? = some bit → c.clbits.get? (m + i) = some bit) :
    (push (.barrier (List.range c.numQubits)) >>= fun _ => Edit.each measureInto bits.zipIdx) c =
      .ok () { c with
        records := c.records ++ .barrier (List.range c.numQubits) ::
          (List.range c.numQubits).map fun i => .measure i (m + i)
        duration := none } := by
  have hpairs : ∀ u ∈ bits.zipIdx, bits[u.2]? = some u.1 := fun _ hu =>
    List.mem_zipIdx_iff_getElem?.1 hu
  have hbarrier := push_plain hclbits.sound
    (barrier_fits (fun q hq => List.mem_range.1 hq) List.nodup_range) rfl
  refine Edit.bind_eq_ok_iff.2 ⟨(), _, hbarrier, ?_⟩
  refine (each_measureInto (c := { c with records := c.records ++ _, duration := none }) hclbits rfl
    (fun u hu => ?_) fun u hu => hplaces u.2 u.1 (hpairs u hu)).trans ?_
  · exact hwidth ▸ (List.getElem?_eq_some_iff.1 (hpairs u hu)).1
  · -- the qubits measured are the places of the pairs
    have hqubits : bits.zipIdx.map Prod.snd = List.range c.numQubits := by
      rw [List.zipIdx_map_snd, hwidth, List.range_eq_range']
    rw [← hqubits, List.map_map, List.append_assoc]
    rfl

end Content

namespace Circuit

variable {A : Policy} {c d : Circuit} {stamp : Nat}

/-- The names that a new classical register must not have. -/
def takenNames (c : Circuit) : List String :=
  c.content.clbits.registers.map (·.name) ++ c.content.identifiers.names

/-- The name for a register of measurements: `meas`, or the first of `meas0`, `meas1`, … that is
free. -/
def measureName (c : Circuit) : String :=
  if c.takenNames.contains "meas" then ((NameSequence.ofStem "meas").fresh c.takenNames).1
  else "meas"

theorem measureName_not_mem (c : Circuit) : c.measureName ∉ c.takenNames := by
  unfold measureName
  split
  · exact NameSequence.fresh_not_mem _ _
  · rename_i hfree
    simpa using hfree

theorem measureName_of_free (h : "meas" ∉ c.takenNames) : c.measureName = "meas" := by
  unfold measureName
  rw [if_neg (by simpa using h)]

theorem measureName_of_taken (h : "meas" ∈ c.takenNames) :
    ∃ n : Nat, IsLeast {n : Nat | "meas" ++ toString n ∉ c.takenNames} n ∧
      c.measureName = "meas" ++ toString n := by
  obtain ⟨n, hleast, -, heq⟩ := (NameSequence.ofStem "meas").fresh_least c.takenNames
  refine ⟨n, ⟨hleast.1.2, fun k hk => hleast.2 ⟨Nat.zero_le k, hk⟩⟩, ?_⟩
  unfold measureName
  rw [if_pos (by simpa using h), heq]
  rfl

/-- What measuring every qubit into a new register makes of a circuit: at the end there come new
clbits, one for each qubit, the register over them, a barrier over all qubits, and the measurement
of each qubit into its clbit. All else stays, but that the duration is no longer known. -/
structure Measured (c d : Circuit) (r : ClassicalRegister) : Prop where
  width : r.bits.length = c.numQubits
  distinct : r.bits.Nodup
  fresh : ∀ bit ∈ r.bits, bit ∉ c.content.clbits.bits
  clbits : d.content.clbits.bits = c.content.clbits.bits ++ r.bits
  registers : d.content.clbits.registers = c.content.clbits.registers ++ [r]
  records : d.content.records = c.content.records ++ .barrier (List.range c.numQubits) ::
    (List.range c.numQubits).map fun i => .measure i (c.numClbits + i)
  rest : d = { c with content := { c.content with
    clbits := d.content.clbits, records := d.content.records, duration := none } }

/-- It answers if its edits do, made on a copy of the store one after another. -/
theorem measureAll_eq_ok {r : ClassicalRegister} {e f : Content} (hscope : c.inScope = false)
    (hsome : c.numQubits ≠ 0) (hr : r = .make .classical c.measureName c.numQubits stamp)
    (hregister : Content.addRegister r c.content = .ok () e)
    (hrecords : (Content.push (.barrier (List.range c.numQubits)) >>= fun _ =>
      Edit.each Content.measureInto r.bits.zipIdx) e = .ok () f) :
    measureAll stamp c = .ok () { c with content := f } := by
  refine Edit.update_eq_ok_iff.2 (Checking.seq_eq_ok_iff.2 ⟨?_, ?_⟩)
  · simpa using hscope
  · rw [if_neg hsome]
    refine Checking.bind_eq_ok_iff.2 ⟨f, Edit.finalState_eq_ok_iff.2 ?_, rfl⟩
    subst hr
    exact Edit.bind_eq_ok_iff.2 ⟨(), e, hregister, hrecords⟩

theorem measureAll_of_none (hscope : c.inScope = false) (hnone : c.numQubits = 0) :
    measureAll stamp c = .ok () c := by
  refine Edit.update_eq_ok_iff.2 (Checking.seq_eq_ok_iff.2 ⟨?_, ?_⟩)
  · simpa using hscope
  · rw [if_pos hnone]
    rfl

/-- With room for its bits and with the name for it, the register comes in. -/
theorem addMeasured_ok (hclbits : c.content.clbits.Sound)
    (hstamp : ∀ bit ∈ c.content.clbits.bits, bit.identity.stamp ≠ stamp)
    (hroom : c.numClbits + c.numQubits ≤ BitList.capacity) {r : ClassicalRegister}
    (hr : r = .make .classical c.measureName c.numQubits stamp) :
    ∃ l, Content.addRegister r c.content = .ok () { c.content with clbits := l } ∧
      l.bits = c.content.clbits.bits ++ r.bits ∧
      l.registers = c.content.clbits.registers ++ [r] ∧
      ∀ bit ∈ r.bits, bit ∉ c.content.clbits.bits := by
  subst hr
  obtain ⟨hregisters, hidentifiers⟩ := not_or.1
    (List.mem_append.not.1 c.measureName_not_mem)
  have hnew : ∀ bit ∈ (Register.make .classical c.measureName c.numQubits stamp).bits,
      bit ∉ c.content.clbits.bits := by
    intro bit hbit hlisted
    obtain ⟨i, -, rfl⟩ := List.mem_map.1 hbit
    exact hstamp _ hlisted rfl
  obtain ⟨l, hl, hbits, hnames⟩ := hclbits.addRegister_new
    (r := Register.make .classical c.measureName c.numQubits stamp)
    (BitList.register?_eq_none_iff.2 hregisters) (BitList.nodup_make _ _ _) hnew
    (by rw [BitList.size_make]; exact hroom)
  refine ⟨l, Content.addClassical_ok ?_ hl, hbits, hnames, hnew⟩
  exact fun htaken => hidentifiers (IdentifierTable.hasName_iff.1 htaken)

/-- With room for its bits, measuring everything adds what it should. -/
theorem measureAll_ok (hbuilt : c.content.Built A) (hscope : c.inScope = false)
    (hstamp : ∀ bit ∈ c.content.clbits.bits, bit.identity.stamp ≠ stamp)
    (hsome : c.numQubits ≠ 0) (hroom : c.numClbits + c.numQubits ≤ BitList.capacity) :
    ∃ d, measureAll stamp c = .ok () d ∧
      c.Measured d (.make .classical c.measureName c.numQubits stamp) := by
  generalize hr : Register.make .classical c.measureName c.numQubits stamp = r
  have hlength : r.bits.length = c.numQubits := hr ▸ BitList.size_make _ _ _
  obtain ⟨l, hl, hbits, hregisters, hnew⟩ :=
    addMeasured_ok hbuilt.exact.clbits.sound hstamp hroom hr.symm
  have hafter : Content.Built A { c.content with clbits := l } :=
    Content.Built.addRegister r _ _ hbuilt (.of_ok hl)
  have hplaces : ∀ i bit, r.bits[i]? = some bit → l.get? (c.numClbits + i) = some bit := by
    intro i bit hbit
    rw [BitList.get?, hbits]
    refine (List.getElem?_append_right (Nat.le_add_right c.numClbits i)).trans ?_
    exact (congrArg (r.bits[·]?) (Nat.add_sub_cancel_left c.numClbits i)).trans hbit
  have hrecords := Content.barrier_measures_ok hafter.exact.clbits hlength hplaces
  exact ⟨_, measureAll_eq_ok hscope hsome hr.symm hl hrecords, hlength,
    hr ▸ BitList.nodup_make _ _ _, hnew, hbits, hregisters, rfl, rfl⟩

/-- Measuring everything is refused only where positions run out, and then nothing happens. -/
theorem measureAll_refused {e : CircuitError} (hbuilt : c.content.Built A)
    (hscope : c.inScope = false)
    (hstamp : ∀ bit ∈ c.content.clbits.bits, bit.identity.stamp ≠ stamp)
    (h : measureAll stamp c = .error e d) :
    d = c ∧ BitList.capacity < c.numClbits + c.numQubits := by
  refine ⟨(Edit.update_eq_error_iff.1 h).2.symm, Nat.lt_of_not_le fun hroom => ?_⟩
  by_cases hsome : c.numQubits = 0
  · rw [measureAll_of_none hscope hsome] at h
    cases h
  · obtain ⟨_, hd, -⟩ := measureAll_ok hbuilt hscope hstamp hsome hroom
    rw [hd] at h
    cases h

/-- Whatever names are taken, and whatever its counter says, a sequence gives the name of the least
counter value from there on that is free: the loop that looks for it ends, after as many names as
are taken at the most, and leaves the counter just past it. So it never gives a name twice.

Measuring everything at the top level of a circuit gives a free name to its register in this way,
whatever registers and identifiers there are, and is refused only where positions run out. Without
qubits nothing happens. Else each qubit gets a new clbit, all of them in one new register, and is
measured into it after a barrier. The stamp must be new, as for all bits that are made, and the
clbits must stay as many as a 32-bit number can count. -/
theorem measureAll_exact (A : Policy) :
    (∀ (s : NameSequence) (taken : List String),
      ∃ n, IsLeast {n | s.next ≤ n ∧ s.nameAt n ∉ taken} n ∧ n ≤ s.next + taken.length ∧
        s.fresh taken = (s.stem ++ toString n, ⟨s.stem, n + 1⟩) ∧
        ∀ r, s.Draws taken r ↔ r = s.fresh taken) ∧
    (∀ (s : NameSequence) (calls : List (List String)), (s.freshNames calls).Nodup) ∧
    ∀ (c : Circuit) (stamp : Nat), c.Reachable A → c.inScope = false →
      (∀ bit ∈ c.content.clbits.bits, bit.identity.stamp ≠ stamp) →
      (∀ e d, measureAll stamp c = .error e d →
        d = c ∧ BitList.capacity < c.numClbits + c.numQubits) ∧
      (c.numQubits = 0 → measureAll stamp c = .ok () c) ∧
      (0 < c.numQubits → c.numClbits + c.numQubits < BitList.capacity →
        ∃ d name, measureAll stamp c = .ok () d ∧ name ∉ c.takenNames ∧
          ("meas" ∉ c.takenNames → name = "meas") ∧
          ("meas" ∈ c.takenNames → ∃ n : Nat,
            IsLeast {n : Nat | "meas" ++ toString n ∉ c.takenNames} n ∧
              name = "meas" ++ toString n) ∧
          c.Measured d (.make .classical name c.numQubits stamp)) := by
  refine ⟨fun s taken => ?_, fun s calls => s.nodup_freshNames calls,
    fun c stamp hreach hscope hstamp => ⟨?_, measureAll_of_none hscope, fun hsome hroom => ?_⟩⟩
  · obtain ⟨n, hleast, hbound, hfresh⟩ := s.fresh_least taken
    exact ⟨n, hleast, hbound, hfresh, fun r => NameSequence.draws_iff⟩
  · exact fun e d h => measureAll_refused hreach.built hscope hstamp h
  · obtain ⟨d, hd, hmeasured⟩ := measureAll_ok hreach.built hscope hstamp
      (Nat.ne_of_gt hsome) (Nat.le_of_lt hroom)
    exact ⟨d, _, hd, c.measureName_not_mem, measureName_of_free, measureName_of_taken, hmeasured⟩

/-- Two qubits, with `meas` the name of a register and `meas0` that of a variable. -/
def namesTaken : Circuit :=
  ⟨"c", Content.empty.after
    [.addRegister .quantum (.make .quantum "q" 2 0),
      .addRegister .classical (.make .classical "meas" 1 1),
      .addIdentifier (.var ⟨"meas0", .bool, ⟨2, 0⟩⟩) .declare], []⟩

/-- They are measured into `meas1`, behind the clbit that was there. -/
theorem measureAll_namesTaken : namesTaken.Reachable .any ∧ ∃ d,
    measureAll 3 namesTaken = .ok () d ∧
      namesTaken.Measured d (.make .classical "meas1" 2 3) := by
  have hreach : namesTaken.Reachable .any := .ofStore "c" (.empty_after rfl)
  have hstamp : ∀ bit ∈ namesTaken.content.clbits.bits, bit.identity.stamp ≠ 3 := by
    decide +kernel
  have htwo : namesTaken.numQubits = 2 := by decide +kernel
  obtain ⟨-, -, hmeasured⟩ := (measureAll_exact .any).2.2 namesTaken 3 hreach rfl hstamp
  obtain ⟨d, name, hd, -, -, hname, hmeasured⟩ :=
    hmeasured (by decide +kernel) (by decide +kernel)
  obtain ⟨n, ⟨hfree, hleast⟩, rfl⟩ := hname (by decide +kernel)
  have hzero : "meas" ++ toString 0 ∈ namesTaken.takenNames := by decide +kernel
  have hone : "meas" ++ toString 1 ∉ namesTaken.takenNames := by decide +kernel
  rcases Nat.le_one_iff_eq_zero_or_eq_one.1 (hleast hone) with rfl | rfl
  · exact absurd hzero hfree
  · exact ⟨hreach, d, hd, htwo ▸ hmeasured⟩

end Circuit

end QuantumCircuit
