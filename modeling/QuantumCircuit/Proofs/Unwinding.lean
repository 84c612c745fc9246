import QuantumCircuit.Proofs.Lapsing

/-!
# What builders leave behind

A builder on a circuit without open blocks is one record or nothing (`Building.one_record`).

Where blocks are open, a builder that is refused leaves their qubits, locals and items as they
were, but not all else (`Building.refused_leaves`): the innermost block keeps what clbits and
registers the builder has read, and captures stay. The blocks are as before exactly if there was
nothing new to note.
-/

namespace QuantumCircuit

open Circuit (Call Closing)
open Traced (Runs Lapsed)

/-! ## Builders outside every block -/

namespace Building

variable {L : Licence} {s t v : Traced} {r : Reading}

/-- Where no block is open there is nothing for a builder to leave behind. -/
theorem lapsed_of_closed (hclosed : s.circuit.blocks = []) (h : Lapsed .scope r s v) :
    v.circuit = s.circuit ∧ ∃ seen, v.trail = s.trail ++ seen ∧
      Untouched .scope s.circuit seen := by
  obtain ⟨seen, us, htrail, hseen, -, ⟨hname, hcontent⟩, hblocks⟩ := h
  refine ⟨?_, seen, htrail, hseen⟩
  have hnoted : (r.noted s.circuit).blocks = [] := by
    unfold Reading.noted Circuit.onTop
    rw [hclosed]
    exact hclosed
  rw [hnoted, captureAll_nil] at hblocks
  obtain ⟨⟨name, content, blocks⟩, trail⟩ := s
  obtain ⟨⟨name', content', blocks'⟩, trail'⟩ := v
  cases hclosed
  cases hname
  cases hcontent
  cases hblocks
  rfl

/-- A builder with any bodies on a circuit without open blocks. Where it answers, one record has
been appended, control flow, and nothing else in the store has changed; where it is refused, the
circuit is as it was. No block is open then, and the store has been the same before and after
every call, builder and case in the bodies, refused or not. -/
theorem one_record (b : Building .scope) {s : Traced} (hclosed : s.circuit.blocks = []) :
    (∀ t, b.run s = .ok () t → ∃ r flow, r.operation = .control flow ∧
      t.circuit.name = s.circuit.name ∧
      t.circuit.content.records = s.circuit.content.records ++ [r] ∧
      t.circuit.content.qubits = s.circuit.content.qubits ∧
      t.circuit.content.clbits = s.circuit.content.clbits ∧
      t.circuit.content.identifiers = s.circuit.content.identifiers ∧
      t.circuit.content.phase = s.circuit.content.phase) ∧
    (∀ e t, b.run s = .error e t → t.circuit = s.circuit) ∧
    ∀ t, b.run.Leaves s t → t.circuit.blocks = [] ∧
      ∃ seen, t.trail = s.trail ++ seen ∧
        ∀ e ∈ seen, ∀ c ∈ e.circuits, c.content = s.circuit.content := by
  have hok : ∀ t, b.run s = .ok () t → (∃ r flow, r.operation = .control flow ∧
      t.circuit = { s.circuit with content := s.circuit.content.snoc r }) ∧
      ∃ seen, t.trail = s.trail ++ seen ∧ Untouched .scope s.circuit seen := by
    intro t h
    obtain ⟨v, k, hlapsed, hend, htrail⟩ := (lapses b).of_ok h
    obtain ⟨hv, hseen⟩ := lapsed_of_closed hclosed hlapsed
    rw [hv] at hend
    rw [htrail]
    exact ⟨Closing.eq_snoc_of_closed hclosed hend, hseen⟩
  refine ⟨fun t h => ?_, fun e t h => (lapsed_of_closed hclosed ((lapses b).of_error h)).1,
    fun t h => ?_⟩
  · obtain ⟨⟨r, flow, hr, ht⟩, -⟩ := hok t h
    rw [ht]
    exact ⟨r, flow, hr, rfl, rfl, rfl, rfl, rfl, rfl⟩
  · rcases h with ⟨_, h⟩ | ⟨e, h⟩
    · obtain ⟨⟨r, flow, -, ht⟩, seen, htrail, hseen⟩ := hok t h
      exact ⟨ht ▸ hclosed, seen, htrail, fun e he c hc => (hseen e he c hc).2⟩
    · obtain ⟨ht, seen, htrail, hseen⟩ := lapsed_of_closed hclosed ((lapses b).of_error h)
      exact ⟨ht ▸ hclosed, seen, htrail, fun e he c hc => (hseen e he c hc).2⟩

/-! ### A box that goes on after refusals -/

/-- A gate on the qubit, whatever comes of it, and what is next. -/
def gateThen (qubit : Nat) (next : Script .scope) : Script .scope :=
  .call (.append (.make (.gate (.fixed .h)) [qubit] [])) trivial fun _ => next

/-- Qubit 3 is not there, and the branch acts on qubit 1 and is given up. The box goes on, and a
loop in it acts on qubit 2. -/
def undeterred : Building .scope :=
  .box none (gateThen 0 (gateThen 3
    (.build (.ifTest (.clbit (.loose .classical ⟨1, 0⟩) true)
      (gateThen 1 (.done (.error .switchWithoutCase)))) fun _ =>
      .build (.whileLoop (.clbit (.loose .classical ⟨1, 0⟩) true)
        (gateThen 2 (.call (.jump .leave) trivial .done))) .done)))

/-- The box is the only record, and nothing else has changed. -/
theorem one_record_undeterred : Circuit.threeLooseQubits.blocks = [] ∧
    ∃ t r, undeterred.run ⟨Circuit.threeLooseQubits, []⟩ = .ok () t ∧
      t.circuit.content.records = Circuit.threeLooseQubits.content.records ++ [r] ∧
      t.circuit.content.qubits = Circuit.threeLooseQubits.content.qubits ∧
      t.circuit.blocks = [] := by
  let answers : Bool :=
    match undeterred.run ⟨Circuit.threeLooseQubits, []⟩ with
    | .ok _ _ => true
    | .error _ _ => false
  have hanswers : answers = true := by decide +kernel
  cases hrun : undeterred.run ⟨Circuit.threeLooseQubits, []⟩ with
  | error e t => simp [answers, hrun] at hanswers
  | ok a t =>
    obtain ⟨hok, -, hleaves⟩ := undeterred.one_record (s := ⟨Circuit.threeLooseQubits, []⟩) rfl
    obtain ⟨r, flow, -, -, hrecords, hqubits, -⟩ := hok t hrun
    exact ⟨rfl, t, r, rfl, hrecords, hqubits, (hleaves t (.of_ok hrun)).1⟩

end Building

/-! ## Refused builders where blocks are open -/

/-- That all in `g` is in `f` already. -/
structure Footprint.Includes (f g : Footprint) : Prop where
  qubits : ∀ n ∈ g.qubits, f.qubits.contains n
  clbits : ∀ n ∈ g.clbits, f.clbits.contains n
  registers : ∀ r ∈ g.registers, f.registers.contains r
  captures : ∀ i ∈ g.captures, f.captures.contains i

/-- The block without what is read in it: clbits, registers and captures. -/
def Block.bare (b : Block) : Block := { b with footprint := ⟨b.footprint.qubits, [], [], []⟩ }

namespace Block

variable {b b' : Block} {f : Footprint} {outer blocks : List Block} {i : Identifier}
  {is : List Identifier}

theorem touch_eq_self_iff : b.touch f = b ↔ b.footprint.Includes f := by
  obtain ⟨⟨qubits, clbits, registers, captures⟩, locals, items, ban⟩ := b
  unfold touch Footprint.union
  simp only [Block.mk.injEq, Footprint.mk.injEq, Distinct.union_eq_self_iff, and_true]
  exact ⟨fun ⟨hq, hc, hr, hi⟩ => ⟨hq, hc, hr, hi⟩, fun ⟨hq, hc, hr, hi⟩ => ⟨hq, hc, hr, hi⟩⟩

theorem bare_touch (hf : f.qubits = []) : (b.touch f).bare = b.bare := by
  unfold bare touch Footprint.union
  rw [hf]
  rfl

/-- Uses of identifiers come to the innermost block as captures, and resolve there then. -/
theorem captureAll_cons (is : List Identifier) (b : Block) (outer : List Block) :
    ∃ js outer', captureAll is (b :: outer) = b.touch ⟨[], [], [], js⟩ :: outer' ∧
      ∀ i, (b.touch ⟨[], [], [], js⟩).resolves i ↔ b.resolves i ∨ i ∈ is := by
  induction is generalizing b outer with
  | nil =>
    refine ⟨[], outer, ?_, fun i => ?_⟩
    · cases b
      rfl
    · rw [resolves_touch rfl]
      simp
  | cons i rest ih =>
    by_cases hresolves : b.resolves i
    · obtain ⟨js, outer', hcaptured, hjs⟩ := ih b outer
      refine ⟨js, outer', ?_, fun j => ?_⟩
      · show captureAll rest (captureThrough i (b :: outer)) = _
        rw [captureThrough_of_resolves hresolves, hcaptured]
      · rw [hjs, List.mem_cons]
        refine or_congr_right' fun hj => (or_iff_right fun hji => ?_).symm
        exact hj (hji ▸ hresolves)
    · obtain ⟨js, outer', hcaptured, hjs⟩ :=
        ih (b.touch ⟨[], [], [], [i]⟩) (captureThrough i outer)
      refine ⟨i :: js, outer', ?_, fun j => (hjs j).trans ?_⟩
      · show captureAll rest (captureThrough i (b :: outer)) = _
        rw [captureThrough_of_not_resolves hresolves, hcaptured]
        rfl
      · have htouched : (b.touch ⟨[], [], [], [i]⟩).resolves j ↔ b.resolves j ∨ j = i := by
          rw [resolves_iff, mem_captures_touch, resolves_iff, List.mem_singleton, or_assoc]
          rfl
        rw [htouched, List.mem_cons, or_assoc]

/-- The blocks stay as they are exactly if the innermost one has noted all before. -/
theorem captureAll_touch_eq_self_iff (hf : f.captures = []) :
    captureAll is (b.touch f :: outer) = b :: outer ↔
      b.footprint.Includes f ∧ ∀ i ∈ is, b.resolves i := by
  constructor
  · intro h
    obtain ⟨js, outer', hcaptured, hjs⟩ := captureAll_cons is (b.touch f) outer
    obtain ⟨hb, -⟩ := List.cons_eq_cons.1 (hcaptured.symm.trans h)
    refine ⟨?_, fun i hi => ?_⟩
    · have hfootprint := congrArg Block.footprint hb
      refine ⟨?_, ?_, ?_, fun i hi => ?_⟩
      · exact Distinct.union_eq_self_iff.1 (congrArg Footprint.qubits hfootprint)
      · exact Distinct.union_eq_self_iff.1 (congrArg Footprint.clbits hfootprint)
      · exact Distinct.union_eq_self_iff.1 (congrArg Footprint.registers hfootprint)
      · rw [hf] at hi
        exact absurd hi List.not_mem_nil
    · rw [hb] at hjs
      exact (hjs i).2 (.inr hi)
  · rintro ⟨hincludes, hresolves⟩
    rw [touch_eq_self_iff.2 hincludes]
    induction is with
    | nil => rfl
    | cons i rest ih =>
      obtain ⟨hi, hrest⟩ := List.forall_mem_cons.1 hresolves
      show captureAll rest (captureThrough i (b :: outer)) = _
      rw [captureThrough_of_resolves hi, ih hrest]

theorem bare_captureAll (is : List Identifier) (blocks : List Block) :
    (captureAll is blocks).map bare = blocks.map bare := by
  induction is generalizing blocks with
  | nil => rfl
  | cons i rest ih => exact (ih _).trans (map_captureThrough (fun _ => bare_touch rfl) blocks)

end Block

namespace Building

variable {L : Licence} {s t : Traced} {e : CircuitError} {top : Block} {outer : List Block}

/-- A builder with any bodies that is refused where blocks are open. Qubits, locals and buffered
items of the blocks are as they were. But the innermost block has taken note of the clbits and
registers that the builder reads, and the blocks have captured what was used, by the builder or in
its bodies, and can be used around it. So the blocks are as they were exactly if the innermost one
had noted all that before. -/
theorem refused_leaves (b : Building L) (hopen : s.circuit.blocks = top :: outer)
    (h : b.run s = .error e t) : ∃ seen us, t.trail = s.trail ++ seen ∧
      (∀ i, i ∈ us ↔ UsedBy seen i ∧ Known s.circuit.content s.circuit.blocks i) ∧
      t.circuit.blocks = captureAll us (top.touch (b.reading.span s.circuit) :: outer) ∧
      t.circuit.blocks.map Block.bare = s.circuit.blocks.map Block.bare ∧
      (t.circuit.blocks = s.circuit.blocks ↔
        top.footprint.Includes (b.reading.span s.circuit) ∧ ∀ i ∈ us, top.resolves i) := by
  obtain ⟨seen, us, htrail, -, hused, -, hblocks⟩ := (lapses b).of_error h
  have hnoted : (b.reading.noted s.circuit).blocks =
      top.touch (b.reading.span s.circuit) :: outer := by
    unfold Reading.noted Circuit.onTop
    rw [hopen]
  rw [hnoted] at hblocks
  refine ⟨seen, us, htrail, hused, hblocks, ?_, ?_⟩
  · rw [hblocks, Block.bare_captureAll, hopen, List.map_cons, List.map_cons,
      Block.bare_touch (b.reading.qubits_span s.circuit)]
  · rw [hblocks, hopen]
    exact Block.captureAll_touch_eq_self_iff (b.reading.captures_span s.circuit)

end Building

namespace Building

/-! ### A branch that is given up, in a box and in a loop -/

/-- Three qubits and a clbit, and an open block that has taken note of the clbits. -/
def within (clbits : List Nat) : Circuit :=
  { Circuit.threeLooseQubits with
    blocks := [(Block.empty none).touch ⟨[], clbits, [], []⟩] }

/-- A branch on the clbit. It is given up at once. -/
def givenUp : Building .full :=
  .ifTest (.clbit (.loose .classical ⟨1, 0⟩) true) (.done (.error .switchWithoutCase))

/-- The branch leaves behind what it has noted. -/
theorem givenUp_run (clbits : List Nat) : givenUp.run ⟨within clbits, []⟩ =
    .error .switchWithoutCase ⟨givenUp.reading.noted (within clbits),
      [.reads givenUp.reading (within clbits)]⟩ := rfl

/-- In a loop on the same clbit that is nothing. -/
theorem refused_leaves_in_loop : (within [0]).blocks ≠ [] ∧
    ∃ e t, givenUp.run ⟨within [0], []⟩ = .error e t ∧
      t.circuit.blocks = (within [0]).blocks := by
  refine ⟨List.cons_ne_nil _ _, _, _, givenUp_run [0], ?_⟩
  obtain ⟨seen, us, htrail, hused, -, -, hsame⟩ :=
    givenUp.refused_leaves (s := ⟨within [0], []⟩) rfl (givenUp_run [0])
  refine hsame.2 ⟨⟨?_, ?_, ?_, ?_⟩, fun i hi => ?_⟩
  · exact fun n hn => absurd hn List.not_mem_nil
  · decide +kernel
  · exact fun r hr => absurd hr List.not_mem_nil
  · exact fun i hi => absurd hi List.not_mem_nil
  · -- nothing was used: all that was seen is that the branch reads the clbit
    obtain ⟨event, hevent, huses⟩ := ((hused i).1 hi).1
    rw [← show _ = seen from htrail] at hevent
    cases List.mem_singleton.1 hevent
    exact absurd huses List.not_mem_nil

/-- Elsewhere the clbit is noted for good, though nothing came of the branch. -/
theorem refused_not_always_traceless :
    ¬ ∀ (c : Circuit) (b : Building .full) (e : CircuitError) (t : Traced), c.Reachable .any →
      c.blocks ≠ [] → b.run ⟨c, []⟩ = .error e t → t.circuit.blocks = c.blocks := by
  intro h
  have hreach : (within []).Reachable .any :=
    .enter _ (.ofStore "c" (Content.Built.empty.after_of_circuits fun e he =>
      absurd he List.not_mem_nil)) rfl
  have hsame := h (within []) givenUp _ _ hreach (List.cons_ne_nil _ _) (givenUp_run [])
  exact absurd (congrArg (List.map (·.footprint.clbits)) hsame) (by decide +kernel)

end Building

end QuantumCircuit
