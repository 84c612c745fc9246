import QuantumCircuit.Proofs.Growing
import QuantumCircuit.Proofs.Restoring

/-!
# Where bits are

A bit list keeps three things beside each other: the bits, for each of them a location, and the
registers, which may have bits in common. In every list that adding bits and registers makes of the
empty one (`BitList.Gathered`) they say the same (`BitList.Consistent`), as long as positions have
not run out. What a location says of registers is put together while one register after another
comes in, a place at a time (`BitList.noted_addMembers`).

Whatever is done to a circuit, its bits stay where they are (`Circuit.LeadsTo.grows`), so that the
operands of a record can be taken out as handles and turned back into positions at any later time.
The main result is `Circuit.bits_stay_in_place`.
-/

namespace QuantumCircuit

/-- The places that a bit has among bits counted from `place` on, each with the register. -/
def Register.membershipsFrom {k : BitKind} (r : Register k) (place : Nat) (bits : List (Bit k))
    (bit : Bit k) : List (Register k × Nat) :=
  ((bits.zipIdx place).filter (·.1 = bit)).map fun e => (r, e.2)

namespace BitList

variable {k : BitKind} {l l' : BitList k} {bit other : Bit k} {r : Register k} {place : Nat}
  {bits : List (Bit k)}

/-- The registers that have the bit, in order, each with its places there. -/
def memberships (l : BitList k) (bit : Bit k) : List (Register k × Nat) :=
  l.registers.flatMap fun r => r.membershipsFrom 0 r.bits bit

theorem mem_memberships_iff :
    (r, place) ∈ l.memberships bit ↔ r ∈ l.registers ∧ r.bit? place = some bit := by
  unfold memberships Register.membershipsFrom Register.bit?
  simp only [List.mem_flatMap, List.mem_map, List.mem_filter, decide_eq_true_eq, Prod.mk.injEq]
  constructor
  · rintro ⟨q, hq, ⟨b, n⟩, ⟨hmem, rfl⟩, rfl, rfl⟩
    exact ⟨hq, List.mk_mem_zipIdx_iff_getElem?.1 hmem⟩
  · rintro ⟨hr, hbit⟩
    exact ⟨r, hr, (bit, place), ⟨List.mk_mem_zipIdx_iff_getElem?.2 hbit, rfl⟩, rfl, rfl⟩

/-- What the location of the bit says of registers, nothing if it has none. -/
def noted (l : BitList k) (bit : Bit k) : List (Register k × Nat) :=
  ((l.find? bit).map (·.registers)).getD []

/-! ## What a location says of registers -/

/-- A new bit is in no register yet. -/
theorem noted_snoc : (l.snoc bit).noted other = l.noted other := by
  unfold noted find? snoc
  rw [Assoc.find?_append]
  cases hfound : Assoc.find? other l.locations with
  | some at_ => rfl
  | none =>
    simp only [Option.none_or, Assoc.find?]
    split <;> rfl

theorem noted_of_add {strict : Bool} (h : (add bit strict).Leaves l l') :
    l'.noted other = l.noted other := by
  rcases add_leaves h with rfl | ⟨rfl, -⟩
  · rfl
  · exact noted_snoc

theorem noted_noteMember (h : bit ∈ Assoc.keys l.locations) :
    (noteMember r place bit l).noted other =
      l.noted other ++ if bit = other then [(r, place)] else [] := by
  unfold noted find? noteMember
  rw [Assoc.find?_adjust]
  split
  · rename_i heq
    subst heq
    obtain ⟨at_, hat⟩ := Option.isSome_iff_exists.1 ((Assoc.contains_iff_mem_keys _ _).2 h)
    rw [hat]
    rfl
  · rw [List.append_nil]

/-- The members of a register come in one after another, and each is noted at its place. -/
theorem noted_addMembers (hl : l.Sound) (h : addMembers r place bits l = .ok () l') :
    l'.noted other = l.noted other ++ r.membershipsFrom place bits other := by
  induction bits generalizing place l with
  | nil =>
    cases h
    exact (List.append_nil _).symm
  | cons bit rest ih =>
    obtain ⟨position, u, hadd, h⟩ := Edit.bind_eq_ok_iff.1 h
    obtain ⟨_, v, hnote, h⟩ := Edit.bind_eq_ok_iff.1 h
    cases hnote
    have hu : u.Sound := Sound.add bit false _ u hl (.of_ok hadd)
    have hlisted : bit ∈ Assoc.keys u.locations := by
      rw [hu.located]
      exact mem_of_add hl hadd
    rw [ih (hu.noteMember r place bit) h, noted_noteMember hlisted, noted_of_add (.of_ok hadd)]
    unfold Register.membershipsFrom
    rw [List.append_assoc, List.zipIdx_cons, List.filter_cons]
    by_cases heq : bit = other <;> simp [heq]

/-! ## Lists that are gathered -/

/-- A call on a bit list. -/
inductive Call (k : BitKind) where
  | add (bit : Bit k) (strict : Bool)
  | addRegister (r : Register k)

namespace Call

variable {call : Call k}

/-- Make the call. What it answers is left out. -/
def run : Call k → Edit (BitList k) Unit
  | add bit strict => do let _ ← BitList.add bit strict
  | addRegister r => BitList.addRegister r

theorem leaves_add_iff {strict : Bool} :
    (add bit strict).run.Leaves l l' ↔ (BitList.add bit strict).Leaves l l' := by
  unfold run
  simp only [Edit.leaves_bind_iff, Edit.leaves_pure_iff, exists_eq_right']
  exact Or.comm

theorem keeps_exact : call.run.Keeps (Exact (k := k)) := by
  intro l l' h hl
  cases call with
  | add bit strict =>
    rw [leaves_add_iff] at hl
    exact ⟨.add bit strict l l' h.sound hl, .add bit strict l l' h.located hl⟩
  | addRegister r =>
    exact ⟨addRegister_keeps_sound r l l' h.sound hl, .addRegister r l l' h.located hl⟩

theorem extends_of_leaves (h : call.run.Leaves l l') : l.Extends l' := by
  cases call with
  | add bit strict => exact .add_leaves (leaves_add_iff.1 h)
  | addRegister r => exact addRegister_keeps_extends l r l l' (.refl l) h

/-- A refused call changes nothing, unless positions run out on the way. -/
theorem eq_of_refused {e : CircuitError} (h : call.run l = .error e l')
    (hsize : l'.size < capacity) : l' = l := by
  cases call with
  | add bit strict =>
    rcases Edit.bind_eq_error_iff.1 h with h | ⟨_, u, -, h⟩
    · exact (add_eq_error_iff.1 h).2
    · cases h
  | addRegister r => exact addRegister_refused h hsize

/-- Locations go on saying of registers what the registers say. -/
theorem noted_eq_memberships (hexact : l.Exact) (h : ∀ bit, l.noted bit = l.memberships bit)
    (hl : call.run.Leaves l l') (hsize : l'.size < capacity) (bit : Bit k) :
    l'.noted bit = l'.memberships bit := by
  rcases hl with ⟨_, hok⟩ | ⟨e, herror⟩
  · cases call with
    | add new strict =>
      have hadd := leaves_add_iff.1 (.of_ok hok)
      unfold memberships
      rw [noted_of_add hadd, h, registers_of_add hadd]
      rfl
    | addRegister r =>
      obtain ⟨-, u, hu, rfl⟩ := addRegister_eq_ok_iff.1 hok
      have hregisters : u.registers = l.registers :=
        addMembers_keeps_registers l.registers l u rfl (.of_ok hu)
      calc u.noted bit
          = l.memberships bit ++ r.membershipsFrom 0 r.bits bit := by
            rw [noted_addMembers hexact.sound hu, h]
        _ = (u.registers ++ [r]).flatMap fun r => r.membershipsFrom 0 r.bits bit := by
            rw [hregisters, List.flatMap_append, List.flatMap_singleton]
            rfl
  · rw [eq_of_refused herror hsize, h]

end Call

/-- What calls make of the empty list, whether they answer or are refused. -/
inductive Gathered : BitList k → Prop
  | empty : Gathered .empty
  | call {l l' : BitList k} (call : Call k) : Gathered l → call.run.Leaves l l' → Gathered l'

/-- The bits, their locations and the registers say the same: each bit is listed once, and found
exactly at its position; what its location says of registers is where they have it, in order; and no
two registers share a name. -/
structure Consistent (l : BitList k) : Prop where
  bits : l.bits.Nodup
  inverse : ∀ bit n, l.indexOf? bit = some n ↔ l.get? n = some bit
  found : ∀ bit, (l.find? bit).isSome ↔ bit ∈ l.bits
  registers : ∀ bit at_, l.find? bit = some at_ → at_.registers = l.memberships bit
  members : ∀ bit at_, l.find? bit = some at_ → ∀ r place,
    (r, place) ∈ at_.registers ↔ r ∈ l.registers ∧ r.bit? place = some bit
  names : (l.registers.map (·.name)).Nodup

namespace Gathered

theorem exact (h : l.Gathered) : l.Exact := by
  induction h with
  | empty => exact exact_empty
  | call call _ hl ih => exact call.keeps_exact _ _ ih hl

/-- Lists only get longer, so none before was full either. -/
theorem noted_eq_memberships (h : l.Gathered) (hsize : l.size < capacity) (bit : Bit k) :
    l.noted bit = l.memberships bit := by
  induction h generalizing bit with
  | empty => rfl
  | call call hbefore hl ih =>
    have hsmall := Nat.lt_of_le_of_lt (Call.extends_of_leaves hl).size_le hsize
    exact Call.noted_eq_memberships hbefore.exact (ih hsmall) hl hsize bit

theorem consistent (h : l.Gathered) (hsize : l.size < capacity) : l.Consistent := by
  have hexact := h.exact
  have hregisters : ∀ bit at_, l.find? bit = some at_ → at_.registers = l.memberships bit := by
    intro bit at_ hat
    rw [← h.noted_eq_memberships hsize bit, noted, hat]
    rfl
  refine ⟨hexact.sound.bits, fun bit n => hexact.indexOf?_eq_some_iff,
    fun bit => hexact.sound.contains_iff, hregisters, fun bit at_ hat r place => ?_,
    hexact.sound.names⟩
  rw [hregisters bit at_ hat, mem_memberships_iff]

end Gathered

end BitList

namespace Content

variable {c d : Content}

/-- What calls on bit lists keep holds of the bits of all built stores. -/
theorem Invariant.of_bits {P : ∀ {k : BitKind}, BitList k → Prop}
    (hempty : ∀ {k : BitKind}, P (.empty : BitList k))
    (hcall : ∀ {k : BitKind} (call : BitList.Call k), call.run.Keeps P) :
    Invariant .any fun c => P c.qubits ∧ P c.clbits := by
  have hwithin : ∀ {k : BitKind} {α : Type} {edit : Edit (BitList k) α}, edit.Keeps P →
      (Edit.within (bitFocus k) edit).Keeps fun c => P c.qubits ∧ P c.clbits := by
    intro k α edit hedit
    refine .within fun c l hc hl => ?_
    cases k with
    | quantum => exact ⟨hedit _ l hc.1 hl, hc.2⟩
    | classical => exact ⟨hc.1, hedit _ l hc.2 hl⟩
  exact {
    empty := ⟨hempty, hempty⟩
    addBit := fun bit => hwithin fun l l' h hl =>
      hcall (.add bit true) l l' h (BitList.Call.leaves_add_iff.2 hl)
    addRegister := fun {k} r => by
      have hregister := hwithin (hcall (.addRegister r))
      cases k with
      | quantum => exact hregister
      | classical => exact .read fun _ => (Edit.Keeps.ofExcept _).bind fun _ => hregister
    addIdentifier := fun i kind c d hc hd => by
      obtain ⟨t, rfl⟩ := addIdentifier_leaves hd
      exact hc
    snoc := fun c i hc _ => hc
    front := fun c front hc _ _ => hc
    pop := fun c i d hc hd => by
      obtain ⟨-, rfl⟩ := pop?_eq_some_iff.1 hd
      exact hc
    clear := fun c hc => hc
    setPhase := fun phase c d hc hd => by
      rcases setPhase_leaves hd with rfl | rfl <;> exact hc
    setDuration := fun t c hc => hc
    listParameters := fun c d hc hd => by
      obtain rfl := listParameters_leaves_iff.1 hd
      exact hc
    copyEmpty := fun c mode hc => hc
    assign := fun c s d hc _ hd => by
      obtain ⟨hqubits, hclbits, -⟩ := assign_frame hd
      rwa [hqubits, hclbits] }

theorem gathered_invariant : Invariant .any fun c => c.qubits.Gathered ∧ c.clbits.Gathered :=
  .of_bits .empty fun call _ _ h hl => .call call h hl

theorem Grows.assignValues {base : Content} (values : List Angle) :
    (Content.assignValues values).Keeps base.Grows :=
  .read fun _ => (Edit.Keeps.ofExcept _).bind fun _ => Grows.call (.assign _ true)

theorem Grows.assignNamed {base : Content} (values : List (String × Angle)) :
    (Content.assignNamed values).Keeps base.Grows :=
  .read fun _ => (Edit.Keeps.ofExcept _).bind fun s => Grows.call (.assign s true)

/-! ## Handles and positions -/

/-- The bits at the positions, resolved in a store where they have the same positions. -/
theorem resolveAll_filterMap_get? {k : BitKind} {operation : Option String} {positions : List Nat}
    (hrange : ∀ n ∈ positions, n < (c.bits k).size)
    (hsame : ∀ bit n, (c.bits k).get? n = some bit → (d.bits k).indexOf? bit = some n) :
    d.resolveAll operation (positions.filterMap (c.bits k).get?) = .ok positions := by
  induction positions with
  | nil => rfl
  | cons n rest ih =>
    obtain ⟨hn, hrest⟩ := List.forall_mem_cons.1 hrange
    have hbit : (c.bits k).get? n = some (c.bits k).bits[n] := List.getElem?_eq_getElem hn
    rw [List.filterMap_cons_some hbit]
    refine Checking.bind_eq_ok_iff.2 ⟨n, ?_, Checking.bind_eq_ok_iff.2 ⟨rest, ih hrest, rfl⟩⟩
    rw [BitList.resolve, hsame _ n hbit]

/-- A record taken out as handles comes back with the positions that it had. -/
theorem instructionOf_handleInstruction? (hc : c.Orderly) (hexact : c.Exact) (hgrows : c.Grows d)
    {n : Nat} {i : Instruction} (hi : c.records[n]? = some i) :
    ∃ h, c.handleInstruction? n = some h ∧
      d.instructionOf h = .ok (.make i.operation i.qubits i.clbits) := by
  have hfits := hc.fits i (List.mem_of_getElem? hi)
  have hd := hgrows.exact hexact
  refine ⟨⟨i.operation, i.qubits.filterMap c.qubits.get?, i.clbits.filterMap c.clbits.get?⟩,
    congrArg (Option.map _) hi, ?_⟩
  refine Checking.bind_eq_ok_iff.2 ⟨i.qubits, ?_, Checking.bind_eq_ok_iff.2 ⟨i.clbits, ?_, rfl⟩⟩
  · exact resolveAll_filterMap_get? (k := .quantum) hfits.qubits fun bit n hbit =>
      hd.qubits.indexOf?_eq_some_iff.2 (hgrows.qubits.get? hbit)
  · exact resolveAll_filterMap_get? (k := .classical) hfits.clbits fun bit n hbit =>
      hd.clbits.indexOf?_eq_some_iff.2 (hgrows.clbits.get? hbit)

end Content

namespace Circuit

variable {A : Policy} {b c d : Circuit}

/-! ## Runs -/

/-- The circuits that come of `c` by whatever may be done to it, answered or refused, blocks being
opened and closed at will. -/
inductive LeadsTo (c : Circuit) : Circuit → Prop
  | here : LeadsTo c c
  | act {d e : Circuit} (k : Action) : LeadsTo c d → k.run.Leaves d e → LeadsTo c e
  | blocks {d : Circuit} (blocks : List Block) : LeadsTo c d → LeadsTo c { d with blocks }

theorem growth_grows (b : Content) : Growth (fun _ => True) b.Grows where
  addBit bit := .addBit bit
  addClassical r := .addRegister r
  addIdentifier i kind _ := .addIdentifier i kind
  push i := .push i
  insertFront front := .insertFront front
  setPhase phase := .setPhase phase

/-- Nothing that may be done to a circuit moves a bit. -/
theorem Action.grows {k : Action} (h : k.run.Leaves c d) : c.content.Grows d.content := by
  by_cases hstore : k.onStore = true
  · obtain ⟨u, rfl, ⟨s, -, hu⟩ | ⟨values, -, hu⟩ | ⟨values, -, hu⟩⟩ := leaves_of_onStore hstore h
    · exact Content.Grows.call s _ u (.refl _) hu
    · exact Content.Grows.assignValues values _ u (.refl _) hu
    · exact Content.Grows.assignNamed values _ u (.refl _) hu
  · have hadds : k.onStore = false := by simpa using hstore
    exact (growth_grows c.content).act hadds (fun _ _ => trivial) c d (.refl _) h

theorem LeadsTo.grows (h : c.LeadsTo d) : c.content.Grows d.content := by
  induction h with
  | here => exact .refl _
  | act k _ hrun ih => exact ih.trans (k.grows hrun)
  | blocks blocks _ ih => exact ih

/-- As long as positions have not run out, all gathered bit lists are consistent, and a refused
call leaves them as they are. The bit lists of a circuit that is reached are gathered; whatever is
done to it, bits and registers only come in at their ends, bits keep their positions, and the
operands of a record, taken out as handles, are at their positions still. -/
theorem bits_stay_in_place :
    (∀ (k : BitKind) (l : BitList k), l.Gathered → l.size < BitList.capacity →
      l.Consistent ∧ ∀ (call : BitList.Call k) e l', call.run l = .error e l' →
        l'.size < BitList.capacity → l' = l) ∧
    ∀ (A : Policy) (c d : Circuit), c.Reachable A → c.LeadsTo d →
      (c.content.qubits.Gathered ∧ c.content.clbits.Gathered) ∧
      (∀ k, (c.content.bits k).Extends (d.content.bits k) ∧ ∀ bit n,
        (c.content.bits k).indexOf? bit = some n → (d.content.bits k).indexOf? bit = some n) ∧
      ∀ n i, c.content.records[n]? = some i → ∃ h, c.content.handleInstruction? n = some h ∧
        d.content.instructionOf h = .ok (.make i.operation i.qubits i.clbits) := by
  refine ⟨fun k l h hsize => ⟨h.consistent hsize, fun call e l' => BitList.Call.eq_of_refused⟩, ?_⟩
  intro A c d hc hd
  have hexact := hc.built.exact
  have hgrows := hd.grows
  refine ⟨(hc.built.everywhere_any Content.gathered_invariant).here, fun k => ?_, fun n i hi =>
    Content.instructionOf_handleInstruction? hc.built.orderly hexact hgrows hi⟩
  have hlater := hgrows.exact hexact
  cases k with
  | quantum =>
    refine ⟨hgrows.qubits, fun bit n hn => hlater.qubits.indexOf?_eq_some_iff.2 ?_⟩
    exact hgrows.qubits.get? (hexact.qubits.indexOf?_eq_some_iff.1 hn)
  | classical =>
    refine ⟨hgrows.clbits, fun bit n hn => hlater.clbits.indexOf?_eq_some_iff.2 ?_⟩
    exact hgrows.clbits.get? (hexact.clbits.indexOf?_eq_some_iff.1 hn)

/-- A register `q` of two qubits, a qubit aside, and an alias `a` for the second of `q` and the one
aside, with a gate on those two. -/
def aliasedQubits : Circuit :=
  let aside : Qubit := .loose .quantum ⟨2, 0⟩
  ⟨"c", Content.empty.after
    [.addRegister .quantum (.make .quantum "q" 2 1), .addBit .quantum aside,
      .addRegister .quantum ⟨"a", [⟨⟨1, 1⟩, some ⟨"q", 1⟩⟩, aside], false⟩,
      .push (.make (.gate (.fixed .cx)) [1, 2] [])], []⟩

/-- The second qubit of `q` is the first of `a`. The alias is refused a second time, and nothing
changes; when qubits have come in the gate is on the same ones. -/
theorem aliasedQubits_stay : aliasedQubits.Reachable .any ∧
    aliasedQubits.content.qubits.Consistent ∧
    (aliasedQubits.content.qubits.memberships ⟨⟨1, 1⟩, some ⟨"q", 1⟩⟩).map
      (fun e => (e.1.name, e.2)) = [("q", 1), ("a", 0)] ∧
    (∃ e, BitList.addRegister ⟨"a", [], false⟩ aliasedQubits.content.qubits =
      .error e aliasedQubits.content.qubits) ∧
    ∃ d, (Call.addLoose .quantum 2 3).run aliasedQubits = .ok () d ∧
      d.content.qubits.size = 5 ∧ ∃ h, aliasedQubits.content.handleInstruction? 0 = some h ∧
        d.content.instructionOf h = .ok (.make (.gate (.fixed .cx)) [1, 2] []) := by
  have hreach : aliasedQubits.Reachable .any := .ofStore "c" (.empty_after rfl)
  obtain ⟨d, hd, hsize⟩ : ∃ d, (Call.addLoose .quantum 2 3).run aliasedQubits = .ok () d ∧
      d.content.qubits.size = 5 := ⟨_, rfl, by decide +kernel⟩
  have hleads : aliasedQubits.LeadsTo d := .act (.call (.addLoose .quantum 2 3)) .here (.of_ok hd)
  obtain ⟨hlists, hruns⟩ := bits_stay_in_place
  obtain ⟨⟨hgathered, -⟩, -, hrecords⟩ := hruns .any aliasedQubits d hreach hleads
  have hroom : aliasedQubits.content.qubits.size < BitList.capacity := by decide +kernel
  obtain ⟨hconsistent, hrefused⟩ := hlists .quantum _ hgathered hroom
  refine ⟨hreach, hconsistent, by decide +kernel, ?_, d, hd, hsize, hrecords 0 _ rfl⟩
  obtain ⟨e, l, hl, hsame⟩ : ∃ e l, BitList.addRegister ⟨"a", [], false⟩
      aliasedQubits.content.qubits = .error e l ∧ l.size = 3 := ⟨_, _, rfl, by decide +kernel⟩
  have hsmall : l.size < BitList.capacity := by
    rw [hsame]
    decide +kernel
  exact ⟨e, hrefused (.addRegister ⟨"a", [], false⟩) e l hl hsmall ▸ hl⟩

end Circuit

end QuantumCircuit
