import QuantumCircuit.Proofs.Admitting
import QuantumCircuit.Proofs.Gaining
import QuantumCircuit.Proofs.Growing
import QuantumCircuit.Proofs.Stacking
import QuantumCircuit.Proofs.WellFormed

/-!
# Identifiers under the names of registers

No identifier has the name of a classical register: whichever of the two comes second is refused.
Where the register is a quantum one neither call looks for the other, so that an identifier
shadows the register as soon as both have come in (`Content.Shadowed`).

What is done to a circuit leaves the names in its store alone, but for those that it adds, and but
for an empty copy that drops the identifiers (`Action.comes`). So it can be said exactly when a
step leaves a register shadowed (`Circuit.Reachable.shadowed_iff`), and that none is as long as no
step brings the two together (`Circuit.Careful.not_shadowed`).
-/

namespace QuantumCircuit

namespace IdentifierTable

variable {t : IdentifierTable}

/-- Turned into captures, the identifiers stay in their order. -/
theorem Listed.toList_asCaptures (h : t.Listed) :
    t.asCaptures.toList = t.toList.map fun e => (e.1, .capture) :=
  toList_addedAll (addedAll_asCaptures (h.names_toList ▸ h.keys)).1

theorem Listed.contains_asCaptures_iff (h : t.Listed) {i : Identifier} :
    t.asCaptures.contains i ↔ t.contains i := by
  rw [h.asCaptures.1.contains_iff, h.contains_iff, h.toList_asCaptures, List.map_map]
  rfl

end IdentifierTable

namespace Content

variable {b c d : Content}

/-- An identifier of the store has the name of a quantum register of the store. -/
structure Shadowed (c : Content) (i : Identifier) (r : QuantumRegister) : Prop where
  identifier : c.identifiers.contains i
  register : r ∈ c.qubits.registers
  name : r.name = i.name

/-- The quantum registers and the identifiers are the same. -/
structure SameNames (c d : Content) : Prop where
  registers : d.qubits.registers = c.qubits.registers
  identifiers : d.identifiers = c.identifiers

/-- The names of `d` are those of `c`, if they are not dropped, and perhaps some of identifiers in
`I` and of registers in `R`. -/
structure Comes (I : Identifier → Prop) (R : QuantumRegister → Prop) (drops : Prop)
    (c d : Content) : Prop where
  registers : ∀ r ∈ d.qubits.registers, r ∈ c.qubits.registers ∨ R r
  keepsRegisters : c.qubits.registers ⊆ d.qubits.registers
  identifiers : ∀ i, d.identifiers.contains i → c.identifiers.contains i ∧ ¬ drops ∨ I i
  keepsIdentifiers : ¬ drops → ∀ i, c.identifiers.contains i → d.identifiers.contains i

variable {I : Identifier → Prop} {R : QuantumRegister → Prop} {drops : Prop}

theorem Comes.of_same (hkept : ¬ drops) (h : c.SameNames d) : Comes I R drops c d where
  registers _ hr := .inl (h.registers ▸ hr)
  keepsRegisters := h.registers ▸ List.Subset.refl _
  identifiers _ hi := .inl ⟨h.identifiers ▸ hi, hkept⟩
  keepsIdentifiers _ _ hi := h.identifiers ▸ hi

theorem Comes.refl (hkept : ¬ drops) (c : Content) : Comes I R drops c c :=
  .of_same hkept ⟨rfl, rfl⟩

theorem Comes.trans (hkept : ¬ drops) (h : Comes I R drops b c) (h' : Comes I R drops c d) :
    Comes I R drops b d where
  registers r hr := (h'.registers r hr).elim (h.registers r) .inr
  keepsRegisters := List.Subset.trans h.keepsRegisters h'.keepsRegisters
  identifiers i hi := (h'.identifiers i hi).elim (fun hi => h.identifiers i hi.1) .inr
  keepsIdentifiers _ i hi := h'.keepsIdentifiers hkept i (h.keepsIdentifiers hkept i hi)

theorem Comes.mono {J : Identifier → Prop} {S : QuantumRegister → Prop} {drops' : Prop}
    (h : Comes I R drops c d) (hI : ∀ i, I i → J i) (hR : ∀ r, R r → S r)
    (hdrops : drops ↔ drops') : Comes J S drops' c d where
  registers r hr := (h.registers r hr).imp id (hR r)
  keepsRegisters := h.keepsRegisters
  identifiers i hi := (h.identifiers i hi).imp (fun hi => ⟨hi.1, hdrops.not.1 hi.2⟩) (hI i)
  keepsIdentifiers hkept := h.keepsIdentifiers (hdrops.not.2 hkept)

/-! ## Calls on the store -/

theorem addBit_sameNames {k : BitKind} {bit : Bit k} (h : (addBit bit).Leaves c d) :
    c.SameNames d := by
  obtain ⟨l, hl, rfl⟩ := Edit.leaves_within_iff.1 h
  have hsame := BitList.registers_of_add hl
  cases k with
  | quantum => exact ⟨hsame, rfl⟩
  | classical => exact ⟨rfl, rfl⟩

theorem addClassical_sameNames {r : ClassicalRegister} (h : (addRegister r).Leaves c d) :
    c.SameNames d := by
  obtain ⟨l, rfl⟩ := addRegister_leaves h
  exact ⟨rfl, rfl⟩

theorem registers_of_addQuantum {r : QuantumRegister} (h : addRegister r c = .ok () d) :
    d.qubits.registers = c.qubits.registers ++ [r] ∧ d.identifiers = c.identifiers := by
  obtain ⟨l, hl, rfl⟩ := Edit.within_eq_ok_iff.1 h
  obtain ⟨-, u, hu, rfl⟩ := BitList.addRegister_eq_ok_iff.1 hl
  have hsame := BitList.addMembers_keeps_registers c.qubits.registers _ u rfl (.of_ok hu)
  exact ⟨congrArg (· ++ [r]) hsame, rfl⟩

/-- A quantum register that comes in is one more register, whatever the identifiers are. -/
theorem addQuantum_comes {r : QuantumRegister} (h : (addRegister r).Leaves c d) :
    Comes I (r = ·) False c d := by
  obtain ⟨l, hl, rfl⟩ := Edit.leaves_within_iff.1 h
  have hl : (BitList.addRegister r).Leaves c.qubits l := hl
  rcases BitList.registers_of_addRegister hl with hsame | hmore
  · exact .of_same not_false ⟨hsame, rfl⟩
  · refine ⟨fun q hq => ?_, fun q hq => ?_, fun i hi => .inl ⟨hi, not_false⟩, fun _ i hi => hi⟩
    · replace hq : q ∈ l.registers := hq
      rw [hmore, List.mem_append, List.mem_singleton] at hq
      exact hq.imp id Eq.symm
    · show q ∈ l.registers
      rw [hmore]
      exact List.mem_append_left _ hq

/-- An identifier that comes in is one more identifier, whatever the quantum registers are. -/
theorem addIdentifier_comes {i : Identifier} {kind : IdentifierKind}
    (h : (addIdentifier i kind).Leaves c d) : Comes (· = i) R False c d := by
  rcases h with ⟨_, h⟩ | ⟨e, h⟩
  · obtain ⟨hcheck, rfl⟩ := addIdentifier_eq_ok_iff.1 h
    have hnone := get?_eq_none_of_checkIdentifier hcheck
    refine ⟨fun r hr => .inl hr, List.Subset.refl _, fun j hj => ?_, fun _ j hj => ?_⟩
    · rcases (IdentifierTable.contains_insert_iff hnone).1 hj with hj | rfl
      · exact .inl ⟨hj, not_false⟩
      · exact .inr rfl
    · exact (IdentifierTable.contains_insert_iff hnone).2 (.inl hj)
  · rw [(addIdentifier_eq_error_iff.1 h).2]
    exact .refl not_false c

theorem contains_of_addIdentifier {i : Identifier} {kind : IdentifierKind}
    (h : addIdentifier i kind c = .ok () d) : d.identifiers.contains i := by
  obtain ⟨hcheck, rfl⟩ := addIdentifier_eq_ok_iff.1 h
  have hnone := get?_eq_none_of_checkIdentifier hcheck
  exact (IdentifierTable.contains_insert_iff hnone).2 (.inr rfl)

theorem copyEmpty_comes (hlisted : c.identifiers.Listed) (mode : IdentifierMode) :
    Comes I R (mode = .drop) c (c.copyEmpty mode) := by
  cases mode with
  | alike => exact .of_same (by simp) ⟨rfl, rfl⟩
  | captures =>
    refine ⟨fun r hr => .inl hr, List.Subset.refl _, fun i hi => .inl ⟨?_, by simp⟩,
      fun _ i hi => ?_⟩
    · exact hlisted.contains_asCaptures_iff.1 hi
    · exact hlisted.contains_asCaptures_iff.2 hi
  | drop =>
    refine ⟨fun r hr => .inl hr, List.Subset.refl _, fun i hi => ?_, fun h => absurd rfl h⟩
    exact absurd hi Bool.false_ne_true

section Assigning

variable (hkept : ¬ drops)
include hkept

/-- An assignment changes none of the names. -/
theorem assignParameters_comes {s : Binding Float} {strict : Bool}
    (h : (assignParameters s strict).Leaves c d) : Comes I R drops c d := by
  rcases assignParameters_leaves h with h | rfl
  · obtain ⟨hqubits, -, hidentifiers⟩ := assign_frame h
    exact .of_same hkept ⟨congrArg _ hqubits, hidentifiers⟩
  · exact .refl hkept _

theorem assignValues_comes {values : List Angle} (h : (assignValues values).Leaves c d) :
    Comes I R drops c d := by
  rcases Edit.leaves_ofExcept_bind_iff.1 (Edit.leaves_get_bind_iff.1 h) with ⟨_, -, h⟩ | ⟨-, rfl⟩
  · exact assignParameters_comes hkept h
  · exact .refl hkept _

theorem assignNamed_comes {values : List (String × Angle)} (h : (assignNamed values).Leaves c d) :
    Comes I R drops c d := by
  rcases Edit.leaves_ofExcept_bind_iff.1 (Edit.leaves_get_bind_iff.1 h) with ⟨s, -, h⟩ | ⟨-, rfl⟩
  · exact assignParameters_comes hkept h
  · exact .refl hkept _

end Assigning

/-- The names after a call on the store: an identifier or a quantum register may have come in. -/
theorem Call.comes {k : Call} (hlisted : c.identifiers.Listed) (h : k.run.Leaves c d) :
    Comes (fun i => ∃ kind, k = .addIdentifier i kind) (fun r => k = .addRegister .quantum r)
      (k = .copyEmpty .drop) c d := by
  cases k with
  | addBit kind bit =>
    exact .of_same (by simp) (addBit_sameNames (leaves_addBit_iff.1 h))
  | addRegister kind r =>
    cases kind with
    | quantum =>
      refine (addQuantum_comes (I := fun _ => False) h).mono (fun _ => False.elim) ?_ (by simp)
      exact fun q hq => hq ▸ rfl
    | classical => exact .of_same (by simp) (addClassical_sameNames h)
  | addIdentifier i kind =>
    refine (addIdentifier_comes (R := fun _ => False) h).mono ?_ (fun _ => False.elim) (by simp)
    exact fun j hj => hj ▸ ⟨kind, rfl⟩
  | push i =>
    rcases push_leaves_iff.1 h with ⟨-, rfl⟩ | ⟨-, rfl⟩ <;> exact .of_same (by simp) ⟨rfl, rfl⟩
  | insertFront front =>
    rcases insertFront_leaves h with ⟨rfl, -⟩ | rfl <;> exact .of_same (by simp) ⟨rfl, rfl⟩
  | pop =>
    rcases leaves_pop h with rfl | ⟨i, hp⟩
    · exact .refl (by simp) _
    · obtain ⟨-, rfl⟩ := pop?_eq_some_iff.1 hp
      exact .of_same (by simp) ⟨rfl, rfl⟩
  | clear =>
    cases Edit.leaves_modify_iff.1 h
    exact .of_same (by simp) ⟨rfl, rfl⟩
  | setPhase phase =>
    rcases setPhase_leaves h with rfl | rfl
    · exact .of_same (by simp) ⟨rfl, rfl⟩
    · exact .of_same (by simp) ⟨rfl, rfl⟩
  | setDuration t =>
    cases Edit.leaves_modify_iff.1 h
    exact .of_same (by simp) ⟨rfl, rfl⟩
  | listParameters =>
    obtain rfl := leaves_listParameters_iff.1 h
    exact .of_same (by simp) ⟨rfl, rfl⟩
  | copyEmpty mode =>
    cases Edit.leaves_modify_iff.1 h
    refine (copyEmpty_comes (I := fun _ => False) (R := fun _ => False) hlisted mode).mono ?_ ?_ ?_
    · exact fun _ => False.elim
    · exact fun _ => False.elim
    · simp
  | assign s strict =>
    exact assignParameters_comes (by simp) h

end Content

namespace Circuit

variable {c d : Circuit}

/-- Adding to a store brings in the identifiers that are allowed, and no quantum register. -/
theorem growth_comes (I : Identifier → Prop) (R : QuantumRegister → Prop) {drops : Prop}
    (hkept : ¬ drops) (b : Content) : Growth I (Content.Comes I R drops b) where
  addBit _ _ _ hc hd := hc.trans hkept (.of_same hkept (Content.addBit_sameNames hd))
  addClassical _ _ _ hc hd := hc.trans hkept (.of_same hkept (Content.addClassical_sameNames hd))
  addIdentifier i kind hi c d hc hd := by
    have hone := Content.addIdentifier_comes (R := R) hd
    refine hc.trans hkept (hone.mono (fun j hj => ?_) (fun _ => id) ?_)
    · exact hj ▸ hi
    · exact ⟨False.elim, hkept⟩
  push _ _ _ hc hd := by
    rcases Content.push_leaves_iff.1 hd with ⟨-, rfl⟩ | ⟨-, rfl⟩
    · exact hc.trans hkept (.of_same hkept ⟨rfl, rfl⟩)
    · exact hc
  insertFront _ _ _ hc hd := by
    rcases Content.insertFront_leaves hd with ⟨rfl, -⟩ | rfl
    · exact hc.trans hkept (.of_same hkept ⟨rfl, rfl⟩)
    · exact hc
  setPhase _ _ _ hc hd := by
    rcases Content.setPhase_leaves hd with rfl | rfl <;>
      exact hc.trans hkept (.of_same hkept ⟨rfl, rfl⟩)

/-! ## Whatever is done to a circuit -/

namespace Action

variable {k : Action} {i : Identifier} {r : QuantumRegister}

/-- The identifiers that it brings to the store of `c`: those of a call on the store, and outside
every block those of the other calls. -/
def Adds (k : Action) (c : Circuit) (i : Identifier) : Prop :=
  (∃ kind, k = call (.store (.addIdentifier i kind))) ∨ c.blocks = [] ∧ k.Brings i

/-- That it brings this quantum register. -/
def AddsRegister (k : Action) (r : QuantumRegister) : Prop :=
  k = call (.store (.addRegister .quantum r))

/-- That it takes the identifiers away. -/
def Drops (k : Action) : Prop := k = call (.store (.copyEmpty .drop))

/-- Without a call on the store no identifier comes to it from a block. -/
theorem comes_of_adds (hk : k.onStore = false) (h : k.run.Leaves c d) :
    Content.Comes (k.Adds c) k.AddsRegister k.Drops c.content d.content := by
  have hkept : ¬ k.Drops := fun hdrops => by
    rw [hdrops] at hk
    cases hk
  have hgrown : (∀ i, k.Brings i → k.Adds c i) →
      Content.Comes (k.Adds c) k.AddsRegister k.Drops c.content d.content := fun hbrings =>
    (growth_comes _ _ hkept c.content).act hk hbrings c d (.refl hkept _) h
  by_cases hclosed : c.blocks = []
  · exact hgrown fun i hi => .inr ⟨hclosed, hi⟩
  · have hstays : d.content = c.content →
        Content.Comes (k.Adds c) k.AddsRegister k.Drops c.content d.content :=
      fun hsame => hsame ▸ .refl hkept _
    -- the calls that bring identifiers act on the block, or are refused in it
    cases k with
    | call k =>
      cases k with
      | addVar v initial =>
        have hkeeps : (Circuit.addVar v initial).Keeps c.InScopeOf := by
          refine (Edit.Keeps.ofExcept _).bind fun _ => (Edit.Keeps.ofExcept _).bind fun _ => ?_
          refine .read fun _ => (Edit.Keeps.ofExcept _).bind fun _ => ?_
          refine .read fun _ => (Edit.Keeps.ofExcept _).bind fun _ => ?_
          exact (keeps_inScopeOf (declare_inScopeOf _) c).bind fun _ =>
            keeps_inScopeOf (append_inScopeOf _) c
        exact hstays (hkeeps c d ⟨rfl, rfl, hclosed⟩ h).2.1
      | declare j => exact hstays (declare_inScopeOf j c d hclosed h).2.1
      | compose source o => exact hstays (compose_inScopeOf hclosed h).2.1
      | addOuter j kind =>
        exact hstays (congrArg content (addOuter_of_open hclosed h))
      | store _ | rename _ | append _ | appendHandles _ | appendOperation _ _ _ | barrier _
      | barrierAll | delay _ _ | write _ _ | addLoose _ _ _ | measureAll _ | jump _ =>
        exact hgrown fun i hi => hi.elim
    | assignValues _ | assignNamed _ | head _ | close _ => exact hgrown fun i hi => hi.elim

/-- Whatever is done to a circuit, of names only those come in that it brings. -/
theorem comes (hlisted : c.content.identifiers.Listed) (h : k.run.Leaves c d) :
    Content.Comes (k.Adds c) k.AddsRegister k.Drops c.content d.content := by
  by_cases hstore : k.onStore = true
  · obtain ⟨u, rfl, ⟨s, rfl, hu⟩ | ⟨values, rfl, hu⟩ | ⟨values, rfl, hu⟩⟩ :=
      leaves_of_onStore hstore h
    · refine (Content.Call.comes hlisted hu).mono ?_ ?_ ?_
      · rintro i ⟨kind, rfl⟩
        exact .inl ⟨kind, rfl⟩
      · rintro r rfl
        rfl
      · simp [Drops]
    · exact Content.assignValues_comes (by simp [Drops]) hu
    · exact Content.assignNamed_comes (by simp [Drops]) hu
  · exact comes_of_adds (by simpa using hstore) h

end Action

/-! ## What comes in when nothing is refused -/

theorem contains_of_declare {j : Identifier} (hclosed : c.blocks = [])
    (h : Circuit.declare j c = .ok () d) : d.content.identifiers.contains j := by
  obtain ⟨hcheck, rfl⟩ := (declare_eq_ok_iff_of_closed hclosed).1 h
  have hnone := Content.get?_eq_none_of_checkIdentifier hcheck
  exact (IdentifierTable.contains_insert_iff hnone).2 (.inr rfl)

/-- Records take no identifiers away. -/
theorem contains_of_each_append {j : Identifier} {records : List Instruction}
    (h : Edit.each Circuit.append records c = .ok () d) (hj : c.content.identifiers.contains j) :
    d.content.identifiers.contains j := by
  have hkeeps : (Edit.each Circuit.append records).Keeps
      (Growth.OfStore fun b => b.identifiers.contains j) := by
    refine .each fun i _ c d hc hd => ?_
    have hadds := Action.comes_of_adds (k := .call (.append i)) rfl hd
    exact hadds.keepsIdentifiers (by simp [Action.Drops]) j hc
  exact hkeeps c d hj (.of_ok h)

variable {A : Policy}

/-- The identifiers of the source that are not inlined come in under their images. -/
theorem Spliced.contains_iff {source : Circuit} {o : ComposeOptions} (h : Spliced c source o d)
    (hc : c.content.identifiers.Listed) (hd : d.content.identifiers.Listed)
    (hwrap : o.wrap = false) {j : Identifier} :
    d.content.identifiers.contains j ↔
      c.content.identifiers.contains j ∨ (Call.compose source o).Brings j := by
  obtain ⟨image, hresolves, hlist⟩ := h.identifiers
  rw [hd.contains_iff, hlist, List.map_append, List.mem_append, ← hc.contains_iff]
  refine or_congr_right ⟨fun hj => ?_, ?_⟩
  · rw [List.map_map] at hj
    obtain ⟨e, he, rfl⟩ := List.mem_map.1 hj
    obtain ⟨he, hinlines⟩ := List.mem_filter.1 he
    obtain ⟨n, hn⟩ := List.getElem?_of_mem he
    refine ⟨hwrap, e, he, by simpa using hinlines, n, ?_, hresolves n e hn⟩
    rw [List.getElem?_map, hn, Option.map_some]
  · rintro ⟨-, e, he, hinlines, n, hn, hresolved⟩
    rw [List.getElem?_map, Option.map_eq_some_iff] at hn
    obtain ⟨e', hn, hsame⟩ := hn
    have himage := hresolves n e' hn
    rw [hsame, hresolved] at himage
    cases himage
    rw [List.map_map]
    exact List.mem_map.2 ⟨e, List.mem_filter.2 ⟨he, by simpa using hinlines⟩, rfl⟩

namespace Action

variable {k : Action} {i : Identifier} {r : QuantumRegister}

/-- Where nothing is refused an identifier comes in that the call brings. -/
theorem contains_of_adds (hc : c.Reachable A)
    (hsource : ∀ source o, k = call (.compose source o) → source.Reachable A)
    (h : k.run c = .ok () d) (hi : k.Adds c i) : d.content.identifiers.contains i := by
  rcases hi with ⟨kind, rfl⟩ | ⟨hclosed, hbrings⟩
  · obtain ⟨u, hu, rfl⟩ := Edit.within_eq_ok_iff.1 h
    exact Content.contains_of_addIdentifier hu
  · cases k with
    | call k =>
      cases k with
      | addVar v initial =>
        obtain rfl : i = .var v := hbrings
        obtain ⟨records, u, -, hdeclare, hadd⟩ :=
          Call.run_eq_ok (k := .addVar v initial) trivial h
        exact contains_of_each_append hadd (contains_of_declare hclosed hdeclare)
      | declare j =>
        obtain rfl : i = j := hbrings
        exact contains_of_declare hclosed h
      | addOuter j kind =>
        obtain rfl : i = j := hbrings
        obtain ⟨_, u, hu, h⟩ := Edit.bind_eq_ok_iff.1 h
        cases hu
        obtain ⟨_, -, h⟩ := Edit.ofExcept_bind_eq_ok_iff.1 h
        obtain ⟨u, hu, rfl⟩ := Edit.within_eq_ok_iff.1 h
        exact Content.contains_of_addIdentifier hu
      | compose source o =>
        have hs := hsource source o rfl
        have hd : d.Reachable A := Reachable.compose hs.built o c d hc (.of_ok h)
        obtain ⟨p, s, images, u, hout⟩ := compose_outcome hc hs hclosed hbrings.1 h
        have hspliced := hout.spliced hs hclosed
        exact (hspliced.contains_iff hc.listed hd.listed hbrings.1).2 (.inr hbrings)
      | store _ | rename _ | append _ | appendHandles _ | appendOperation _ _ _ | barrier _
      | barrierAll | delay _ _ | write _ _ | addLoose _ _ _ | measureAll _ | jump _ =>
        exact hbrings.elim
    | assignValues _ | assignNamed _ | head _ | close _ => exact hbrings.elim

theorem mem_of_addsRegister (h : k.run c = .ok () d) (hr : k.AddsRegister r) :
    r ∈ d.content.qubits.registers := by
  subst hr
  obtain ⟨u, hu, rfl⟩ := Edit.within_eq_ok_iff.1 h
  show r ∈ u.qubits.registers
  rw [(Content.registers_of_addQuantum hu).1]
  exact List.mem_append_right _ (List.mem_singleton.2 rfl)

/-- The identifier and the quantum register have one name, and each of them is there or brought. -/
structure Meets (k : Action) (c : Circuit) (i : Identifier) (r : QuantumRegister) : Prop where
  identifier : c.content.identifiers.contains i ∧ ¬ k.Drops ∨ k.Adds c i
  register : r ∈ c.content.qubits.registers ∨ k.AddsRegister r
  name : r.name = i.name

/-- A register is shadowed only where the two meet. -/
theorem meets_of_shadowed (hc : c.Reachable A) (h : k.run.Leaves c d)
    (hd : d.content.Shadowed i r) : k.Meets c i r :=
  have hcomes := comes hc.listed h
  ⟨hcomes.identifiers i hd.identifier, hcomes.registers r hd.register, hd.name⟩

/-- Where nothing is refused, a register is shadowed as soon as the two meet. -/
theorem Meets.shadowed (hm : k.Meets c i r) (hc : c.Reachable A)
    (hsource : ∀ source o, k = call (.compose source o) → source.Reachable A)
    (h : k.run c = .ok () d) : d.content.Shadowed i r := by
  have hcomes := comes hc.listed (.of_ok h)
  refine ⟨?_, ?_, hm.name⟩
  · rcases hm.identifier with ⟨hi, hkept⟩ | hi
    · exact hcomes.keepsIdentifiers hkept i hi
    · exact contains_of_adds hc hsource h hi
  · rcases hm.register with hr | hr
    · exact hcomes.keepsRegisters hr
    · exact mem_of_addsRegister h hr

end Action

/-! ## Stacks of two -/

section Stacking

variable {low high : Circuit} {stamp : Nat}

/-- Of two stacked circuits: the registers that come together, and what is shadowed. -/
structure Stacking (low high d : Circuit) : Prop where
  shadowed : ∀ i r, d.content.Shadowed i r ↔
    (low.content.identifiers.contains i ∨ high.content.identifiers.contains i) ∧
      r ∈ d.content.qubits.registers ∧ r.name = i.name
  registers : ∀ r ∈ d.content.qubits.registers,
    ∃ q ∈ low.content.qubits.registers ++ high.content.qubits.registers, q.name = r.name
  /-- But for two default registers, which become one, all registers are kept. -/
  unmerged : ¬ (high.onlyRegister (k := .quantum) "q" ∧ low.onlyRegister (k := .quantum) "q") →
    d.content.qubits.registers = low.content.qubits.registers ++ high.content.qubits.registers

/-- Every quantum register of a frame has the name of one of the two circuits. -/
theorem Frames.exists_of_mem {qubits : BitList .quantum} {clbits : BitList .classical}
    (hlow : low.content.Orderly) (hhigh : high.content.Orderly)
    (h : Frames low high stamp qubits clbits) {r : QuantumRegister} (hr : r ∈ qubits.registers) :
    ∃ q ∈ low.content.qubits.registers ++ high.content.qubits.registers, q.name = r.name := by
  by_cases hboth : BothDefault low high
  · obtain ⟨q, hq, hname⟩ := exists_of_onlyRegister hboth.2
    refine ⟨q, List.mem_append_left _ hq, ?_⟩
    cases h with
    | default =>
      rcases BitList.ofSize_cases (high.numQubits + low.numQubits) stamp with hnone | ⟨-, -, hone⟩
      · rw [hnone] at hr
        exact absurd hr List.not_mem_nil
      · rw [hone] at hr
        rw [List.mem_singleton.1 hr]
        exact hname
    | measured hnot | carried hnot => exact absurd hboth hnot
  · rw [(h.qubits_eq hlow hhigh hboth).2] at hr
    exact ⟨r, hr, rfl⟩

theorem brings_of_unmapped {source : Circuit} {o : ComposeOptions} (hwrap : o.wrap = false)
    (hinlines : o.inlineCaptures = false) (hremap : o.remap = .empty)
    (hlisted : source.content.identifiers.Listed) {i : Identifier} :
    (Call.compose source o).Brings i ↔ source.content.identifiers.contains i := by
  have hstays : ∀ (j : Identifier) (identity : Identity),
      o.remap.resolve j identity = .ok j := fun j identity => by
    rw [hremap]
    rfl
  rw [hlisted.contains_iff]
  constructor
  · rintro ⟨-, e, he, -, n, -, hresolved⟩
    rw [hstays] at hresolved
    cases hresolved
    exact List.mem_map_of_mem he
  · intro hi
    obtain ⟨e, he, rfl⟩ := List.mem_map.1 hi
    obtain ⟨n, hn⟩ := List.getElem?_of_mem he
    refine ⟨hwrap, e, he, by simp [ComposeOptions.inlines, hinlines], n, ?_, hstays _ _⟩
    rw [List.getElem?_map, hn, Option.map_some]

/-- A stack has the identifiers of both circuits. -/
theorem stacking_of_tensor (hlow : low.Reachable A) (hhigh : high.Reachable A)
    (h : tensor high low stamp = .ok d) : Stacking low high d := by
  obtain ⟨qubits, clbits, c, p, s, images, u, p', s', images', u', hframes, hc, hout, hout'⟩ :=
    tensor_outcomes hlow hhigh h
  have hlowOrderly := hlow.built.orderly
  have hhighOrderly := hhigh.built.orderly
  have hd : d.Reachable A := hhigh.tensor hlow h
  have hfirst := hout.spliced hlow rfl
  have hsecond := hout'.spliced hhigh hout.blocks
  have hqubits : d.content.qubits = qubits := hsecond.qubits.trans hfirst.qubits
  refine ⟨fun i r => ?_, fun r hr => ?_, fun hnot => ?_⟩
  · have hidentifiers : d.content.identifiers.contains i ↔
        low.content.identifiers.contains i ∨ high.content.identifiers.contains i := by
      rw [hsecond.contains_iff hc.listed hd.listed rfl,
        hfirst.contains_iff IdentifierTable.listed_empty hc.listed rfl,
        brings_of_unmapped rfl rfl rfl hlow.listed, brings_of_unmapped rfl rfl rfl hhigh.listed]
      exact or_congr_left (or_iff_right fun hi => by cases hi)
    rw [← hidentifiers]
    exact ⟨fun ⟨hi, hr, hname⟩ => ⟨hi, hr, hname⟩, fun ⟨hi, hr, hname⟩ => ⟨hi, hr, hname⟩⟩
  · rw [hqubits] at hr
    exact hframes.exists_of_mem hlowOrderly hhighOrderly hr
  · rw [hqubits]
    exact (hframes.qubits_eq hlowOrderly hhighOrderly hnot).2

end Stacking

/-! ## When a quantum register is shadowed -/

/-- In a reached circuit, and in every circuit inside it, no identifier has the name of a classical
register. Of quantum registers this does not hold: what is done to the circuit, as far as it is not
refused, leaves a register shadowed exactly if the two names meet in it, and a stack of two has the
identifiers of both under the registers that it has. -/
theorem Reachable.shadowed_iff {k : Action} (hc : c.Reachable A)
    (hsource : ∀ source o, k = .call (.compose source o) → source.Reachable A) :
    (c.content.Everywhere fun b => ∀ i, b.identifiers.contains i →
      ∀ r ∈ b.clbits.registers, r.name ≠ i.name) ∧
    (∀ d i r, k.run.Leaves c d → d.content.Shadowed i r → k.Meets c i r) ∧
    (∀ d i r, k.run c = .ok () d → (d.content.Shadowed i r ↔ k.Meets c i r)) ∧
    ∀ high stamp d, high.Reachable A → Circuit.tensor high c stamp = .ok d → Stacking c high d := by
  have hwell := hc.built.everywhere_wellFormed
  refine ⟨hwell.combine hwell fun b hb _ => hb.names, ?_, ?_, ?_⟩
  · intro d i r h hd
    exact Action.meets_of_shadowed hc h hd
  · intro d i r h
    exact ⟨Action.meets_of_shadowed hc (.of_ok h), fun hm => hm.shadowed hc hsource h⟩
  · intro high stamp d hhigh h
    exact stacking_of_tensor hc hhigh h

/-- A variable under the name `a`. -/
def namedA : Identifier := .var ⟨"a", .bool, ⟨1, 0⟩⟩

/-- The store of a circuit with a quantum register `a`. -/
def registerA : Circuit :=
  ⟨"c", Content.empty.after [.addRegister .quantum (.make .quantum "a" 1 0)], []⟩

theorem registerA_reachable : registerA.Reachable .any := .ofStore "c" (.empty_after rfl)

/-- A declaration under the name of the quantum register is answered, and shadows it. -/
theorem shadowed_of_declare : registerA.Reachable .any ∧
    (∀ source o, Action.call (.declare namedA) = .call (.compose source o) →
      source.Reachable .any) ∧
    ∃ d, (Action.call (.declare namedA)).run registerA = .ok () d ∧
      d.content.Shadowed namedA (.make .quantum "a" 1 0) := by
  have hsource : ∀ source o, Action.call (.declare namedA) = .call (.compose source o) →
      source.Reachable .any := fun source o heq => by cases heq
  obtain ⟨d, hd⟩ : ∃ d, (Action.call (.declare namedA)).run registerA = .ok () d :=
    Edit.answers_of_isOk (by decide +kernel)
  obtain ⟨-, -, hiff, -⟩ := registerA_reachable.shadowed_iff hsource
  refine ⟨registerA_reachable, hsource, d, hd, (hiff d _ _ hd).2 ⟨?_, ?_, rfl⟩⟩
  · exact .inr (.inr ⟨rfl, rfl⟩)
  · exact .inl List.mem_cons_self

/-- A quantum register comes in under the name of an input. -/
theorem input_shadows_register : ∃ c : Circuit, c.Reachable .any ∧
    c.content.Shadowed namedA (.make .quantum "a" 1 0) := by
  refine ⟨⟨"c", Content.empty.after [.addIdentifier namedA .input,
    .addRegister .quantum (.make .quantum "a" 1 0)], []⟩, .ofStore "c" (.empty_after rfl), ?_⟩
  exact ⟨by decide +kernel, List.mem_cons_self, rfl⟩

/-! ## Runs in which no names meet -/

/-- The check that is left out: no identifier that it brings has the name of a quantum register that
is there, and no quantum register that it brings has the name of an identifier. -/
structure Action.Checked (k : Action) (c : Circuit) : Prop where
  identifiers : ∀ i, k.Adds c i → ∀ r ∈ c.content.qubits.registers, r.name ≠ i.name
  registers : ∀ r, k.AddsRegister r → ∀ i, c.content.identifiers.contains i → r.name ≠ i.name

/-- With the check, what is not shadowed stays so. -/
theorem Action.Checked.not_shadowed {k : Action} (h : k.Checked c) (hc : c.Reachable A)
    (hfree : ∀ i r, ¬ c.content.Shadowed i r) (hd : k.run.Leaves c d) :
    ∀ i r, ¬ d.content.Shadowed i r := by
  intro i r hshadowed
  obtain ⟨hi, hr, hname⟩ := Action.meets_of_shadowed hc hd hshadowed
  rcases hi with ⟨hi, -⟩ | hi
  · rcases hr with hr | hr
    · exact hfree i r ⟨hi, hr, hname⟩
    · exact h.registers r hr i hi hname
  · rcases hr with hr | hr
    · exact h.identifiers i hi r hr hname
    · -- what brings a register brings no identifier
      subst hr
      rcases hi with ⟨kind, hi⟩ | ⟨-, hi⟩
      · cases hi
      · exact hi

/-- Reached by checked steps from a circuit in which nothing is shadowed. -/
inductive Careful (A : Policy) : Circuit → Prop
  | start {c : Circuit} : c.Reachable A → (∀ i r, ¬ c.content.Shadowed i r) → Careful A c
  | act {c d : Circuit} (k : Action) : Careful A c → k.Checked c → k.run.Leaves c d →
      d.Reachable A → Careful A d
  | blocks {c : Circuit} (blocks : List Block) : Careful A c →
      Reachable A { c with blocks } → Careful A { c with blocks }

theorem Careful.reachable (h : Careful A c) : c.Reachable A := by
  cases h with
  | start hc _ => exact hc
  | act k _ _ _ hd => exact hd
  | blocks blocks _ hd => exact hd

/-- If every step is checked no register is ever shadowed. -/
theorem Careful.not_shadowed (h : Careful A c) : ∀ i r, ¬ c.content.Shadowed i r := by
  induction h with
  | start _ hfree => exact hfree
  | act k hc hchecked hd _ ih => exact hchecked.not_shadowed hc.reachable ih hd
  | blocks blocks _ _ ih => exact ih

end Circuit

end QuantumCircuit
