import QuantumCircuit.BitList
import QuantumCircuit.Proofs.Checking
import QuantumCircuit.Proofs.Keeping

/-!
# Sound bit lists

A bit list is sound when every bit is listed once and has a location, registers
have names of their own, and every member of a register is listed. Adding bits
and registers keeps a list sound, however the call ends.

Adding a bit answers in two ways and is refused in two (`add_eq_ok_iff`,
`add_eq_error_iff`). On a sound list a call is refused for one reason only: a bit for being listed
already or for want of room, a register over listed bits for its name
(`Sound.add_new`, `Sound.addRegister_ok`, `addRegister_taken`).
-/

namespace QuantumCircuit.BitList

variable {k : BitKind} {l : BitList k}

/-- Each bit once and located, registers apart by name and over listed bits. -/
structure Sound (l : BitList k) : Prop where
  bits : l.bits.Nodup
  located : Assoc.keys l.locations = l.bits
  names : (l.registers.map (·.name)).Nodup
  members : ∀ r ∈ l.registers, ∀ bit ∈ r.bits, bit ∈ l.bits
  size : l.size ≤ capacity

theorem register?_eq_none_iff {name : String} :
    l.register? name = none ↔ name ∉ l.registers.map (·.name) := by
  simp [register?]

/-- A register that answers to its name is listed, up to equality of registers. -/
theorem exists_mem_of_hasRegister {r : Register k} (h : l.hasRegister r) :
    ∃ q ∈ l.registers, q.name = r.name ∧ q.bits = r.bits := by
  unfold hasRegister at h
  cases hfind : l.register? r.name with
  | none => simp [hfind] at h
  | some q =>
    have hequal : (q == r) = true := by simpa [hfind] using h
    exact ⟨q, List.mem_of_find?_eq_some hfind, (Register.beq_iff q r).1 hequal⟩

theorem sound_empty : (empty : BitList k).Sound :=
  ⟨.nil, rfl, .nil, fun _ hr => absurd hr List.not_mem_nil, Nat.zero_le _⟩

/-! ## What adding a bit does -/

section Add

variable {bit : Bit k} {strict : Bool} {position : Nat} {l' : BitList k} {e : CircuitError}

/-- A listed bit answers to its position, another to the next one, where it comes in. -/
theorem add_eq_ok_iff : add bit strict l = .ok position l' ↔
    (∃ at_, l.find? bit = some at_ ∧ strict = false ∧ at_.position = position ∧ l' = l) ∨
      l.find? bit = none ∧ l.size < capacity ∧ l.size = position ∧ l' = l.snoc bit := by
  unfold add
  cases hfound : l.find? bit with
  | some at_ => cases strict <;> simp [eq_comm]
  | none => by_cases hsize : l.size < capacity <;> simp [hsize, eq_comm]

/-- A bit is refused for being listed or for want of room, and the list is as it was. -/
theorem add_eq_error_iff : add bit strict l = .error e l' ↔
    ((l.find? bit ≠ none ∧ strict = true ∧ e = .duplicateBit k bit.text) ∨
      l.find? bit = none ∧ capacity ≤ l.size ∧ e = .tooManyBits) ∧ l' = l := by
  unfold add
  cases hfound : l.find? bit with
  | some at_ => cases strict <;> simp [eq_comm]
  | none =>
    rcases Nat.lt_or_ge l.size capacity with hsize | hsize
    · simp [hsize, Nat.not_le.2 hsize]
    · simp [hsize, Nat.not_lt.2 hsize, eq_comm]

theorem add_leaves (h : (add bit strict).Leaves l l') :
    l' = l ∨ l' = l.snoc bit ∧ l.find? bit = none ∧ l.size < capacity := by
  rcases h with ⟨_, h⟩ | ⟨_, h⟩
  · obtain ⟨_, -, -, -, hsame⟩ | ⟨hnew, hsize, -, hsnoc⟩ := add_eq_ok_iff.1 h
    · exact .inl hsame
    · exact .inr ⟨hsnoc, hnew, hsize⟩
  · exact .inl (add_eq_error_iff.1 h).2

/-- Adding a bit leaves the registers alone. -/
theorem registers_of_add (h : (add bit strict).Leaves l l') : l'.registers = l.registers := by
  rcases add_leaves h with rfl | ⟨rfl, -⟩ <;> rfl

/-- Where different bits are all new, those after the first are new behind it as well. -/
theorem new_behind {rest : List (Bit k)} (hnodup : (bit :: rest).Nodup)
    (hnew : ∀ b ∈ bit :: rest, b ∉ l.bits) : ∀ b ∈ rest, b ∉ (l.snoc bit).bits := by
  intro b hb hmem
  rcases List.mem_append.1 hmem with hmem | hmem
  · exact hnew b (List.mem_cons_of_mem bit hb) hmem
  · exact (List.nodup_cons.1 hnodup).1 (List.mem_singleton.1 hmem ▸ hb)

end Add

namespace Sound

theorem contains_iff (h : l.Sound) {bit : Bit k} : l.contains bit ↔ bit ∈ l.bits := by
  rw [← h.located]
  exact Assoc.contains_iff_mem_keys bit l.locations

theorem find?_eq_none_iff (h : l.Sound) {bit : Bit k} : l.find? bit = none ↔ bit ∉ l.bits := by
  rw [← h.located]
  exact Assoc.find?_eq_none_iff bit l.locations

theorem exists_location (h : l.Sound) {bit : Bit k} (hbit : bit ∈ l.bits) :
    ∃ at_, l.find? bit = some at_ :=
  Option.isSome_iff_exists.1 (h.contains_iff.2 hbit)

/-- A register that is listed answers to its name. -/
theorem hasRegister_of_mem (h : l.Sound) {r : Register k} (hr : r ∈ l.registers) :
    l.hasRegister r := by
  have hfound : l.register? r.name = some r := by
    refine List.find?_eq_some_iff_append.2 ⟨by simp, ?_⟩
    obtain ⟨before, after, heq⟩ := List.append_of_mem hr
    refine ⟨before, after, heq, fun q hq => ?_⟩
    have hnames := h.names
    rw [heq, List.map_append, List.map_cons, List.nodup_append] at hnames
    have hne := hnames.2.2 q.name (List.mem_map_of_mem hq) r.name List.mem_cons_self
    simpa using hne
  unfold hasRegister
  rw [hfound]
  exact (Register.beq_iff r r).2 ⟨rfl, rfl⟩

/-! ## Adding bits -/

theorem snoc (h : l.Sound) {bit : Bit k} (hbit : bit ∉ l.bits) (hsize : l.size < capacity) :
    (l.snoc bit).Sound where
  bits := by
    show (l.bits ++ [bit]).Nodup
    rw [List.nodup_append]
    refine ⟨h.bits, by simp, fun a ha b hb => ?_⟩
    rw [List.mem_singleton.1 hb]
    exact fun heq => hbit (heq ▸ ha)
  located := by
    show Assoc.keys (l.locations ++ _) = l.bits ++ [bit]
    rw [Assoc.keys_append, h.located]
    rfl
  names := h.names
  members r hr b hb := List.mem_append_left _ (h.members r hr b hb)
  size := by
    show (l.bits ++ [bit]).length ≤ capacity
    rw [List.length_append]
    exact hsize

theorem add_new (h : l.Sound) {bit : Bit k} (hbit : bit ∉ l.bits) (hsize : l.size < capacity)
    (strict : Bool) : add bit strict l = .ok l.size (l.snoc bit) :=
  add_eq_ok_iff.2 (.inr ⟨h.find?_eq_none_iff.2 hbit, hsize, rfl, rfl⟩)

theorem add_listed (h : l.Sound) {bit : Bit k} (hbit : bit ∈ l.bits) :
    ∃ position, add bit false l = .ok position l := by
  obtain ⟨at_, hat⟩ := h.exists_location hbit
  exact ⟨at_.position, add_eq_ok_iff.2 (.inl ⟨at_, hat, rfl, rfl, rfl⟩)⟩

theorem noteMember (h : l.Sound) (r : Register k) (place : Nat) (bit : Bit k) :
    (noteMember r place bit l).Sound :=
  ⟨h.bits, (Assoc.keys_adjust _ _ _).trans h.located, h.names, h.members, h.size⟩

theorem add (bit : Bit k) (strict : Bool) : (BitList.add bit strict).Keeps (Sound (k := k)) := by
  intro l l' h hl
  rcases add_leaves hl with rfl | ⟨rfl, hnew, hsize⟩
  · exact h
  · exact h.snoc (h.find?_eq_none_iff.1 hnew) hsize

end Sound

/-- That the list goes on from an earlier one: no bit or register of it has gone. -/
structure Extends (l l' : BitList k) : Prop where
  bits : l.bits <+: l'.bits
  registers : l.registers <+: l'.registers

namespace Extends

theorem refl (l : BitList k) : l.Extends l := ⟨List.prefix_rfl, List.prefix_rfl⟩

theorem trans {a b c : BitList k} (hab : a.Extends b) (hbc : b.Extends c) : a.Extends c :=
  ⟨hab.bits.trans hbc.bits, hab.registers.trans hbc.registers⟩

theorem size_le {l' : BitList k} (h : l.Extends l') : l.size ≤ l'.size := h.bits.length_le

theorem hasRegister {l' : BitList k} (h : l.Extends l') {r : Register k} (hr : l.hasRegister r) :
    l'.hasRegister r := by
  obtain ⟨more, hmore⟩ := h.registers
  unfold BitList.hasRegister BitList.register? at hr ⊢
  rw [← hmore, List.find?_append]
  cases hfound : l.registers.find? (·.name == r.name) with
  | none => simp [hfound] at hr
  | some found => rwa [hfound] at hr

theorem add_leaves {bit : Bit k} {strict : Bool} {l' : BitList k}
    (hl : (add bit strict).Leaves l l') : l.Extends l' := by
  rcases BitList.add_leaves hl with rfl | ⟨rfl, -⟩
  · exact .refl l'
  · exact ⟨List.prefix_append _ _, List.prefix_rfl⟩

end Extends

/-! ## Adding registers -/

section Members

variable {r : Register k} {place : Nat} {bits : List (Bit k)}

/-- A property that adding and locating bits keep is kept by adding members. -/
theorem addMembers_keeps {P : BitList k → Prop} (hadd : ∀ bit, (add bit false).Keeps P)
    (hnote : ∀ place bit l, P l → P (noteMember r place bit l)) :
    (addMembers r place bits).Keeps P := by
  induction bits generalizing place with
  | nil => exact .pure ()
  | cons bit rest ih =>
    exact (hadd bit).bind fun _ => (Edit.Keeps.modify (hnote place bit)).bind fun _ => ih

theorem addMembers_keeps_sound : (addMembers r place bits).Keeps (Sound (k := k)) :=
  addMembers_keeps (fun bit => .add bit false) fun place bit _ h => h.noteMember r place bit

theorem addMembers_keeps_extends (base : BitList k) :
    (addMembers r place bits).Keeps base.Extends :=
  addMembers_keeps (fun _ _ _ hbase hl => hbase.trans (.add_leaves hl))
    fun _ _ _ h => ⟨h.bits, h.registers⟩

theorem addMembers_keeps_registers (registers : List (Register k)) :
    (addMembers r place bits).Keeps fun l => l.registers = registers :=
  addMembers_keeps (fun _ _ _ h hl => (registers_of_add hl).trans h) fun _ _ _ h => h

/-- A bit that has been added is listed, also if it was there. -/
theorem mem_of_add {bit : Bit k} {position : Nat} {l' : BitList k} (h : l.Sound)
    (hadd : add bit false l = .ok position l') : bit ∈ l'.bits := by
  obtain ⟨at_, hat, -, -, rfl⟩ | ⟨-, -, -, rfl⟩ := add_eq_ok_iff.1 hadd
  · exact h.contains_iff.1 (by rw [contains, hat]; rfl)
  · exact List.mem_append_right _ (List.mem_singleton.2 rfl)

/-- All members are listed once they have been added. -/
theorem mem_of_addMembers {l' : BitList k} (h : l.Sound)
    (hl : addMembers r place bits l = .ok () l') : ∀ bit ∈ bits, bit ∈ l'.bits := by
  induction bits generalizing place l with
  | nil => exact fun bit hbit => absurd hbit List.not_mem_nil
  | cons first rest ih =>
    obtain ⟨position, u, hadd, hl⟩ := Edit.bind_eq_ok_iff.1 hl
    obtain ⟨_, v, hnote, hl⟩ := Edit.bind_eq_ok_iff.1 hl
    cases hnote
    have hu := Sound.add first false _ u h (.of_ok hadd)
    have hlisted : first ∈ u.bits := mem_of_add h hadd
    intro bit hbit
    rcases List.mem_cons.1 hbit with rfl | hbit
    · exact (addMembers_keeps_extends _ _ l' (.refl _) (.of_ok hl)).bits.subset hlisted
    · exact ih (hu.noteMember r place first) hl bit hbit

/-- Listed members come in without a change to the bits. -/
theorem addMembers_listed (h : l.Sound) (hbits : ∀ bit ∈ bits, bit ∈ l.bits) :
    ∃ l', addMembers r place bits l = .ok () l' ∧ l'.bits = l.bits := by
  induction bits generalizing place l with
  | nil => exact ⟨l, rfl, rfl⟩
  | cons first rest ih =>
    obtain ⟨hfirst, hrest⟩ := List.forall_mem_cons.1 hbits
    obtain ⟨position, hadd⟩ := h.add_listed hfirst
    obtain ⟨l', hl', hsame⟩ := @ih _ (place + 1) (h.noteMember r place first) hrest
    refine ⟨l', ?_, hsame⟩
    exact Edit.bind_eq_ok_iff.2 ⟨position, l, hadd, Edit.bind_eq_ok_iff.2 ⟨(), _, rfl, hl'⟩⟩

end Members

theorem addRegister_eq_ok_iff {r : Register k} {l' : BitList k} :
    addRegister r l = .ok () l' ↔ l.register? r.name = none ∧
      ∃ u, addMembers r 0 r.bits l = .ok () u ∧
        l' = { u with registers := u.registers ++ [r] } := by
  show ((Edit.ofExcept _ >>= fun _ => addMembers r 0 r.bits >>= fun _ => modify _ :
    Edit (BitList k) Unit) l = _) ↔ _
  constructor
  · intro hl
    obtain ⟨_, hfree, hl⟩ := Edit.ofExcept_bind_eq_ok_iff.1 hl
    obtain ⟨_, u, hu, hl⟩ := Edit.bind_eq_ok_iff.1 hl
    cases hl
    exact ⟨by simpa using refuseIf_eq_ok_iff.1 hfree, u, hu, rfl⟩
  · rintro ⟨hname, u, hu, rfl⟩
    refine Edit.bind_eq_ok_iff.2 ⟨(), l, Edit.ofExcept_eq_ok_iff.2 ⟨?_, rfl⟩, ?_⟩
    · simpa using hname
    · exact Edit.bind_eq_ok_iff.2 ⟨(), u, hu, rfl⟩

/-- What adding a register leaves: the register with its members, or some members alone. -/
theorem addRegister_leaves {r : Register k} {l' : BitList k} (hl : (addRegister r).Leaves l l') :
    addRegister r l = .ok () l' ∨ l' = l ∨ (addMembers r 0 r.bits).Leaves l l' := by
  rcases hl with ⟨_, hl⟩ | ⟨e, hl⟩
  · exact .inl hl
  · refine .inr ?_
    rcases Edit.bind_eq_error_iff.1 hl with hl | ⟨c, u, hget, hl⟩
    · cases hl
    · cases hget
      rcases Edit.bind_eq_error_iff.1 hl with hl | ⟨_, v, hname, hl⟩
      · exact .inl (Edit.ofExcept_eq_error_iff.1 hl).2.symm
      · obtain ⟨-, rfl⟩ := Edit.ofExcept_eq_ok_iff.1 hname
        rcases Edit.bind_eq_error_iff.1 hl with hl | ⟨_, w, -, hl⟩
        · exact .inr (.of_error hl)
        · cases hl

/-- The registers after one was to be added. -/
theorem registers_of_addRegister {r : Register k} {l' : BitList k}
    (hl : (addRegister r).Leaves l l') :
    l'.registers = l.registers ∨ l'.registers = l.registers ++ [r] := by
  rcases addRegister_leaves hl with hl | rfl | hl
  · obtain ⟨-, u, hu, rfl⟩ := addRegister_eq_ok_iff.1 hl
    have hsame := addMembers_keeps_registers l.registers l u rfl (.of_ok hu)
    exact .inr (congrArg (· ++ [r]) hsame)
  · exact .inl rfl
  · exact .inl (addMembers_keeps_registers l.registers l l' rfl hl)

theorem addRegister_keeps_extends (base : BitList k) (r : Register k) :
    (addRegister r).Keeps base.Extends := by
  intro l l' hbase hl
  rcases addRegister_leaves hl with hl | rfl | hl
  · obtain ⟨-, u, hu, rfl⟩ := addRegister_eq_ok_iff.1 hl
    have hext := addMembers_keeps_extends base l u hbase (.of_ok hu)
    exact ⟨hext.bits, hext.registers.trans (List.prefix_append _ _)⟩
  · exact hbase
  · exact addMembers_keeps_extends base l l' hbase hl

theorem addRegister_keeps_sound (r : Register k) : (addRegister r).Keeps (Sound (k := k)) := by
  intro l l' h hl
  rcases addRegister_leaves hl with hl | rfl | hl
  · obtain ⟨hname, u, hu, rfl⟩ := addRegister_eq_ok_iff.1 hl
    have hsound := addMembers_keeps_sound l u h (.of_ok hu)
    have hsame := addMembers_keeps_registers l.registers l u rfl (.of_ok hu)
    refine ⟨hsound.bits, hsound.located, ?_, ?_, hsound.size⟩
    · show ((u.registers ++ [r]).map (·.name)).Nodup
      rw [List.map_append, List.nodup_append]
      refine ⟨hsound.names, by simp, fun a ha b hb => ?_⟩
      rw [List.map_singleton, List.mem_singleton] at hb
      rw [hsame] at ha
      exact fun heq => register?_eq_none_iff.1 hname (hb ▸ heq ▸ ha)
    · intro q hq bit hbit
      rcases List.mem_append.1 hq with hq | hq
      · exact hsound.members q hq bit hbit
      · rw [List.mem_singleton.1 hq] at hbit
        exact mem_of_addMembers h hu bit hbit
  · exact h
  · exact addMembers_keeps_sound l l' h hl

/-- A register over listed bits comes in if its name is free. -/
theorem Sound.addRegister_ok (h : l.Sound) {r : Register k} (hname : l.register? r.name = none)
    (hbits : ∀ bit ∈ r.bits, bit ∈ l.bits) :
    ∃ l', addRegister r l = .ok () l' ∧ l'.bits = l.bits ∧ l'.registers = l.registers ++ [r] := by
  have hadded : ∃ u, addMembers r 0 r.bits l = .ok () u ∧ u.bits = l.bits :=
    addMembers_listed h hbits
  obtain ⟨u, hu, hsame⟩ := hadded
  refine ⟨{ u with registers := u.registers ++ [r] }, addRegister_eq_ok_iff.2 ⟨hname, u, hu, rfl⟩,
    hsame, ?_⟩
  show u.registers ++ [r] = _
  rw [addMembers_keeps_registers l.registers l u rfl (.of_ok hu)]

/-- A register whose name is taken is refused, and nothing happens. -/
theorem addRegister_taken {r : Register k} (hname : l.register? r.name ≠ none) :
    addRegister r l = .error (.duplicateRegister k r.name) l := by
  have hsome : (l.register? r.name).isSome = true := Option.isSome_iff_ne_none.2 hname
  refine Edit.bind_eq_error_iff.2 (.inr ⟨l, l, rfl, Edit.bind_eq_error_iff.2 (.inl ?_)⟩)
  exact Edit.ofExcept_eq_error_iff.2 ⟨by rw [hsome]; rfl, rfl⟩

end QuantumCircuit.BitList
