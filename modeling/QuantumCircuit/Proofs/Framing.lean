import QuantumCircuit.Circuit.Compose
import QuantumCircuit.Proofs.Fitting
import QuantumCircuit.Proofs.Taking
import Mathlib.Data.List.Nodup
import Mathlib.Data.List.Perm.Subperm

/-!
# The frame of a stack

Two circuits are stacked in a frame: a circuit that has bits and registers, and nothing else
(`Circuit.framed`). There are three kinds of frames (`Circuit.Frames`). Two circuits whose only
quantum register is called `q` are stacked over new default registers, `q` and `c`; else the qubits
and the quantum registers are those of both circuits, the lower one first. So are the clbits and
the classical registers then, but that two registers `meas`, if each is the only one, are replaced
by a new one. `Circuit.tensorFrame_eq_ok_iff` says that there are no others.
-/

namespace QuantumCircuit

namespace BitList

variable {k : BitKind} {l l' : BitList k} {bits : List (Bit k)}

/-! ## A register alone -/

/-- New members come in one after another, if there is room for them. -/
theorem Sound.addMembers_new (h : l.Sound) (r : Register k) (place : Nat) (hnodup : bits.Nodup)
    (hnew : ∀ bit ∈ bits, bit ∉ l.bits) (hroom : l.size + bits.length ≤ capacity) :
    ∃ l', addMembers r place bits l = .ok () l' ∧ l'.bits = l.bits ++ bits := by
  induction bits generalizing l place with
  | nil => exact ⟨l, rfl, (List.append_nil _).symm⟩
  | cons bit rest ih =>
    have hbit := (List.forall_mem_cons.1 hnew).1
    rw [List.length_cons] at hroom
    have hsize : (BitList.noteMember r place bit (l.snoc bit)).size = l.size + 1 :=
      List.length_append
    have hsound := (h.snoc hbit (by omega)).noteMember r place bit
    obtain ⟨l', hl', hbits⟩ := ih hsound (place + 1) hnodup.of_cons (new_behind hnodup hnew)
      (by omega)
    refine ⟨l', ?_, hbits.trans (List.append_assoc l.bits [bit] rest)⟩
    refine Edit.bind_eq_ok_iff.2 ⟨l.size, l.snoc bit, h.add_new hbit (by omega) false, ?_⟩
    exact Edit.bind_eq_ok_iff.2 ⟨(), _, rfl, hl'⟩

theorem nodup_make (name : String) (size stamp : Nat) :
    (Register.make k name size stamp).bits.Nodup := by
  refine List.Nodup.map ?_ List.nodup_range
  intro i j h
  injection h with hidentity
  injection hidentity

theorem size_make (name : String) (size stamp : Nat) :
    (Register.make k name size stamp).bits.length = size := by
  simp [Register.make]

/-- A register of new bits comes in if its name is free and there is room. -/
theorem Sound.addRegister_new (h : l.Sound) {r : Register k} (hname : l.register? r.name = none)
    (hnodup : r.bits.Nodup) (hnew : ∀ bit ∈ r.bits, bit ∉ l.bits)
    (hroom : l.size + r.bits.length ≤ capacity) :
    ∃ l', addRegister r l = .ok () l' ∧ l'.bits = l.bits ++ r.bits ∧
      l'.registers = l.registers ++ [r] := by
  obtain ⟨u, hu, hbits⟩ := h.addMembers_new r 0 hnodup hnew hroom
  refine ⟨_, addRegister_eq_ok_iff.2 ⟨hname, u, hu, rfl⟩, hbits, ?_⟩
  exact congrArg (· ++ [r]) (addMembers_keeps_registers l.registers l u rfl (.of_ok hu))

/-- A register of its own bits comes into an empty list, if it is small enough. -/
theorem addRegister_make_ok (name : String) (stamp : Nat) {size : Nat} (hsize : size ≤ capacity) :
    ∃ l, addRegister (Register.make k name size stamp) empty = .ok () l := by
  have hroom : (empty : BitList k).size + (Register.make k name size stamp).bits.length ≤
      capacity := by
    rw [size_make, show (empty : BitList k).size = 0 from rfl, Nat.zero_add]
    exact hsize
  obtain ⟨l, hl, -⟩ := sound_empty.addRegister_new (r := Register.make k name size stamp) rfl
    (nodup_make name size stamp) (fun _ _ => List.not_mem_nil) hroom
  exact ⟨l, hl⟩

/-- The list is then the register with its bits. -/
theorem addRegister_make_eq_ok {name : String} {size stamp : Nat}
    (h : addRegister (Register.make k name size stamp) empty = .ok () l) :
    l.bits = (Register.make k name size stamp).bits ∧
      l.registers = [Register.make k name size stamp] := by
  obtain ⟨-, u, hu, rfl⟩ := addRegister_eq_ok_iff.1 h
  have hsound := addMembers_keeps_sound _ u sound_empty (.of_ok hu)
  -- all members are listed, so there was room for them
  have hfits := ((nodup_make name size stamp).subperm fun bit hbit =>
    mem_of_addMembers sound_empty hu bit hbit).length_le
  obtain ⟨v, hv, hbits⟩ := sound_empty.addMembers_new (Register.make k name size stamp) 0
    (nodup_make name size stamp)
    (fun _ _ => List.not_mem_nil) (by
      rw [show (empty : BitList k).size = 0 from rfl, Nat.zero_add]
      exact Nat.le_trans hfits hsound.size)
  obtain rfl : u = v := (EStateM.Result.ok.inj (hu.symm.trans hv)).2
  have hnone := addMembers_keeps_registers [] _ u rfl (.of_ok hu)
  refine ⟨hbits.trans (List.nil_append _), ?_⟩
  show u.registers ++ [_] = _
  rw [hnone]
  rfl

/-- A list with one default register of so many bits; with none if it is empty or too large. -/
def ofSize (k : BitKind) (size stamp : Nat) : BitList k :=
  if size = 0 then empty
  else
    match addRegister (Register.make k k.letter size stamp) empty with
    | .ok _ l => l
    | .error _ _ => empty

/-- A list that holds nothing, or else the register. -/
theorem ofSize_cases (size stamp : Nat) : ofSize k size stamp = empty ∨ size ≠ 0 ∧
    (ofSize k size stamp).bits = (Register.make k k.letter size stamp).bits ∧
    (ofSize k size stamp).registers = [Register.make k k.letter size stamp] := by
  unfold ofSize
  split
  · exact .inl rfl
  · rename_i hsome
    split
    · rename_i l hl
      exact .inr ⟨hsome, addRegister_make_eq_ok hl⟩
    · exact .inl rfl

/-- The register is there if it is small enough and has a bit. -/
theorem ofSize_pos {size stamp : Nat} (hsome : size ≠ 0) (hsize : size ≤ capacity) :
    (ofSize k size stamp).bits = (Register.make k k.letter size stamp).bits ∧
      (ofSize k size stamp).registers = [Register.make k k.letter size stamp] := by
  obtain ⟨l, hl⟩ := addRegister_make_ok (k := k) k.letter stamp hsize
  unfold ofSize
  rw [if_neg hsome, hl]
  exact addRegister_make_eq_ok hl

/-- It has so many bits, unless they are too many. -/
theorem size_ofSize (size stamp : Nat) : (ofSize k size stamp).size = size ∨
    (ofSize k size stamp).size = 0 ∧ capacity < size := by
  by_cases hsize : size ≤ capacity
  · left
    by_cases hsome : size = 0
    · rw [hsome]
      rfl
    · rw [BitList.size, (ofSize_pos hsome hsize).1, size_make]
  · rcases ofSize_cases (k := k) size stamp with hnone | ⟨-, hbits, -⟩
    · exact .inr ⟨congrArg BitList.size hnone, Nat.lt_of_not_le hsize⟩
    · exact .inl (by rw [BitList.size, hbits, size_make])

end BitList

/-! ## Bits of both circuits -/

theorem Content.Orderly.sound {c : Content} (h : c.Orderly) : (k : BitKind) → (c.bits k).Sound
  | .quantum => h.qubits
  | .classical => h.clbits

namespace Circuit

variable {low high : Circuit}

/-- The only register of the circuit is one of its registers, and has the name. -/
theorem exists_of_onlyRegister {k : BitKind} {c : Circuit} {name : String}
    (h : c.onlyRegister (k := k) name = true) :
    ∃ r ∈ (c.content.bits k).registers, r.name = name := by
  unfold onlyRegister at h
  split at h
  · rename_i r hr
    exact ⟨r, hr ▸ List.mem_singleton.2 rfl, by simpa using h⟩
  · cases h

/-- Both circuits have no quantum register but one that is called `q`. -/
def BothDefault (low high : Circuit) : Prop :=
  high.onlyRegister (k := .quantum) "q" ∧ low.onlyRegister (k := .quantum) "q"

/-- Both circuits have no classical register but one that is called `meas`. -/
def BothMeasured (low high : Circuit) : Prop :=
  high.onlyRegister (k := .classical) "meas" ∧ low.onlyRegister (k := .classical) "meas"

/-- The bits of one kind of both circuits, and their registers, are taken in. -/
def takingBoth (k : BitKind) (low high : Circuit) : Edit (BitList k) Unit :=
  BitList.taking ((low.content.bits k).bits ++ (high.content.bits k).bits)
    ((low.content.bits k).registers ++ (high.content.bits k).registers)

/-- Where there are no identifiers, it is all a matter of the list of bits. -/
theorem addBitsOfBoth_apply (k : BitKind) {c : Circuit} (hc : c.content.identifiers = .empty) :
    addBitsOfBoth k low high c =
      Edit.within contentFocus (Edit.within (Content.bitFocus k) (takingBoth k low high)) c := by
  refine Edit.within_congr (Eq.trans ?_ (Edit.within_bind (Content.bitFocus_lawful k) _ _ _).symm)
  refine Edit.bind_congr (Content.each_addBit_eq_within _ _) fun _ d hrun =>
    Content.each_addRegister_eq_within fun r _ => ?_
  obtain ⟨l, -, rfl⟩ := Edit.within_eq_ok_iff.1 hrun
  rw [Content.bitFocus_set_identifiers,
    show (contentFocus.get c).identifiers = .empty from hc]
  exact Bool.false_ne_true

/-! ## Frames -/

/-- A circuit with these bits and registers, and nothing else. -/
def framed (name : String) (qubits : BitList .quantum) (clbits : BitList .classical) : Circuit :=
  { empty name with content := { Content.empty with qubits, clbits } }

variable {stamp : Nat} {frame : Circuit} {qubits : BitList .quantum} {clbits : BitList .classical}

theorem addDefaultRegister_eq {k : BitKind} {size : Nat} {c : Content}
    (hbits : (Content.bitFocus k).get c = .empty) (hc : c.identifiers = .empty) :
    addDefaultRegister k size stamp c = (Content.bitFocus k).set (.ofSize k size stamp) c := by
  have hkeeps : (Content.bitFocus k).set .empty c = c := by
    rw [← hbits]
    exact (Content.bitFocus_lawful k).set_get c
  unfold addDefaultRegister BitList.ofSize
  split
  · exact hkeeps.symm
  · unfold Edit.finalState
    rw [Content.addRegister_eq_within (hc ▸ Bool.false_ne_true), Edit.within, hbits]
    cases BitList.addRegister (Register.make k k.letter size stamp) .empty with
    | ok _ l => rfl
    | error e l => exact hkeeps.symm

/-- The bits that the frame of two circuits has. -/
inductive Frames (low high : Circuit) (stamp : Nat) : BitList .quantum → BitList .classical → Prop
  /-- New default registers stand for two that are called `q`. -/
  | default : BothDefault low high → Frames low high stamp
      (.ofSize .quantum (high.numQubits + low.numQubits) stamp)
      (.ofSize .classical (high.numClbits + low.numClbits) stamp)
  /-- One register `meas` stands for two. -/
  | measured {qubits : BitList .quantum} {clbits : BitList .classical} :
      ¬ BothDefault low high → BothMeasured low high →
      takingBoth .quantum low high .empty = .ok () qubits →
      BitList.addRegister (.make .classical "meas" (high.numClbits + low.numClbits) stamp) .empty =
        .ok () clbits → Frames low high stamp qubits clbits
  /-- All bits and registers are taken over. -/
  | carried {qubits : BitList .quantum} {clbits : BitList .classical} :
      ¬ BothDefault low high → ¬ BothMeasured low high →
      takingBoth .quantum low high .empty = .ok () qubits →
      takingBoth .classical low high .empty = .ok () clbits → Frames low high stamp qubits clbits

theorem withSize_eq_framed (name : String) (numQubits numClbits stamp : Nat) :
    withSize name numQubits numClbits stamp =
      framed name (.ofSize .quantum numQubits stamp) (.ofSize .classical numClbits stamp) := by
  unfold withSize
  rw [addDefaultRegister_eq (k := .quantum) rfl rfl,
    addDefaultRegister_eq (k := .classical) rfl rfl]
  rfl

theorem addQubitsOfBoth_eq_ok_iff {name : String} : addBitsOfBoth .quantum low high (.empty name) =
    .ok () frame ↔ ∃ qubits, takingBoth .quantum low high .empty = .ok () qubits ∧
      framed name qubits .empty = frame := by
  rw [addBitsOfBoth_apply .quantum rfl, Edit.within_eq_ok_iff]
  simp only [Edit.within_eq_ok_iff]
  constructor
  · rintro ⟨_, ⟨qubits, h, rfl⟩, rfl⟩
    exact ⟨qubits, h, rfl⟩
  · rintro ⟨qubits, h, rfl⟩
    exact ⟨_, ⟨qubits, h, rfl⟩, rfl⟩

/-- Where there are no clbits yet, an edit of their list makes the frame complete. -/
theorem completed_iff {name : String} {e : Edit (BitList .classical) Unit} :
    Edit.within contentFocus (Edit.within (Content.bitFocus .classical) e)
        (framed name qubits .empty) = .ok () frame ↔
      ∃ clbits, e .empty = .ok () clbits ∧ framed name qubits clbits = frame := by
  simp only [Edit.within_eq_ok_iff]
  constructor
  · rintro ⟨_, ⟨clbits, h, rfl⟩, rfl⟩
    exact ⟨clbits, h, rfl⟩
  · rintro ⟨clbits, h, rfl⟩
    exact ⟨_, ⟨clbits, h, rfl⟩, rfl⟩

theorem tensorFrame_eq_ok_iff : tensorFrame low high stamp = .ok frame ↔
    ∃ qubits clbits, Frames low high stamp qubits clbits ∧
      framed high.name qubits clbits = frame := by
  have hdefault : (high.onlyRegister (k := .quantum) "q" &&
      low.onlyRegister (k := .quantum) "q") = true ↔ BothDefault low high := Bool.and_eq_true_iff
  have hmeasured : (high.onlyRegister (k := .classical) "meas" &&
      low.onlyRegister (k := .classical) "meas") = true ↔ BothMeasured low high :=
    Bool.and_eq_true_iff
  have hregister : ∀ qubits, Edit.within contentFocus (Content.addRegister
      (Register.make .classical "meas" (high.numClbits + low.numClbits) stamp))
        (framed high.name qubits .empty) =
      Edit.within contentFocus (Edit.within (Content.bitFocus .classical) (BitList.addRegister
        (Register.make .classical "meas" (high.numClbits + low.numClbits) stamp)))
        (framed high.name qubits .empty) := fun qubits =>
    Edit.within_congr (Content.addRegister_eq_within Bool.false_ne_true)
  unfold tensorFrame
  by_cases hq : BothDefault low high
  · rw [if_pos (hdefault.2 hq), withSize_eq_framed]
    constructor
    · intro h
      exact ⟨_, _, .default hq, Except.ok.inj h⟩
    · rintro ⟨qubits, clbits, hframes, rfl⟩
      cases hframes with
      | default => rfl
      | measured hnot | carried hnot => exact absurd hq hnot
  · rw [if_neg (fun h => hq (hdefault.1 h)), Edit.finalState_eq_ok_iff, Edit.bind_eq_ok_iff]
    constructor
    · rintro ⟨_, u, hu, h⟩
      obtain ⟨qubits, hqubits, rfl⟩ := addQubitsOfBoth_eq_ok_iff.1 hu
      by_cases hc : BothMeasured low high
      · rw [if_pos (hmeasured.2 hc), hregister, completed_iff] at h
        obtain ⟨clbits, hclbits, heq⟩ := h
        exact ⟨qubits, clbits, .measured hq hc hqubits hclbits, heq⟩
      · rw [if_neg (fun h => hc (hmeasured.1 h)), addBitsOfBoth_apply .classical rfl,
          completed_iff] at h
        obtain ⟨clbits, hclbits, heq⟩ := h
        exact ⟨qubits, clbits, .carried hq hc hqubits hclbits, heq⟩
    · rintro ⟨qubits, clbits, hframes, heq⟩
      cases hframes with
      | default hyes => exact absurd hyes hq
      | measured _ hc hqubits hclbits =>
        refine ⟨(), _, addQubitsOfBoth_eq_ok_iff.2 ⟨qubits, hqubits, rfl⟩, ?_⟩
        rw [if_pos (hmeasured.2 hc), hregister]
        exact completed_iff.2 ⟨clbits, hclbits, heq⟩
      | carried _ hc hqubits hclbits =>
        refine ⟨(), _, addQubitsOfBoth_eq_ok_iff.2 ⟨qubits, hqubits, rfl⟩, ?_⟩
        rw [if_neg (fun h => hc (hmeasured.1 h)), addBitsOfBoth_apply .classical rfl]
        exact completed_iff.2 ⟨clbits, hclbits, heq⟩

/-! ## What a frame has -/

namespace Frames

section Kept

variable (hlow : low.content.Orderly) (hhigh : high.content.Orderly)
  (h : Frames low high stamp qubits clbits)
include hlow hhigh

theorem of_takingBoth {k : BitKind} {l : BitList k} (h : takingBoth k low high .empty = .ok () l) :
    l.bits = (low.content.bits k).bits ++ (high.content.bits k).bits ∧
      l.registers = (low.content.bits k).registers ++ (high.content.bits k).registers := by
  refine BitList.taking_eq_ok (fun r hr bit hbit => ?_) h
  rcases List.mem_append.1 hr with hr | hr
  · exact List.mem_append_left _ ((hlow.sound k).members r hr bit hbit)
  · exact List.mem_append_right _ ((hhigh.sound k).members r hr bit hbit)

include h

/-- Without two default registers, the qubits are those of both circuits. -/
theorem qubits_eq (hnot : ¬ BothDefault low high) :
    qubits.bits = low.content.qubits.bits ++ high.content.qubits.bits ∧
      qubits.registers = low.content.qubits.registers ++ high.content.qubits.registers := by
  cases h with
  | default hyes => exact absurd hyes hnot
  | measured _ _ hqubits _ | carried _ _ hqubits _ => exact of_takingBoth hlow hhigh hqubits

/-- Without two measurement registers either, so are the clbits. -/
theorem clbits_eq (hnot : ¬ BothDefault low high) (hnot' : ¬ BothMeasured low high) :
    clbits.bits = low.content.clbits.bits ++ high.content.clbits.bits ∧
      clbits.registers = low.content.clbits.registers ++ high.content.clbits.registers := by
  cases h with
  | default hyes => exact absurd hyes hnot
  | measured _ hyes => exact absurd hyes hnot'
  | carried _ _ _ hclbits => exact of_takingBoth hlow hhigh hclbits

/-- There are as many bits as both circuits have; none, if these are too many for a default
register. -/
theorem sizes : (qubits.size = low.numQubits + high.numQubits ∨
      qubits.size = 0 ∧ BitList.capacity < low.numQubits + high.numQubits) ∧
    (clbits.size = low.numClbits + high.numClbits ∨
      clbits.size = 0 ∧ BitList.capacity < low.numClbits + high.numClbits) := by
  have hcarried : ∀ {k : BitKind} {l : BitList k}, takingBoth k low high .empty = .ok () l →
      l.size = (low.content.bits k).size + (high.content.bits k).size := by
    intro k l hl
    rw [BitList.size, (of_takingBoth hlow hhigh hl).1, List.length_append]
    rfl
  cases h with
  | default =>
    rw [Nat.add_comm low.numQubits, Nat.add_comm low.numClbits]
    exact ⟨BitList.size_ofSize _ _, BitList.size_ofSize _ _⟩
  | measured _ _ hqubits hclbits =>
    refine ⟨.inl (hcarried hqubits), .inl ?_⟩
    rw [BitList.size, (BitList.addRegister_make_eq_ok hclbits).1, BitList.size_make, Nat.add_comm]
  | carried _ _ hqubits hclbits => exact ⟨.inl (hcarried hqubits), .inl (hcarried hclbits)⟩

end Kept

end Frames

end Circuit

end QuantumCircuit
