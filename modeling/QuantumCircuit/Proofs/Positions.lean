import QuantumCircuit.Proofs.Fitting

/-!
# Positions of bits

A bit is found at the position where it stands (`BitList.Located`). In a list that is also
sound, finding a bit and reading a position undo each other
(`BitList.Exact.indexOf?_eq_some_iff`). All built stores have such lists
(`Content.Built.exact`).

Whatever is done to a store, its bit lists only go on (`Content.Grows`), so that a bit
keeps the position it has.
-/

namespace QuantumCircuit

/-! ## Exact bit lists -/

namespace BitList

variable {k : BitKind} {l l' : BitList k}

/-- That every bit is found at a position where it stands. -/
def Located (l : BitList k) : Prop :=
  ∀ bit at_, l.find? bit = some at_ → l.bits[at_.position]? = some bit

namespace Located

theorem snoc (h : l.Located) (bit : Bit k) : (l.snoc bit).Located := by
  intro other at_ hfound
  rw [find?, BitList.snoc, Assoc.find?_append] at hfound
  cases hold : Assoc.find? other l.locations with
  | some old =>
    -- an old bit stands where it stood
    rw [hold, Option.some_or, Option.some.injEq] at hfound
    subst hfound
    have hstands := h other old hold
    exact List.getElem?_append_left (List.getElem?_eq_some_iff.1 hstands).1 ▸ hstands
  | none =>
    rw [hold, Option.none_or] at hfound
    by_cases hsame : bit = other
    · subst hsame
      simp only [Assoc.find?, if_true, Option.some.injEq] at hfound
      subst hfound
      exact List.getElem?_concat_length
    · simp [Assoc.find?, hsame] at hfound

theorem noteMember (h : l.Located) (r : Register k) (place : Nat) (bit : Bit k) :
    (noteMember r place bit l).Located := by
  intro other at_ hfound
  simp only [find?, BitList.noteMember, Assoc.find?_adjust] at hfound
  split at hfound
  · obtain ⟨old, hold, rfl⟩ := Option.map_eq_some_iff.1 hfound
    exact h other old hold
  · exact h other at_ hfound

theorem add (bit : Bit k) (strict : Bool) : (BitList.add bit strict).Keeps (Located (k := k)) := by
  intro l l' h hl
  rcases add_leaves hl with rfl | ⟨rfl, -⟩
  · exact h
  · exact h.snoc bit

theorem addRegister (r : Register k) : (BitList.addRegister r).Keeps (Located (k := k)) := by
  intro l l' h hl
  have hmembers : (addMembers r 0 r.bits).Keeps (Located (k := k)) :=
    addMembers_keeps (fun bit => add bit false) fun place bit l hl => hl.noteMember r place bit
  rcases addRegister_leaves hl with hok | rfl | hl
  · obtain ⟨-, u, hu, rfl⟩ := addRegister_eq_ok_iff.1 hok
    exact hmembers l u h (.of_ok hu)
  · exact h
  · exact hmembers l l' h hl

end Located

/-- A sound list in which every bit is found where it stands. -/
structure Exact (l : BitList k) : Prop where
  sound : l.Sound
  located : l.Located

theorem exact_empty : (empty : BitList k).Exact :=
  ⟨sound_empty, fun _ _ h => by cases h⟩

/-- A bit has the position where it stands. -/
theorem Exact.indexOf?_eq_some_iff (h : l.Exact) {bit : Bit k} {n : Nat} :
    l.indexOf? bit = some n ↔ l.get? n = some bit := by
  constructor
  · intro hindex
    obtain ⟨at_, hfound, rfl⟩ := Option.map_eq_some_iff.1 hindex
    exact h.located bit at_ hfound
  · intro hget
    obtain ⟨at_, hfound⟩ := h.sound.exists_location (List.mem_of_getElem? hget)
    -- no bit stands at two positions
    have hstands := h.located bit at_ hfound
    have hlt := (List.getElem?_eq_some_iff.1 hstands).1
    rw [indexOf?, hfound, Option.map_some, Option.some.injEq]
    exact (List.getElem?_inj hlt h.sound.bits).1 (hstands.trans hget.symm)

/-- A bit keeps its position. -/
theorem Extends.get? (h : l.Extends l') {n : Nat} {bit : Bit k} (hbit : l.get? n = some bit) :
    l'.get? n = some bit :=
  List.getElem?_eq_some_iff.2
    ⟨_, (h.bits.getElem (List.getElem?_eq_some_iff.1 hbit).1).symm.trans
      (List.getElem?_eq_some_iff.1 hbit).2⟩

/-- A bit that was listed stands nowhere else later. -/
theorem Extends.get?_iff (h : l.Extends l') (hl' : l'.Exact) {n : Nat} {bit : Bit k}
    (hbit : bit ∈ l.bits) : l'.get? n = some bit ↔ l.get? n = some bit := by
  refine ⟨fun hget => ?_, h.get?⟩
  obtain ⟨m, hm⟩ := List.getElem?_of_mem hbit
  have hlater := h.get? hm
  have hlt := (List.getElem?_eq_some_iff.1 hlater).1
  obtain rfl := (List.getElem?_inj hlt hl'.sound.bits).1 (hlater.trans hget.symm)
  exact hm

end BitList

/-! ## Stores that go on -/

namespace Content

variable {c d e base : Content}

/-- A store with exact bit lists. -/
structure Exact (c : Content) : Prop where
  qubits : c.qubits.Exact
  clbits : c.clbits.Exact

/-- That the bit lists go on, and stay exact. -/
structure Grows (c d : Content) : Prop where
  qubits : c.qubits.Extends d.qubits
  clbits : c.clbits.Extends d.clbits
  exact : c.Exact → d.Exact

namespace Grows

theorem refl (c : Content) : c.Grows c := ⟨.refl _, .refl _, id⟩

theorem trans (hcd : c.Grows d) (hde : d.Grows e) : c.Grows e :=
  ⟨hcd.qubits.trans hde.qubits, hcd.clbits.trans hde.clbits, hde.exact ∘ hcd.exact⟩

/-- Only the bits count. -/
theorem of_bits (hqubits : d.qubits = c.qubits) (hclbits : d.clbits = c.clbits) : c.Grows d :=
  ⟨hqubits ▸ .refl _, hclbits ▸ .refl _, fun h => ⟨hqubits ▸ h.qubits, hclbits ▸ h.clbits⟩⟩

theorem keeps {α : Type} {edit : Edit Content α} (h : ∀ c d, edit.Leaves c d → c.Grows d) :
    edit.Keeps base.Grows :=
  fun c d hc hd => hc.trans (h c d hd)

/-- An edit of the bits of one kind that only adds bits keeps a store growing. -/
theorem within {α : Type} {k : BitKind} {edit : Edit (BitList k) α}
    (hext : ∀ l l', edit.Leaves l l' → l.Extends l') (hexact : edit.Keeps BitList.Exact) :
    (Edit.within (bitFocus k) edit).Keeps base.Grows := by
  refine keeps fun c d hd => ?_
  obtain ⟨l, hl, rfl⟩ := Edit.leaves_within_iff.1 hd
  cases k with
  | quantum =>
    exact ⟨hext _ l hl, .refl _, fun h => ⟨hexact _ l h.qubits hl, h.clbits⟩⟩
  | classical =>
    exact ⟨.refl _, hext _ l hl, fun h => ⟨h.qubits, hexact _ l h.clbits hl⟩⟩

theorem addBit {k : BitKind} (bit : Bit k) : (Content.addBit bit).Keeps base.Grows :=
  within (fun _ _ hl => BitList.Extends.add_leaves hl) fun l l' h hl =>
    ⟨BitList.Sound.add bit true l l' h.sound hl, BitList.Located.add bit true l l' h.located hl⟩

theorem addRegister {k : BitKind} (r : Register k) : (Content.addRegister r).Keeps base.Grows := by
  have hwithin : (Edit.within (bitFocus k) (BitList.addRegister r)).Keeps base.Grows :=
    within (fun l l' hl => BitList.addRegister_keeps_extends l r l l' (.refl l) hl)
      fun l l' h hl => ⟨BitList.addRegister_keeps_sound r l l' h.sound hl,
        BitList.Located.addRegister r l l' h.located hl⟩
  cases k with
  | quantum => exact hwithin
  | classical => exact .read fun _ => (Edit.Keeps.ofExcept _).bind fun _ => hwithin

theorem addIdentifier (i : Identifier) (kind : IdentifierKind) :
    (Content.addIdentifier i kind).Keeps base.Grows := by
  refine keeps fun c d hd => ?_
  obtain ⟨t, rfl⟩ := addIdentifier_leaves hd
  exact of_bits rfl rfl

theorem push (i : Instruction) : (Content.push i).Keeps base.Grows := by
  refine keeps fun c d hd => ?_
  rcases push_leaves_iff.1 hd with ⟨-, rfl⟩ | ⟨-, rfl⟩
  · exact of_bits rfl rfl
  · exact .refl _

theorem insertFront (front : List Instruction) : (Content.insertFront front).Keeps base.Grows := by
  refine keeps fun c d hd => ?_
  rcases insertFront_leaves hd with ⟨rfl, -⟩ | rfl
  · exact of_bits rfl rfl
  · exact .refl _

theorem setPhase (phase : Angle) : (Content.setPhase phase).Keeps base.Grows := by
  refine keeps fun c d hd => ?_
  rcases setPhase_leaves hd with rfl | rfl <;> exact of_bits rfl rfl

/-- Every call on a store lets it grow. -/
theorem call (k : Content.Call) : k.run.Keeps base.Grows := by
  cases k with
  | addBit _ bit => exact (addBit bit).bind fun _ => .pure ()
  | addRegister _ r => exact addRegister r
  | addIdentifier i kind => exact addIdentifier i kind
  | push i => exact push i
  | insertFront front => exact insertFront front
  | pop =>
    refine keeps fun c d hd => ?_
    rcases Call.leaves_pop hd with rfl | ⟨i, hp⟩
    · exact .refl _
    · -- to take a record away leaves the bits as they are
      obtain ⟨-, rfl⟩ := pop?_eq_some_iff.1 hp
      exact of_bits rfl rfl
  | clear => exact .modify fun c hc => hc.trans (of_bits rfl rfl)
  | setPhase phase => exact setPhase phase
  | setDuration t => exact .modify fun c hc => hc.trans (of_bits rfl rfl)
  | listParameters =>
    refine keeps fun c d hd => ?_
    obtain rfl := Call.leaves_listParameters_iff.1 hd
    exact of_bits rfl rfl
  | copyEmpty mode => exact .modify fun c hc => hc.trans (of_bits rfl rfl)
  | assign s strict =>
    refine keeps fun c d hd => ?_
    rcases assignParameters_leaves hd with h | rfl
    · obtain ⟨hqubits, hclbits, -⟩ := assign_frame h
      exact of_bits hqubits hclbits
    · exact .refl _

end Grows

theorem exact_invariant : Invariant .any Exact := by
  -- a store that grows out of an exact one is exact
  have hgrows : ∀ {α : Type} {edit : Edit Content α},
      (∀ base : Content, edit.Keeps base.Grows) → edit.Keeps Exact :=
    fun h c d hc hd => (h c c d (.refl c) hd).exact hc
  have hsame : ∀ {c d : Content}, c.Exact → d.qubits = c.qubits → d.clbits = c.clbits → d.Exact :=
    fun hc hqubits hclbits => (Grows.of_bits hqubits hclbits).exact hc
  exact {
    empty := ⟨BitList.exact_empty, BitList.exact_empty⟩
    addBit := fun bit => hgrows fun _ => Grows.addBit bit
    addRegister := fun r => hgrows fun _ => Grows.addRegister r
    addIdentifier := fun i kind => hgrows fun _ => Grows.addIdentifier i kind
    snoc := fun c i hc _ => hsame hc rfl rfl
    front := fun c front hc _ _ => hsame hc rfl rfl
    pop := fun c i d hc hd => by
      obtain ⟨-, rfl⟩ := pop?_eq_some_iff.1 hd
      exact hsame hc rfl rfl
    clear := fun c hc => hsame hc rfl rfl
    setPhase := fun phase => hgrows fun _ => Grows.setPhase phase
    setDuration := fun t c hc => hsame hc rfl rfl
    listParameters := hgrows fun _ => Grows.keeps fun c d hd => by
      obtain rfl := listParameters_leaves_iff.1 hd
      exact Grows.of_bits rfl rfl
    copyEmpty := fun c mode hc => hsame hc rfl rfl
    assign := fun c s d hc _ hd => hsame hc (assign_frame hd).1 (assign_frame hd).2.1 }

/-- Built stores have exact bit lists. -/
theorem Built.exact {A : Policy} (h : c.Built A) : c.Exact :=
  (h.everywhere_any exact_invariant).here

/-! ## Handles and positions -/

/-- Resolved handles are at the positions that come out. -/
theorem resolveAll_eq_ok {k : BitKind} {operation : Option String} {bits : List (Bit k)}
    {positions : List Nat} (h : c.resolveAll operation bits = .ok positions) :
    bits.map (c.bits k).indexOf? = positions.map some := by
  induction bits generalizing positions with
  | nil =>
    cases h
    rfl
  | cons bit rest ih =>
    obtain ⟨position, hfirst, h⟩ := Checking.bind_eq_ok_iff.1 h
    obtain ⟨others, hothers, h⟩ := Checking.bind_eq_ok_iff.1 h
    cases h
    have hindex : (c.bits k).indexOf? bit = some position := by
      unfold BitList.resolve at hfirst
      cases hbit : (c.bits k).indexOf? bit with
      | none => simp [hbit] at hfirst
      | some found =>
        simp only [hbit] at hfirst
        cases hfirst
        rfl
    rw [List.map_cons, List.map_cons, hindex, ih hothers]

/-- What is resolved stands at the positions that come out, and nothing else does. -/
theorem Exact.resolveAll_iff (h : c.Exact) {operation : Option String} {bits : List Clbit}
    {positions : List Nat} (hpositions : c.resolveAll operation bits = .ok positions) :
    (∀ bit ∈ bits, bit ∈ c.clbits.bits) ∧
      ∀ n, n ∈ positions ↔ ∃ bit ∈ bits, c.clbits.get? n = some bit := by
  have hall := resolveAll_eq_ok hpositions
  have hindex : ∀ n, n ∈ positions ↔ ∃ bit ∈ bits, c.clbits.indexOf? bit = some n := by
    intro n
    have hmem : some n ∈ positions.map some ↔ n ∈ positions := by simp
    rw [← hmem, ← hall, List.mem_map]
    rfl
  refine ⟨fun bit hbit => ?_, fun n => ?_⟩
  · have hmem : c.clbits.indexOf? bit ∈ positions.map some := hall ▸ List.mem_map_of_mem hbit
    obtain ⟨n, -, hn⟩ := List.mem_map.1 hmem
    exact List.mem_of_getElem? (h.clbits.indexOf?_eq_some_iff.1 hn.symm)
  · rw [hindex n]
    exact exists_congr fun bit => and_congr_right fun _ => h.clbits.indexOf?_eq_some_iff

end Content

end QuantumCircuit
