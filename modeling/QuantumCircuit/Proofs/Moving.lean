import QuantumCircuit.Proofs.Leaves
import QuantumCircuit.Proofs.Renamed
import Mathlib.Data.List.Nodup
import Mathlib.Data.List.Perm.Subperm

/-!
# Records on their way into another circuit

What the records of a splice look like, given those of the source. Each has as many
operands as before and no parameter that it did not have; what it names are images
of what it named (`LeafMap.records_carries`). On the way aliases are made for the
registers that nothing stands for; their names are free and all different, because
a fresh name is never taken (`NameSequence.fresh_not_mem`).
-/

namespace QuantumCircuit

/-! ## Fresh names -/

namespace NameSequence

theorem nameAt_injective (s : NameSequence) : Function.Injective s.nameAt := by
  intro m n h
  have hdigits : Nat.toDigits 10 m = Nat.toDigits 10 n := by
    have hrepr := congrArg String.toList ((String.append_right_inj s.stem).1 h)
    rwa [Nat.toString_eq_repr, Nat.toString_eq_repr, Nat.toList_repr, Nat.toList_repr] at hrepr
  rw [← Nat.ofDigitChars_ten_toDigits (n := m), hdigits, Nat.ofDigitChars_ten_toDigits]

/-- If the search ends at a taken name, it has met taken names only. -/
theorem mem_of_firstFree_mem {s : NameSequence} {taken : List String} {tries n : Nat}
    (h : s.nameAt (s.firstFree taken tries n) ∈ taken) :
    ∀ k ≤ tries, s.nameAt (n + k) ∈ taken := by
  induction tries generalizing n with
  | zero =>
    intro k hk
    obtain rfl : k = 0 := Nat.le_zero.1 hk
    exact h
  | succ tries ih =>
    unfold firstFree at h
    split at h
    · rename_i hn
      intro k hk
      cases k with
      | zero => exact hn
      | succ k =>
        rw [show n + (k + 1) = n + 1 + k by omega]
        exact ih h k (by omega)
    · rename_i hn
      exact absurd h hn

/-- A fresh name is not taken: more names are tried than are taken. -/
theorem fresh_not_mem (s : NameSequence) (taken : List String) : (s.fresh taken).1 ∉ taken := by
  intro hmem
  have hall : ∀ k ≤ taken.length, s.nameAt (s.next + k) ∈ taken := mem_of_firstFree_mem hmem
  have hinjective : Function.Injective fun k => s.nameAt (s.next + k) := fun a b hab => by
    have heq := s.nameAt_injective hab
    omega
  have hnodup : ((List.range (taken.length + 1)).map fun k => s.nameAt (s.next + k)).Nodup :=
    (List.nodup_map_iff hinjective).2 List.nodup_range
  have hsubset : ((List.range (taken.length + 1)).map fun k => s.nameAt (s.next + k)) ⊆ taken := by
    intro name hname
    obtain ⟨k, hk, rfl⟩ := List.mem_map.1 hname
    exact hall k (by have := List.mem_range.1 hk; omega)
  have hlength := (hnodup.subperm hsubset).length_le
  simp only [List.length_map, List.length_range] at hlength
  omega

end NameSequence

/-! ## Registers chosen on the way -/

namespace LeafMap

variable {m : LeafMap} {taken : List String} {s : RegisterChoice}

/-- The registers chosen are there or made for the purpose; those made have names of
their own that were not taken, over bits of the destination. -/
structure Chosen (m : LeafMap) (taken : List String) (s : RegisterChoice) : Prop where
  chosen : ∀ e ∈ s.chosen, e.2 ∈ m.registers ++ s.aliases
  names : (s.aliases.map (·.name)).Nodup
  fresh : ∀ r ∈ s.aliases, r.name ∉ taken
  noted : s.taken = taken ++ s.aliases.map (·.name)
  bits : ∀ r ∈ s.aliases, ∀ bit ∈ r.bits, bit ∈ m.clbits.map (·.2)

/-- What moved operations may name: images of the identifiers in `S` and of clbits,
and the registers that stand for others so far. -/
def destination (m : LeafMap) (S : Identifier → Prop) (s : RegisterChoice) : Surroundings where
  identifiers i := ∃ j, S j ∧ i = m.identifiers.apply j
  clbits bit := bit ∈ m.clbits.map (·.2)
  registers r := r ∈ m.registers ++ s.aliases

/-- More aliases, and nothing else, make for more that may be named. -/
theorem destination_within {S : Identifier → Prop} {s' : RegisterChoice}
    (h : s.aliases <+: s'.aliases) : (m.destination S s).Within (m.destination S s') := by
  refine ⟨fun _ hi => hi, fun _ hb => hb, fun r hr => ?_⟩
  exact (List.prefix_append_right_inj m.registers |>.2 h).subset hr

theorem mem_of_clbit_eq_ok {bit image : Clbit} (h : m.clbit bit = .ok image) :
    (bit, image) ∈ m.clbits := by
  unfold clbit at h
  cases hfind : Assoc.find? bit m.clbits with
  | none => simp [hfind] at h
  | some found =>
    simp only [hfind, Except.ok.injEq] at h
    exact h ▸ Assoc.mem_of_find? hfind

theorem clbit_eq_ok {bit image : Clbit} (h : m.clbit bit = .ok image) :
    image ∈ m.clbits.map (·.2) := List.mem_map_of_mem (f := Prod.snd) (mem_of_clbit_eq_ok h)

theorem bits_ofBits {name : String} {bits : List Clbit} {r : ClassicalRegister}
    (h : Register.ofBits name bits = .ok r) : r.name = name ∧ r.bits = bits := by
  unfold Register.ofBits at h
  split at h <;> cases h
  exact ⟨rfl, rfl⟩

/-- How the register that stands for `r` is come by. It was chosen before, for a register with
the same bits; or a register over the mapped bits is there; or an alias over them is made. -/
inductive Chooses (m : LeafMap) (r : ClassicalRegister) (s : RegisterChoice) :
    ClassicalRegister → RegisterChoice → Prop
  | before {found : ClassicalRegister × ClassicalRegister} : found ∈ s.chosen →
      r.bits = found.1.bits → Chooses m r s found.2 s
  | there {bits : List Clbit} {image : ClassicalRegister} : r.bits.mapM m.clbit = .ok bits →
      (m.registers ++ s.aliases).find? (·.bits == bits) = some image →
      Chooses m r s image { s with chosen := s.chosen ++ [(r, image)] }
  | made {bits : List Clbit} {image : ClassicalRegister} : r.bits.mapM m.clbit = .ok bits →
      (m.registers ++ s.aliases).find? (·.bits == bits) = none → image.bits = bits →
      image.name ∉ s.taken → Chooses m r s image
        ⟨s.chosen ++ [(r, image)], s.aliases ++ [image], (s.names.fresh s.taken).2,
          s.taken ++ [image.name]⟩

theorem register_chooses {r image : ClassicalRegister} {s' : RegisterChoice}
    (h : m.register r s = .ok image s') : Chooses m r s image s' := by
  rw [register, Edit.get_bind_apply] at h
  cases hfind : s.chosen.find? (·.1 == r) with
  | some found =>
    simp only [hfind] at h
    cases h
    have hequal : (found.1 == r) = true := by simpa using List.find?_some hfind
    exact .before (List.mem_of_find?_eq_some hfind) ((Register.beq_iff _ _).1 hequal).2.symm
  | none =>
    simp only [hfind] at h
    obtain ⟨bits, hall, h⟩ := Edit.ofExcept_bind_eq_ok_iff.1 h
    cases hequal : (m.registers ++ s.aliases).find? (·.bits == bits) with
    | some found =>
      simp only [hequal] at h
      cases h
      exact .there hall hequal
    | none =>
      simp only [hequal] at h
      obtain ⟨made, hregister, h⟩ := Edit.ofExcept_bind_eq_ok_iff.1 h
      cases h
      obtain ⟨hname, hsame⟩ := bits_ofBits hregister
      rw [← hname]
      exact .made hall hequal hsame (hname ▸ s.names.fresh_not_mem s.taken)

/-- One more alias, under a name that is not taken and over bits of the destination. -/
theorem Chosen.made (hs : Chosen m taken s) {r image : ClassicalRegister} {names : NameSequence}
    (hname : image.name ∉ s.taken) (hbits : ∀ bit ∈ image.bits, bit ∈ m.clbits.map (·.2)) :
    Chosen m taken
      ⟨s.chosen ++ [(r, image)], s.aliases ++ [image], names, s.taken ++ [image.name]⟩ := by
  rw [hs.noted, List.mem_append, not_or] at hname
  refine ⟨fun e he => ?_, ?_, ?_, ?_, ?_⟩
  · rw [← List.append_assoc]
    rcases List.mem_append.1 he with he | he
    · exact List.mem_append_left _ (hs.chosen e he)
    · rw [List.mem_singleton.1 he]
      exact List.mem_append_right _ (List.mem_singleton.2 rfl)
  · show ((s.aliases ++ [image]).map _).Nodup
    rw [List.map_append, List.nodup_append]
    refine ⟨hs.names, by simp, fun a ha b hb => ?_⟩
    rw [List.map_singleton, List.mem_singleton] at hb
    exact fun heq => hname.2 (hb ▸ heq ▸ ha)
  · exact List.forall_mem_append.2 ⟨hs.fresh, List.forall_mem_singleton.2 hname.1⟩
  · show s.taken ++ _ = _
    rw [List.map_append, List.map_singleton, ← List.append_assoc, ← hs.noted]
  · exact List.forall_mem_append.2 ⟨hs.bits, List.forall_mem_singleton.2 hbits⟩

/-- Looking for the register that stands for `r` keeps the choice sound, and what is
found is there or made. -/
theorem register_carries (S : Identifier → Prop) (r : ClassicalRegister) :
    Carries (Chosen m taken) (m.destination S) (fun image U => U.registers image)
      (m.register r) := by
  intro s image s' hs h
  cases register_chooses h with
  | before hfound _ => exact ⟨hs, .refl _, hs.chosen _ hfound⟩
  | there _ hequal =>
    have hmem := List.mem_of_find?_eq_some hequal
    refine ⟨⟨fun e he => ?_, hs.names, hs.fresh, hs.noted, hs.bits⟩, .refl _, hmem⟩
    rcases List.mem_append.1 he with he | he
    · exact hs.chosen e he
    · rw [List.mem_singleton.1 he]
      exact hmem
  | made hall _ hbits hname =>
    have hmapped : ∀ bit ∈ image.bits, bit ∈ m.clbits.map (·.2) := fun bit hbit =>
      let ⟨_, _, hone⟩ := Checking.exists_left (Checking.mapM_eq_ok_iff.1 hall) (hbits ▸ hbit)
      clbit_eq_ok hone
    exact ⟨hs.made hname hmapped, destination_within (List.prefix_append _ _),
      List.mem_append_right _ (List.mem_append_right _ (List.mem_singleton.2 rfl))⟩

/-! ## Leaves and operations -/

/-- That the renaming sends no variable to a stretch and no stretch to a variable. -/
def KeepsSorts (r : Renaming) : Prop := ∀ i j, Assoc.find? i r = some j → j.sort = i.sort

theorem leaf?_ofIdentifier {r : Renaming} (h : KeepsSorts r) (i : Identifier) :
    (r.leaf? (.ofIdentifier i)).getD (.ofIdentifier i) = .ofIdentifier (r.apply i) := by
  unfold Renaming.apply
  cases hfind : Assoc.find? i r with
  | none => cases i <;> simp [Renaming.leaf?, Expr.ofIdentifier, hfind]
  | some j =>
    have hsort := h i j hfind
    cases i with
    | var v =>
      cases j with
      | var w => by_cases heq : w = v <;> simp [Renaming.leaf?, Expr.ofIdentifier, hfind, heq]
      | stretch t => cases hsort
    | stretch v =>
      cases j with
      | var w => cases hsort
      | stretch t => by_cases heq : t = v <;> simp [Renaming.leaf?, Expr.ofIdentifier, hfind, heq]

theorem replacesLeaves {S : Identifier → Prop} (h : KeepsSorts m.identifiers) :
    ReplacesLeaves (Chosen m taken) S (m.destination S) m.leaf where
  identifier i hi := by
    have hleaf : m.leaf (.ofIdentifier i) = pure (m.identifiers.leaf? (.ofIdentifier i)) := by
      cases i <;> rfl
    rw [hleaf]
    exact .answer fun s => ⟨_, ⟨i, hi, rfl⟩, leaf?_ofIdentifier h i⟩
  clbit bit := by
    refine .ofExcept_bind fun image himage => ?_
    exact .answer fun s => ⟨image, clbit_eq_ok himage, rfl⟩
  register r := by
    intro s o s' hs heq
    obtain ⟨image, u, himage, heq⟩ := Edit.bind_eq_ok_iff.1 heq
    cases heq
    obtain ⟨hu, hwithin, hmem⟩ := register_carries S r s image _ hs himage
    exact ⟨hu, hwithin, image, hmem, rfl⟩
  value v t := .pure fun _ => rfl

/-- The operation as it arrives: as wide as before, with no new parameter, naming only
what `U` holds. -/
structure Arrives (op op' : Operation) (U : Surroundings) : Prop where
  numQubits : op'.numQubits = op.numQubits
  numClbits : op'.numClbits = op.numClbits
  parameters : ∀ u ∈ op'.freeParameters, u ∈ op.freeParameters
  reads : op'.ReadsOnly U

theorem Arrives.within {op op' : Operation} {U V : Surroundings} (h : Arrives op op' U)
    (hUV : U.Within V) : Arrives op op' V :=
  ⟨h.numQubits, h.numClbits, h.parameters, h.reads.within hUV⟩

theorem apply_of_not_changesAny {r : Renaming} (h : r.changesAny = false) (i : Identifier) :
    r.apply i = i := by
  unfold Renaming.apply
  cases hfind : Assoc.find? i r with
  | none => rfl
  | some j =>
    unfold Renaming.changesAny at h
    have hsame : i = j := by simpa using List.any_eq_false.1 h _ (Assoc.mem_of_find? hfind)
    exact hsame.symm

/-- What moving does to a body: it is renamed, or stays if nothing is to be renamed. -/
def Body (r : Renaming) (b b' : Circuit) : Prop :=
  (r.changesAny = false ∧ b' = b) ∨ b.rename r = .ok b'

section Body

variable {r : Renaming} {b b' : Circuit}

theorem Body.width (h : Body r b b') : b'.numQubits = b.numQubits ∧ b'.numClbits = b.numClbits := by
  rcases h with ⟨-, rfl⟩ | h
  · exact ⟨rfl, rfl⟩
  · obtain ⟨hq, hc, -⟩ := Circuit.rename_eq_ok h
    exact ⟨congrArg BitList.size hq, congrArg BitList.size hc⟩

theorem Body.parameters {A : Policy} (h : Body r b b') (hb : b.content.Built A) :
    ∀ p ∈ b'.parameters, p ∈ b.parameters := by
  rcases h with ⟨-, rfl⟩ | h
  · exact fun p hp => hp
  · exact Circuit.parameters_rename hb h

theorem mem_ofKind_iff {t : IdentifierTable} {i : Identifier} {kind : IdentifierKind} :
    i ∈ t.ofKind kind ↔ (i, kind) ∈ t.toList := by
  simp [IdentifierTable.ofKind]

/-- What the moved body captures are images of what it captured. -/
theorem Body.captures (h : Body r b b') {i : Identifier}
    (hi : i ∈ b'.content.identifiers.ofKind .capture) :
    ∃ j ∈ b.content.identifiers.ofKind .capture, i = r.apply j := by
  rcases h with ⟨hsame, rfl⟩ | h
  · exact ⟨i, hi, (apply_of_not_changesAny hsame i).symm⟩
  · obtain ⟨-, -, -, hlist, -⟩ := Circuit.rename_eq_ok h
    rw [mem_ofKind_iff, hlist, List.mem_map] at hi
    obtain ⟨⟨j, kind⟩, hj, heq⟩ := hi
    cases heq
    exact ⟨j, mem_ofKind_iff.2 hj, rfl⟩

end Body

/-- Moved control flow: its leaves replaced, then its bodies moved. -/
theorem control_eq_ok {flow : ControlFlow} {op' : Operation} {s s' : RegisterChoice}
    (h : m.operation (.control flow) s = .ok op' s') :
    ∃ mapped flow', flow.mapLeaves m.leaf s = .ok mapped s' ∧ op' = .control flow' ∧
      flow.Refitted (Body m.identifiers) flow' ∧ flow'.ownIdentifiers = mapped.ownIdentifiers ∧
      flow'.classicalUse = mapped.classicalUse := by
  obtain ⟨mapped, u, hmapped, h⟩ := Edit.bind_eq_ok_iff.1 h
  have halike := ControlFlow.mapLeaves_answers hmapped
  split at h
  · obtain ⟨bodies, hrename, h⟩ := Edit.ofExcept_bind_eq_ok_iff.1 h
    obtain ⟨flow', hreplace, h⟩ := Edit.ofExcept_bind_eq_ok_iff.1 h
    cases h
    refine ⟨mapped, flow', hmapped, rfl, ?_, ?_⟩
    · exact ControlFlow.refitted_of_replaceBodies halike hreplace
        ((ControlFlow.renameBodies_eq_ok hrename).imp fun _ _ hb => .inr hb)
    · rcases ControlFlow.eq_withBodies_of_replaceBodies hreplace with rfl | rfl
      · exact ⟨ControlFlow.ownIdentifiers_withBodies _, ControlFlow.classicalUse_withBodies _⟩
      · exact ⟨rfl, rfl⟩
  · rename_i hsame
    cases h
    refine ⟨mapped, mapped, hmapped, rfl, halike.refitted fun b _ => .inl ⟨?_, rfl⟩, rfl, rfl⟩
    simpa using hsame

/-- Moving an operation carries. -/
theorem operation_carries {A : Policy} {S : Identifier → Prop} (hm : KeepsSorts m.identifiers)
    {op : Operation} (hbuilt : ∀ e ∈ op.circuits, Content.Built A e.content)
    (hop : ∀ i ∈ op.identifiers, S i) :
    Carries (Chosen m taken) (m.destination S) (fun op' U => Arrives op op' U)
      (m.operation op) := by
  have hleaves : ReplacesLeaves (Chosen m taken) S (m.destination S) m.leaf := replacesLeaves hm
  cases op with
  | store a =>
    refine (Store.mapLeaves_carries hleaves hop).bind (fun _ _ _ hUV h => h.within hUV) fun a' => ?_
    exact .pure fun U ha' => ⟨rfl, rfl, fun u hu => hu, ha'⟩
  | delay d =>
    refine (Duration.mapLeaves_carries hleaves hop).bind (fun _ _ _ hUV h => h.within hUV)
      fun d' => ?_
    exact .pure fun U hd' => ⟨rfl, rfl, fun u hu => hu, hd'⟩
  | control flow =>
    intro s op' s' hs h
    obtain ⟨mapped, flow', hmapped, rfl, hrefitted, hown, huse⟩ := control_eq_ok h
    have hflow : ∀ i ∈ flow.ownIdentifiers, S i := fun i hi =>
      hop i ((Distinct.mem_union i _ _).2 (.inl hi))
    obtain ⟨hs', hwithin, hcover⟩ :=
      ControlFlow.mapLeaves_carries hleaves hflow s mapped s' hs hmapped
    -- the bodies were refitted, which keeps widths and renames captures only
    obtain ⟨hqubits, hclbits⟩ := ControlFlow.width_congr hrefitted.jumpWidth hrefitted.bodies
      fun _ _ hb => hb.width
    refine ⟨hs', hwithin, hqubits, hclbits, ?_, ?_⟩
    · exact hrefitted.freeParameters fun b hb b' hbody => hbody.parameters (hbuilt b hb)
    · rw [← huse] at hcover
      refine ⟨fun i hi => ?_, hcover.clbits, hcover.registers⟩
      rcases (Distinct.mem_union i _ _).1 hi with hi | hi
      · exact hcover.identifiers i (hown ▸ hi)
      · obtain ⟨b', hb', hi⟩ := List.mem_flatMap.1 hi
        obtain ⟨b, hb, hbody⟩ := Checking.exists_left hrefitted.bodies hb'
        obtain ⟨j, hj, rfl⟩ := hbody.captures hi
        refine ⟨j, hop j ((Distinct.mem_union j _ _).2 (.inr ?_)), rfl⟩
        exact List.mem_flatMap.2 ⟨b, hb, hj⟩
  | gate g | custom o | measure | reset | barrier w =>
    exact .pure fun U => ⟨rfl, rfl, fun u hu => hu, U.cover_nil⟩

/-- The record as it arrives on the positions of the placement. -/
structure ArrivesAt (p : Placement) (i i' : Instruction) (U : Surroundings) : Prop where
  operation : Arrives i.operation i'.operation U
  qubits : i'.qubits = i.qubits.map fun q => p.qubits.getD q q
  clbits : i'.clbits = i.clbits.map fun b => p.clbits.getD b b

/-- Moving the records of a store carries. -/
theorem records_carries {A : Policy} {S : Identifier → Prop} (hm : KeepsSorts m.identifiers)
    (p : Placement) {records : List Instruction}
    (hbuilt : ∀ i ∈ records, i.OfBuilt A)
    (hreads : ∀ i ∈ records, ∀ j ∈ i.operation.identifiers, S j) :
    Carries (Chosen m taken) (m.destination S)
      (fun moved U => List.Forall₂ (fun i i' => ArrivesAt p i i' U) records moved)
      (m.records p records) := by
  induction records with
  | nil => exact .pure fun _ => .nil
  | cons i rest ih =>
    obtain ⟨hi, hrest⟩ := List.forall_mem_cons.1 hbuilt
    obtain ⟨hreads, hreadsRest⟩ := List.forall_mem_cons.1 hreads
    refine (operation_carries hm hi hreads).bind (fun _ _ _ hUV h => h.within hUV) fun op => ?_
    refine (ih hrest hreadsRest).bind (fun _ _ _ hUV h => h.imp fun _ _ harrives =>
      ⟨harrives.operation.within hUV, harrives.qubits, harrives.clbits⟩) fun moved => ?_
    exact .pure fun U hmoved hop => .cons ⟨hop, rfl, rfl⟩ hmoved

end LeafMap

end QuantumCircuit
