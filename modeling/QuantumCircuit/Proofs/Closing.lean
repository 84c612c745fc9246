import QuantumCircuit.Circuit.Builder
import QuantumCircuit.Proofs.Bodies
import QuantumCircuit.Proofs.Scoping
import QuantumCircuit.Proofs.Sparing

/-!
# Closing blocks

A closed block captures what the footprint of the whole operation and its own span
capture, its locals left out (`Block.captured`, `Block.captures_of_close`). The span of a
block holds what the blocks that wait in it capture, at every depth
(`Block.mem_span_captures`): also what only some block in between declares.

That the names of what a block captures and declares are all different is what closing it
asks for. It is so for every block in a closed one (`Block.names_of_close`), and where it
is so, closing spares identifiers (`Block.close_sparing`).
-/

namespace QuantumCircuit

variable {i : Identifier}

/-! ## Spans -/

section Spans

variable {P : Footprint → Prop}

/-- What a union of footprints has just if one of the two has it. -/
structure Footprint.Splits (P : Footprint → Prop) : Prop where
  union : ∀ a b, P (a.union b) ↔ P a ∨ P b
  empty : ¬ P .empty

namespace Footprint

theorem splits_captures (i : Identifier) : Splits (i ∈ ·.captures) :=
  ⟨fun _ _ => Distinct.mem_union i _ _, List.not_mem_nil⟩

/-- Registers that are equal have one name. -/
theorem splits_registers (name : String) : Splits (name ∈ ·.registers.map (·.name)) := by
  refine ⟨fun a b => ?_, List.not_mem_nil⟩
  show name ∈ (Distinct.union a.registers b.registers).map (·.name) ↔ _
  generalize a.registers = rs
  generalize b.registers = new
  induction new generalizing rs with
  | nil => simp [Distinct.union]
  | cons r rest ih =>
    rw [Distinct.union, List.foldl_cons]
    refine (ih _).trans ?_
    rw [List.map_cons, List.mem_cons, ← or_assoc]
    refine or_congr ?_ Iff.rfl
    unfold Distinct.insert
    split
    · rename_i hr
      rw [List.contains_eq_any_beq, List.any_eq_true] at hr
      obtain ⟨q, hq, heq⟩ := hr
      obtain ⟨hsame, -⟩ := (Register.beq_iff r q).1 heq
      refine (or_iff_left_of_imp fun hname => ?_).symm
      exact List.mem_map.2 ⟨q, hq, hsame.symm.trans hname.symm⟩
    · simp

end Footprint

theorem BlockArm.spanList_iff (hP : Footprint.Splits P) {arms : List BlockArm}
    {acc : Footprint} :
    P (spanList acc arms) ↔ P acc ∨ ∃ t ∈ arms.map (·.block), P t.span := by
  induction arms generalizing acc with
  | nil => simp [spanList]
  | cons arm rest ih =>
    obtain ⟨labels, block⟩ := arm
    rw [spanList, ih, hP.union, or_assoc]
    simp

theorem BlockItem.spanList_iff (hP : Footprint.Splits P) {items : List BlockItem}
    {acc : Footprint} :
    P (spanList acc items) ↔ P acc ∨ ∃ t ∈ items.flatMap (·.blocks), P t.span := by
  induction items generalizing acc with
  | nil => simp [spanList]
  | cons item rest ih =>
    cases item with
    | record r => simp [spanList, ih, blocks]
    | jump j => simp [spanList, ih, blocks]
    | branch condition t f =>
      cases f with
      | none => simp [spanList, ih, blocks, hP.union, or_assoc]
      | some f => simp [spanList, ih, blocks, hP.union, or_assoc]
    | dispatch target arms =>
      simp only [spanList, ih, blocks, hP.union, BlockArm.spanList_iff hP, List.flatMap_cons,
        List.mem_append, or_and_right, exists_or, or_assoc, hP.empty, false_or]

namespace Block

/-- A block touches something itself or by a block that waits in it. -/
theorem span_iff (hP : Footprint.Splits P) {b : Block} :
    P b.span ↔ P b.footprint ∨ ∃ t ∈ b.waiting, P t.span := by
  obtain ⟨footprint, locals, items, ban⟩ := b
  rw [span]
  exact BlockItem.spanList_iff hP

theorem sizeOf_waiting {b t : Block} (ht : t ∈ b.waiting) : sizeOf t < sizeOf b := by
  obtain ⟨footprint, locals, items, ban⟩ := b
  obtain ⟨item, hitem, ht⟩ := List.mem_flatMap.1 ht
  have hitems : sizeOf item < sizeOf items := List.sizeOf_lt_of_mem hitem
  have hblock : sizeOf t < sizeOf item := by
    cases item with
    | record r => cases ht
    | jump j => cases ht
    | branch condition u f =>
      rcases List.mem_cons.1 ht with rfl | ht
      · simp
        omega
      · obtain rfl := Option.mem_toList.1 ht
        simp
        omega
    | dispatch target arms =>
      obtain ⟨arm, harm, rfl⟩ := List.mem_map.1 ht
      have harms := List.sizeOf_lt_of_mem harm
      obtain ⟨labels, block⟩ := arm
      simp at harms ⊢
      omega
  simp
  omega

/-- Induction over the blocks that wait in a block. -/
theorem induction_waiting {P : Block → Prop} (h : ∀ b, (∀ t ∈ b.waiting, P t) → P b) (b : Block) :
    P b :=
  h b fun t _ => induction_waiting h t
termination_by sizeOf b
decreasing_by exact sizeOf_waiting ‹_›

/-- All that a block touches is touched by it or by some block in it. -/
theorem span_iff_inside (hP : Footprint.Splits P) {b : Block} :
    P b.span ↔ ∃ p, b.Inside p ∧ P p.footprint := by
  induction b using induction_waiting with
  | h b ih =>
    rw [span_iff hP]
    constructor
    · rintro (hb | ⟨t, ht, hb⟩)
      · exact ⟨b, .here b, hb⟩
      · obtain ⟨p, hp, hb⟩ := (ih t ht).1 hb
        exact ⟨p, .deeper ht hp, hb⟩
    · rintro ⟨p, hp, hb⟩
      rcases inside_iff.1 hp with rfl | ⟨t, ht, hp⟩
      · exact .inl hb
      · exact .inr ⟨t, ht, (ih t ht).2 ⟨p, hp, hb⟩⟩

theorem mem_span_captures {b : Block} :
    i ∈ b.span.captures ↔
      i ∈ b.footprint.captures ∨ ∃ t ∈ b.waiting, i ∈ t.span.captures :=
  span_iff (Footprint.splits_captures i)

theorem span_captures_subset {b p : Block} (h : b.Inside p) (hi : i ∈ p.span.captures) :
    i ∈ b.span.captures := by
  induction h with
  | here b => exact hi
  | deeper ht _ ih => exact mem_span_captures.2 (.inr ⟨_, ht, ih hi⟩)

/-- A block with records only captures what it captures itself. -/
theorem span_captures_of_waiting_eq_nil {b : Block} (h : b.waiting = []) :
    i ∈ b.span.captures ↔ i ∈ b.footprint.captures := by
  rw [mem_span_captures, h]
  simp

end Block

theorem BlockArm.nodup_spanList {arms : List BlockArm} {acc : Footprint}
    (h : acc.captures.Nodup) : (spanList acc arms).captures.Nodup := by
  induction arms generalizing acc with
  | nil => rwa [spanList]
  | cons arm rest ih =>
    obtain ⟨labels, block⟩ := arm
    exact ih (Distinct.nodup_union _ h)

theorem BlockItem.nodup_spanList {items : List BlockItem} {acc : Footprint}
    (h : acc.captures.Nodup) : (spanList acc items).captures.Nodup := by
  induction items generalizing acc with
  | nil => rwa [spanList]
  | cons item rest ih =>
    cases item with
    | record r => exact ih h
    | jump j => exact ih h
    | branch condition t f => cases f <;> exact ih (Distinct.nodup_union _ h)
    | dispatch target arms => exact ih (Distinct.nodup_union _ h)

theorem Block.nodup_span {b : Block} (h : b.footprint.captures.Nodup) :
    b.span.captures.Nodup := by
  obtain ⟨footprint, locals, items, ban⟩ := b
  exact BlockItem.nodup_spanList h

end Spans

/-! ## The bits, registers and identifiers of a body -/

namespace Content

/-- A body in the making, without identifiers and with some of the registers only. -/
structure Blank (registers : List ClassicalRegister) (c : Content) : Prop where
  identifiers : c.identifiers = .empty
  registers : ∀ r ∈ c.clbits.registers, r ∈ registers

variable {c d root : Content} {registers : List ClassicalRegister} {kind : IdentifierKind}
  {is : List Identifier}

theorem Blank.addBit {k : BitKind} (bit : Bit k) :
    (Content.addBit bit).Keeps (Blank registers) := by
  refine .within fun c u hc hu => ?_
  have hsame := BitList.registers_of_add hu
  cases k with
  | quantum => exact ⟨hc.identifiers, hc.registers⟩
  | classical =>
    refine ⟨hc.identifiers, fun r hr => hc.registers r ?_⟩
    replace hr : r ∈ u.registers := hr
    rwa [hsame] at hr

theorem Blank.addRegister {r : ClassicalRegister} (hr : r ∈ registers) :
    (Content.addRegister r).Keeps (Blank registers) := by
  refine .read fun _ => (Edit.Keeps.ofExcept _).bind fun _ => .within fun c u hc hu => ?_
  refine ⟨hc.identifiers, fun q hq => ?_⟩
  replace hq : q ∈ u.registers := hq
  rcases BitList.registers_of_addRegister hu with hsame | hmore
  · rw [hsame] at hq
    exact hc.registers q hq
  · rw [hmore] at hq
    rcases List.mem_append.1 hq with hq | hq
    · exact hc.registers q hq
    · exact List.mem_singleton.1 hq ▸ hr

theorem sparingAt_importBits (k : BitKind) (positions : List Nat) :
    (Content.importBits root k positions).SparingAt c := by
  induction positions generalizing c with
  | nil => exact Edit.sparingAt_pure _
  | cons position rest ih =>
    unfold Content.importBits
    split
    · rintro e d h
      cases h
      exact id
    · refine (Edit.sparingAt_within (BitList.sparingAt_add _ true)).bind fun _ _ _ => ?_
      exact ih.bind fun _ _ _ => Edit.sparingAt_pure _

theorem sparingAt_addRegister (r : ClassicalRegister) : (Content.addRegister r).SparingAt c := by
  refine Edit.SparingAt.bind (fun _ _ h => nomatch h) fun a u _ => ?_
  refine Edit.SparingAt.bind (Edit.sparingAt_ofExcept ?_) fun _ _ _ => ?_
  · cases a.identifiers.hasName r.name
    · exact sparing_ok ()
    · exact sparing_error id
  · exact Edit.sparingAt_within (BitList.sparingAt_addRegister r)

/-- Identifiers that have come in stand at the end of the list, in order. -/
theorem toList_of_each_addIdentifier (h : Edit.each (addIdentifier · kind) is c = .ok () d) :
    d.identifiers.toList = c.identifiers.toList ++ is.map (·, kind) := by
  induction is generalizing c with
  | nil =>
    cases h
    simp
  | cons i rest ih =>
    obtain ⟨_, u, hu, h⟩ := Edit.bind_eq_ok_iff.1 h
    obtain ⟨hcheck, rfl⟩ := addIdentifier_eq_ok_iff.1 hu
    rw [ih h, IdentifierTable.toList_insert (get?_eq_none_of_checkIdentifier hcheck),
      List.append_assoc]
    rfl

/-- Identifiers under names of their own come in, but for inputs. -/
theorem each_addIdentifier_fresh (hkind : kind ≠ .input) (hinputs : c.identifiers.inputVars = 0)
    (hnodup : (is.map (·.name)).Nodup)
    (hnew : ∀ i ∈ is, c.identifiers.get? i.name = none ∧ c.clbits.register? i.name = none) :
    ∃ d, Edit.each (addIdentifier · kind) is c = .ok () d ∧ d.identifiers.inputVars = 0 ∧
      d.clbits = c.clbits ∧ d.identifiers.names = c.identifiers.names ++ is.map (·.name) := by
  induction is generalizing c with
  | nil => exact ⟨c, rfl, hinputs, rfl, (List.append_nil _).symm⟩
  | cons i rest ih =>
    obtain ⟨hfirst, hnodup⟩ := List.nodup_cons.1 hnodup
    obtain ⟨⟨hnone, hregister⟩, hnew⟩ := List.forall_mem_cons.1 hnew
    have hcheck : c.checkIdentifier i kind = .ok () := by
      simp only [checkIdentifier, hregister, Option.isSome_none, Bool.false_eq_true, if_false,
        IdentifierTable.check, hnone, hinputs]
      cases i <;> cases kind <;> first | rfl | exact absurd rfl hkind
    -- no input is among them, so a circuit that had no input still has none
    have hinputs' : (c.identifiers.insert i kind).inputVars = 0 := by
      rw [← hinputs]
      cases i <;> cases kind <;> first | rfl | exact absurd rfl hkind
    obtain ⟨d, hd, hdinputs, hdclbits, hdnames⟩ := ih
      (c := { c with identifiers := c.identifiers.insert i kind }) hinputs' hnodup fun j hj => by
        refine ⟨?_, (hnew j hj).2⟩
        rw [IdentifierTable.not_mem_names_iff, IdentifierTable.names_insert hnone, List.mem_append,
          List.mem_singleton, not_or]
        refine ⟨IdentifierTable.not_mem_names_iff.1 (hnew j hj).1, fun heq => hfirst ?_⟩
        exact List.mem_map.2 ⟨j, hj, heq⟩
    refine ⟨d, ?_, hdinputs, hdclbits, ?_⟩
    · exact Edit.bind_eq_ok_iff.2 ⟨(), _, addIdentifier_eq_ok_iff.2 ⟨hcheck, rfl⟩, hd⟩
    · rw [hdnames, IdentifierTable.names_insert hnone, List.append_assoc]
      rfl

variable {f : Footprint} {captures : List Identifier} {locals : IdentifierTable}

/-- A prepared body lists the captures that are no locals, then the locals, all under
names of their own. -/
theorem prepareBody_eq_ok {moved : List (Nat × Nat) × List (Nat × Nat)}
    (h : prepareBody root f captures locals .empty = .ok moved d) :
    d.identifiers.toList = (captures.filter fun i => !locals.contains i).map (·, .capture) ++
        (locals.toList.map (·.1)).map (·, .declare) ∧ d.NamesFree := by
  have hstart : Blank f.registers .empty := ⟨rfl, fun _ hr => absurd hr List.not_mem_nil⟩
  have hfree : d.NamesFree := prepareBody_keeps NamesFree.addBit NamesFree.addRegister
    NamesFree.addIdentifier _ d namesFree_invariant.empty (.of_ok h)
  obtain ⟨qubits, u₁, h₁, h⟩ := Edit.bind_eq_ok_iff.1 h
  obtain ⟨clbits, u₂, h₂, h⟩ := Edit.bind_eq_ok_iff.1 h
  obtain ⟨_, u₃, h₃, h⟩ := Edit.bind_eq_ok_iff.1 h
  obtain ⟨_, u₄, h₄, h⟩ := Edit.bind_eq_ok_iff.1 h
  obtain ⟨_, u₅, h₅, h⟩ := Edit.bind_eq_ok_iff.1 h
  cases h
  have hblank₂ := importBits_keeps Blank.addBit _ _ _
    (importBits_keeps Blank.addBit _ _ _ hstart (.of_ok h₁)) (.of_ok h₂)
  have hblank₃ := Edit.Keeps.each (fun r hr => Blank.addRegister hr) _ _ hblank₂ (.of_ok h₃)
  refine ⟨?_, hfree⟩
  rw [toList_of_each_addIdentifier h₅, toList_of_each_addIdentifier h₄, hblank₃.identifiers]
  rfl

/-- Preparing a body spares identifiers if the names are all different and no register's. -/
theorem sparingAt_prepareBody
    (hnodup : (((captures.filter fun i => !locals.contains i) ++
      locals.toList.map (·.1)).map (·.name)).Nodup)
    (hregisters : ∀ i ∈ (captures.filter fun i => !locals.contains i) ++ locals.toList.map (·.1),
      i.name ∉ f.registers.map (·.name)) :
    (prepareBody root f captures locals).SparingAt .empty := by
  have hstart : Blank f.registers .empty := ⟨rfl, fun _ hr => absurd hr List.not_mem_nil⟩
  rw [List.map_append, List.nodup_append] at hnodup
  obtain ⟨hcaptures, hlocals, hapart⟩ := hnodup
  refine (sparingAt_importBits _ _).bind fun _ u₁ h₁ =>
    (sparingAt_importBits _ _).bind fun _ u₂ h₂ => ?_
  have hblank₂ := importBits_keeps Blank.addBit _ _ _
    (importBits_keeps Blank.addBit _ _ _ hstart (.of_ok h₁)) (.of_ok h₂)
  refine Edit.SparingAt.bind ?_ fun _ u₃ h₃ => ?_
  · exact Edit.sparingAt_each (P := fun _ => True) (fun r _ _ _ => sparingAt_addRegister r)
      (fun _ _ _ _ _ _ => trivial) trivial
  have hblank₃ := Edit.Keeps.each (fun r hr => Blank.addRegister hr) _ _ hblank₂ (.of_ok h₃)
  -- up to here the body lists no identifier, so only registers can hold a name
  have hfresh : ∀ i ∈ (captures.filter fun i => !locals.contains i) ++ locals.toList.map (·.1),
      u₃.identifiers.get? i.name = none ∧ u₃.clbits.register? i.name = none := by
    refine fun i hi => ⟨by rw [hblank₃.identifiers]; rfl, ?_⟩
    rw [BitList.register?_eq_none_iff]
    intro hmem
    obtain ⟨r, hr, hname⟩ := List.mem_map.1 hmem
    exact hregisters i hi (hname ▸ List.mem_map_of_mem (hblank₃.registers r hr))
  obtain ⟨u₄, h₄, hinputs₄, hclbits₄, hnames₄⟩ := each_addIdentifier_fresh
    (show IdentifierKind.capture ≠ .input by decide) (by rw [hblank₃.identifiers]; rfl) hcaptures
    fun i hi => hfresh i (List.mem_append_left _ hi)
  -- the locals come after the captures, whose names are not theirs
  obtain ⟨u₅, h₅, -⟩ := each_addIdentifier_fresh
    (show IdentifierKind.declare ≠ .input by decide) hinputs₄ hlocals
    fun i hi => by
      obtain ⟨-, hregister⟩ := hfresh i (List.mem_append_right _ hi)
      refine ⟨IdentifierTable.not_mem_names_iff.2 ?_, hclbits₄ ▸ hregister⟩
      rw [hnames₄, hblank₃.identifiers]
      exact fun hmem => hapart _ hmem _ (List.mem_map_of_mem hi) rfl
  refine Edit.SparingAt.bind (fun e t h => ?_) fun _ v₄ hv₄ => ?_
  · rw [h₄] at h
    cases h
  · rw [h₄] at hv₄
    cases hv₄
    refine Edit.SparingAt.bind (fun e t h => ?_) fun _ v₅ _ => Edit.sparingAt_pure _
    rw [h₅] at h
    cases h

end Content

/-! ## The records of a body -/

section Records

variable {root c d : Content} {f : Footprint} {qubits clbits : List (Nat × Nat)}
  {items : List BlockItem}

theorem Content.identifiers_of_pushLocal {r : Instruction}
    (h : pushLocal r qubits clbits c = .ok () d) : d.identifiers = c.identifiers := by
  obtain ⟨r', -, h⟩ := Edit.ofExcept_bind_eq_ok_iff.1 h
  obtain ⟨-, h⟩ := Checking.seq_eq_ok_iff.1 (Edit.update_eq_ok_iff.1 h)
  cases h
  rfl

theorem Content.sparingAt_pushLocal {r : Instruction}
    (h : ∀ j ∈ r.operation.identifiers, c.identifiers.contains j) :
    (pushLocal r qubits clbits).SparingAt c := by
  have hrelocate : ∀ (k : BitKind) (moved : List (Nat × Nat)) (position : Nat),
      Sparing (relocate k r.name moved position) := by
    intro k moved position
    unfold relocate
    split
    · exact sparing_ok _
    · exact sparing_error id
  refine Edit.SparingAt.bind (Edit.sparingAt_ofExcept ?_) fun r' u hu => ?_
  · refine (sparing_mapM fun _ _ => hrelocate _ _ _).bind fun _ _ => ?_
    exact (sparing_mapM fun _ _ => hrelocate _ _ _).bind fun _ _ => sparing_ok _
  · obtain ⟨hr', rfl⟩ := Edit.ofExcept_eq_ok_iff.1 hu
    obtain ⟨qs, -, hr'⟩ := Checking.bind_eq_ok_iff.1 hr'
    obtain ⟨cs, -, hr'⟩ := Checking.bind_eq_ok_iff.1 hr'
    cases hr'
    exact sparingAt_push h

/-- A closed block is a prepared body with the records of the block in it. -/
theorem Block.close_eq_ok {b : Block} {role : BodyRole} {body : Circuit}
    (h : b.close root f role = .ok body) :
    ∃ moved c d, Content.prepareBody root f (Distinct.union f.captures b.span.captures) b.locals
        .empty = .ok moved c ∧
      BlockItem.closeList root f moved.1 moved.2 b.items c = .ok () d ∧
      body = ⟨role.name, d, []⟩ := by
  obtain ⟨footprint, locals, items, ban⟩ := b
  obtain ⟨d, hd, h⟩ := Checking.bind_eq_ok_iff.1 h
  cases h
  obtain ⟨moved, c, hc, hd⟩ := Edit.bind_eq_ok_iff.1 (Edit.finalState_eq_ok_iff.1 hd)
  exact ⟨moved, c, d, hc, hd, rfl⟩

theorem BlockArm.close_of_closeList {arms : List BlockArm} {closed : List SwitchArm}
    (h : closeList root f arms = .ok closed) :
    List.Forall₂ (fun a closed => a.block.close root f .caseBody = .ok closed.body)
      arms closed := by
  induction arms generalizing closed with
  | nil =>
    cases h
    exact .nil
  | cons arm rest ih =>
    obtain ⟨labels, block⟩ := arm
    obtain ⟨body, hbody, h⟩ := Checking.bind_eq_ok_iff.1 h
    obtain ⟨others, hothers, h⟩ := Checking.bind_eq_ok_iff.1 h
    cases h
    exact .cons hbody (ih hothers)

namespace BlockItem

variable {item : BlockItem} {r : Instruction}

/-- The record that an item becomes when the blocks around it close over the bits in `f`.
Whatever waited for that spans all of them. -/
def toRecord (root : Content) (f : Footprint) : BlockItem → Except CircuitError Instruction
  | record r => .ok r
  | jump j => .ok (.make (.control (.jump j f.qubits.length f.clbits.length)) f.qubits f.clbits)
  | branch condition t e => do
    let trueBody ← t.close root f .ifBody
    let falseBody ← Block.closeOption root f .elseBody e
    let flow ← ControlFlow.makeIfElse condition trueBody falseBody
    return .make (.control flow) f.qubits f.clbits
  | dispatch target arms => do
    let closed ← BlockArm.closeList root f arms
    let flow ← ControlFlow.makeSwitch target closed
    return .make (.control flow) f.qubits f.clbits

/-- Items become records one after another. -/
theorem closeList_cons : closeList root f qubits clbits (item :: items) = (do
    let r ← Edit.ofExcept (item.toRecord root f)
    Content.pushLocal r qubits clbits
    closeList root f qubits clbits items) := by
  cases item with
  | record r | jump j => rfl
  | branch condition t e =>
    cases e with
    | none =>
      simp only [closeList, toRecord, Block.closeOption, Edit.ofExcept_bind, bind_assoc]
      rfl
    | some e =>
      simp only [closeList, toRecord, Block.closeOption, Edit.ofExcept_bind, bind_assoc]
      rfl
  | dispatch target arms =>
    simp only [closeList, toRecord, Edit.ofExcept_bind, bind_assoc]
    rfl

/-- Unless it was a record before, an item becomes control flow over all bits in `f`, which
reads what the item needs and has its blocks, closed, for bodies. -/
theorem toRecord_eq_ok (h : item.toRecord root f = .ok r) : item = .record r ∨
    ∃ flow, r = .make (.control flow) f.qubits f.clbits ∧ flow.ownIdentifiers = item.identifiers ∧
      List.Forall₂ (fun t body => ∃ role, t.close root f role = .ok body) item.blocks
        flow.bodies := by
  cases item with
  | record r =>
    cases h
    exact .inl rfl
  | jump j =>
    cases h
    exact .inr ⟨_, rfl, rfl, .nil⟩
  | branch condition t e =>
    obtain ⟨trueBody, ht, h⟩ := Checking.bind_eq_ok_iff.1 h
    obtain ⟨falseBody, he, h⟩ := Checking.bind_eq_ok_iff.1 h
    obtain ⟨flow, hflow, h⟩ := Checking.bind_eq_ok_iff.1 h
    obtain rfl := ControlFlow.makeIfElse_eq_ok hflow
    cases h
    refine .inr ⟨_, rfl, rfl, .cons ⟨_, ht⟩ ?_⟩
    exact (Block.closeOption_eq_ok he).imp fun _ _ hbody => ⟨_, hbody⟩
  | dispatch target arms =>
    obtain ⟨closed, hclosed, h⟩ := Checking.bind_eq_ok_iff.1 h
    obtain ⟨flow, hflow, h⟩ := Checking.bind_eq_ok_iff.1 h
    obtain rfl := ControlFlow.makeSwitch_eq_ok hflow
    cases h
    refine .inr ⟨_, rfl, rfl, ?_⟩
    -- arms and cases pair up in order, and only their blocks and bodies matter here
    show List.Forall₂ _ (arms.map (·.block)) (closed.map (·.body))
    rw [List.forall₂_map_left_iff, List.forall₂_map_right_iff]
    exact (BlockArm.close_of_closeList hclosed).imp fun _ _ hbody => ⟨_, hbody⟩

/-- Where the items have been closed, the first is a record now, and so are the others. -/
theorem closeList_cons_eq_ok (h : closeList root f qubits clbits (item :: items) c = .ok () d) :
    ∃ r u, item.toRecord root f = .ok r ∧ Content.pushLocal r qubits clbits c = .ok () u ∧
      closeList root f qubits clbits items u = .ok () d := by
  rw [closeList_cons] at h
  obtain ⟨r, hr, h⟩ := Edit.ofExcept_bind_eq_ok_iff.1 h
  obtain ⟨_, u, hpush, h⟩ := Edit.bind_eq_ok_iff.1 h
  exact ⟨r, u, hr, hpush, h⟩

theorem blocks_of_toRecord (h : item.toRecord root f = .ok r) {t : Block} (ht : t ∈ item.blocks) :
    ∃ role body, t.close root f role = .ok body := by
  rcases toRecord_eq_ok h with rfl | ⟨flow, -, -, hbodies⟩
  · exact absurd ht List.not_mem_nil
  · obtain ⟨body, -, role, hbody⟩ := Checking.exists_right hbodies ht
    exact ⟨role, body, hbody⟩

end BlockItem

theorem BlockItem.closeList_eq_ok (h : closeList root f qubits clbits items c = .ok () d) :
    d.identifiers = c.identifiers ∧
      ∀ t ∈ items.flatMap (·.blocks), ∃ role body, t.close root f role = .ok body := by
  induction items generalizing c with
  | nil =>
    cases h
    exact ⟨rfl, fun t ht => absurd ht List.not_mem_nil⟩
  | cons item rest ih =>
    obtain ⟨r, u, hr, hu, h⟩ := closeList_cons_eq_ok h
    obtain ⟨hsame, hrest⟩ := ih h
    refine ⟨hsame.trans (Content.identifiers_of_pushLocal hu), fun t ht => ?_⟩
    rw [List.flatMap_cons] at ht
    exact (List.mem_append.1 ht).elim (blocks_of_toRecord hr) (hrest t)

end Records

namespace Block

variable {root : Content} {f : Footprint} {b : Block} {role : BodyRole} {body : Circuit}

/-- What the block captures over a footprint: all that the footprint and its own span do,
but no local. -/
def captured (f : Footprint) (b : Block) : List Identifier :=
  (Distinct.union f.captures b.span.captures).filter fun i => !b.locals.contains i

/-- The identifiers of the body. -/
def enters (f : Footprint) (b : Block) : List Identifier :=
  b.captured f ++ b.locals.toList.map (·.1)

theorem mem_captured_iff :
    i ∈ b.captured f ↔ (i ∈ f.captures ∨ i ∈ b.span.captures) ∧ ¬ b.locals.contains i := by
  simp [captured, Distinct.mem_union]

/-- A closed block captures what it is to capture, and all its identifiers have names of
their own. -/
theorem close_captures (h : b.close root f role = .ok body) :
    body.content.identifiers.ofKind .capture = b.captured f ∧
      ((b.enters f).map (·.name)).Nodup ∧
      ∀ t ∈ b.waiting, ∃ role body, t.close root f role = .ok body := by
  obtain ⟨moved, c, d, hprepare, hitems, rfl⟩ := close_eq_ok h
  obtain ⟨hlist, hfree⟩ := Content.prepareBody_eq_ok hprepare
  obtain ⟨hsame, hwaiting⟩ := BlockItem.closeList_eq_ok hitems
  refine ⟨?_, ?_, hwaiting⟩
  · show d.identifiers.ofKind .capture = _
    rw [hsame, IdentifierTable.ofKind, hlist]
    simp [List.filter_map, Function.comp_def, captured]
  · have hnames := hfree.listed.keys
    rw [← hfree.listed.names_toList, hlist] at hnames
    simpa [enters, captured, Function.comp_def] using hnames

/-- Where a block is closed, so is every block in it. -/
theorem close_inside {p : Block} (hp : b.Inside p) (h : b.close root f role = .ok body) :
    ∃ role body, p.close root f role = .ok body := by
  induction hp generalizing role body with
  | here b => exact ⟨role, body, h⟩
  | deeper ht _ ih =>
    obtain ⟨role', body', ht⟩ := (close_captures h).2.2 _ ht
    exact ih ht

/-- The identifiers of a prepared body. -/
theorem contains_prepared {moved : List (Nat × Nat) × List (Nat × Nat)} {c : Content}
    (h : Content.prepareBody root f (Distinct.union f.captures b.span.captures) b.locals .empty =
      .ok moved c) : c.identifiers.contains i ↔ i ∈ b.enters f := by
  obtain ⟨hlist, hfree⟩ := Content.prepareBody_eq_ok h
  rw [hfree.listed.contains_iff, hlist]
  simp [enters, captured]

/-- What a block resolves, it has as its own or captures, and the body has it. -/
theorem mem_enters_of_resolves (hb : b.Kept root) (hi : b.resolves i) : i ∈ b.enters f := by
  by_cases hlocal : b.locals.contains i
  · exact List.mem_append_right _ (hb.locals.contains_iff.1 hlocal)
  · refine List.mem_append_left _ (mem_captured_iff.2 ⟨.inr ?_, hlocal⟩)
    exact mem_span_captures.2 (.inl ((resolves_iff.1 hi).resolve_left hlocal))

/-- A block that can be closed as far as identifiers go. -/
structure Closable (root : Content) (f : Footprint) (b : Block) : Prop where
  kept : b.Kept root
  names : ((b.enters f).map (·.name)).Nodup
  registers : ∀ i ∈ b.enters f, i.name ∉ f.registers.map (·.name)

end Block

theorem ControlFlow.mem_identifiers {flow : ControlFlow} :
    i ∈ flow.identifiers ↔ i ∈ flow.ownIdentifiers ∨
      ∃ body ∈ flow.bodies, i ∈ body.content.identifiers.ofKind .capture := by
  rw [identifiers, Distinct.mem_union, List.mem_flatMap]

section Sparing

variable {root c : Content} {f : Footprint} {qubits clbits : List (Nat × Nat)}
  {items : List BlockItem}

theorem BlockArm.sparing_closeList {arms : List BlockArm}
    (h : ∀ t ∈ arms.map (·.block), ∀ role, Sparing (t.close root f role)) :
    Sparing (closeList root f arms) := by
  induction arms with
  | nil => exact sparing_ok []
  | cons arm rest ih =>
    obtain ⟨labels, block⟩ := arm
    obtain ⟨hfirst, hrest⟩ := List.forall_mem_cons.1 h
    exact (hfirst _).bind fun _ _ => (ih hrest).bind fun _ _ => sparing_ok _

/-- Making a record of an item spares identifiers if closing its blocks does. -/
theorem BlockItem.sparing_toRecord {item : BlockItem}
    (h : ∀ t ∈ item.blocks, ∀ role, Sparing (t.close root f role)) :
    Sparing (item.toRecord root f) := by
  cases item with
  | record r | jump j => exact sparing_ok _
  | branch condition t e =>
    obtain ⟨ht, he⟩ := List.forall_mem_cons.1 h
    refine (ht _).bind fun trueBody _ => Sparing.bind ?_ fun falseBody _ => ?_
    · cases e with
      | none => exact sparing_ok none
      | some e => exact (he e List.mem_cons_self _).bind fun _ _ => sparing_ok _
    · exact (ControlFlow.sparing_makeIfElse _ _ _).bind fun _ _ => sparing_ok _
  | dispatch target arms =>
    refine (BlockArm.sparing_closeList h).bind fun closed _ => ?_
    exact (ControlFlow.sparing_makeSwitch _ _).bind fun _ _ => sparing_ok _

/-- Closing items spares identifiers where the body has all that they need, and closing the
blocks in them does. -/
theorem BlockItem.sparingAt_closeList
    (hitems : ∀ item ∈ items, ∀ i ∈ item.identifiers, c.identifiers.contains i)
    (hblocks : ∀ t ∈ items.flatMap (·.blocks), (∀ role, Sparing (t.close root f role)) ∧
      ∀ i ∈ t.captured f, c.identifiers.contains i) :
    (closeList root f qubits clbits items).SparingAt c := by
  induction items generalizing c with
  | nil => exact Edit.sparingAt_pure ()
  | cons item rest ih =>
    obtain ⟨hitem, hitems⟩ := List.forall_mem_cons.1 hitems
    rw [List.flatMap_cons, List.forall_mem_append] at hblocks
    obtain ⟨hblock, hblocks⟩ := hblocks
    rw [closeList_cons]
    refine (Edit.sparingAt_ofExcept (sparing_toRecord fun t ht => (hblock t ht).1)).bind
      fun r u hmade => ?_
    obtain ⟨hr, rfl⟩ := Edit.ofExcept_eq_ok_iff.1 hmade
    -- what the record names the item needs, or a body of it captures
    have hnamed : ∀ i ∈ r.operation.identifiers, c.identifiers.contains i := by
      rcases toRecord_eq_ok hr with rfl | ⟨flow, rfl, hown, hbodies⟩
      · exact hitem
      · intro i hi
        rcases ControlFlow.mem_identifiers.1 hi with hi | ⟨body, hbody, hi⟩
        · exact hitem i (hown ▸ hi)
        · obtain ⟨t, ht, role, hclose⟩ := Checking.exists_left hbodies hbody
          rw [(Block.close_captures hclose).1] at hi
          exact (hblock t ht).2 i hi
    refine (Content.sparingAt_pushLocal hnamed).bind fun _ u hu => ?_
    have hsame := Content.identifiers_of_pushLocal hu
    exact ih (hsame ▸ hitems) (hsame ▸ hblocks)

/-- Closing a block spares identifiers where it does so for every block in it, over a
footprint that captures what they all do. -/
theorem Block.close_sparing {b : Block} (h : ∀ p, b.Inside p → p.Closable root f)
    (hspan : ∀ i ∈ b.span.captures, i ∈ f.captures) (role : BodyRole) :
    Sparing (b.close root f role) := by
  induction b using induction_waiting generalizing role with
  | h b ih =>
    have hb := h b (.here b)
    have hprepare := @Content.sparingAt_prepareBody root _ _ _ hb.names hb.registers
    obtain ⟨footprint, locals, items, ban⟩ := b
    refine Sparing.bind (fun e he => ?_) fun _ _ => sparing_ok _
    obtain ⟨d, he⟩ := Edit.finalState_eq_error_iff.1 he
    refine Edit.SparingAt.bind (s := Content.empty) hprepare (fun moved c hc => ?_) e d he
    have hcontains : ∀ i, c.identifiers.contains i ↔
        i ∈ enters f ⟨footprint, locals, items, ban⟩ := fun i => contains_prepared hc
    -- the items of the block itself name what it lists; blocks that wait in it come by induction
    refine BlockItem.sparingAt_closeList (fun item hitem i hi => ?_)
      fun t ht => ⟨fun role => ?_, ?_⟩
    · exact (hcontains i).2 (mem_enters_of_resolves hb.kept (hb.kept.items item hitem i hi))
    · refine ih t ht (fun p hp => h p (.deeper ht hp)) (fun i hi => hspan i ?_) role
      exact mem_span_captures.2 (.inr ⟨t, ht, hi⟩)
    · intro i hi
      refine (hcontains i).2 ?_
      -- what a waiting block captures from `f` is spanned here, so the body lists it either way
      have hf : i ∈ f.captures := (mem_captured_iff.1 hi).1.elim id fun hi =>
        hspan i (mem_span_captures.2 (.inr ⟨t, ht, hi⟩))
      by_cases hlocal : locals.contains i
      · exact List.mem_append_right _ (hb.kept.locals.contains_iff.1 hlocal)
      · exact List.mem_append_left _ (mem_captured_iff.2 ⟨.inl hf, hlocal⟩)

end Sparing

end QuantumCircuit
