import QuantumCircuit.Proofs.Gaining
import QuantumCircuit.Proofs.Spanning

/-!
# Jumps that are resolved

A jump in a builder learns how wide it is when the loop around it closes, and so does a branch
with a jump in it. What was recorded in a body is a list of entries (`Entry`); a block holds them
as items (`Block.entries`). When blocks close over the bits in a footprint, every entry becomes
a record, in order. A jump, and a branch with a jump in it, then spans all bits of the body that
it stands in, and all these bodies are as wide as the footprint (`Entry.Resolved`,
`Block.close_resolved`).

At its end a builder has nothing in its bodies that waits, or is a loop, and becomes a record as
wide as its bodies (`Circuit.Closing.resolved`); or it is left to wait itself.
-/

namespace QuantumCircuit

open Circuit (Closing)

/-! ## Entries -/

/-- The kinds of builders, as far as jumps are concerned. -/
inductive BuilderKind where
  | branch
  | loop
  | box
deriving DecidableEq, Repr

/-- Something that was recorded in the body of a builder. -/
inductive Entry where
  | record (op : Operation)
  | jump (j : Jump)
  /-- A branch with a jump in it, and what was recorded in each of its bodies. -/
  | branch (bodies : List (List Entry))

/-- Whether the entry waits for a loop to close. -/
def Entry.waits : Entry → Bool
  | record _ => false
  | jump _ | branch _ => true

/-- The kind of the builder that makes the operation. -/
def ControlFlow.kind? : ControlFlow → Option BuilderKind
  | ifElse _ _ _ | switchCase _ _ => some .branch
  | whileLoop _ _ | forLoop _ _ _ => some .loop
  | box _ _ => some .box
  | jump _ _ _ => none

/-- What becomes of an entry in a body that is `w` wide. A record keeps its operation. A jump is
over all bits of the body, in order. So is a branch with a jump in it, and its bodies are as wide,
with records that its entries have become. -/
inductive Entry.Resolved (w : Nat × Nat) : Entry → Instruction → Prop
  | record (i : Instruction) : Entry.Resolved w (.record i.operation) i
  | jump (j : Jump) : Entry.Resolved w (.jump j)
      (.make (.control (.jump j w.1 w.2)) (List.range w.1) (List.range w.2))
  | branch {bodies : List (List Entry)} {flow : ControlFlow} : flow.kind? = some .branch →
      (∀ body ∈ flow.bodies, body.width = w) →
      List.Forall₂ (fun entries body =>
        List.Forall₂ (Entry.Resolved w) entries body.content.records) bodies flow.bodies →
      Entry.Resolved w (.branch bodies)
        (.make (.control flow) (List.range w.1) (List.range w.2))

mutual

/-- What was recorded in the block. -/
def Block.entries : Block → List Entry
  | ⟨_, _, items, _⟩ => BlockItem.entryList items

/-- What the items were recorded as. -/
def BlockItem.entryList : List BlockItem → List Entry
  | [] => []
  | .record i :: rest => .record i.operation :: BlockItem.entryList rest
  | .jump j :: rest => .jump j :: BlockItem.entryList rest
  | .branch _ t none :: rest => .branch [t.entries] :: BlockItem.entryList rest
  | .branch _ t (some f) :: rest => .branch [t.entries, f.entries] :: BlockItem.entryList rest
  | .dispatch _ arms :: rest => .branch (BlockArm.entryList arms) :: BlockItem.entryList rest

/-- What was recorded in the cases. -/
def BlockArm.entryList : List BlockArm → List (List Entry)
  | [] => []
  | ⟨_, block⟩ :: rest => block.entries :: BlockArm.entryList rest

end

/-- What the item was recorded as. -/
def BlockItem.entry : BlockItem → Entry
  | record i => .record i.operation
  | jump j => .jump j
  | branch condition t f => .branch ((branch condition t f).blocks.map Block.entries)
  | dispatch target arms => .branch ((dispatch target arms).blocks.map Block.entries)

theorem BlockArm.entryList_eq (arms : List BlockArm) :
    entryList arms = arms.map (·.block.entries) := by
  induction arms with
  | nil => rfl
  | cons arm rest ih =>
    obtain ⟨labels, block⟩ := arm
    rw [entryList, ih]
    rfl

theorem BlockItem.entryList_eq (items : List BlockItem) : entryList items = items.map entry := by
  induction items with
  | nil => rfl
  | cons item rest ih =>
    rw [List.map_cons, ← ih]
    cases item with
    | record i | jump j => rfl
    | branch condition t f => cases f <;> rfl
    | dispatch target arms =>
      show Entry.branch (BlockArm.entryList arms) :: _ = _
      rw [BlockArm.entryList_eq]
      simp only [entry, blocks, List.map_map, Function.comp_def]

namespace Block

variable {b : Block}

theorem entries_eq (b : Block) : b.entries = b.items.map BlockItem.entry := by
  obtain ⟨footprint, locals, items, ban⟩ := b
  exact BlockItem.entryList_eq items

theorem awaitsLoop_iff : b.awaitsLoop = true ↔ ∃ e ∈ b.entries, e.waits = true := by
  rw [awaitsLoop, List.any_eq_true, entries_eq]
  simp only [List.mem_map, exists_exists_and_eq_and]
  refine exists_congr fun item => and_congr_right fun _ => ?_
  cases item <;> simp [BlockItem.entry, Entry.waits]

end Block

/-! ## Bodies that close -/

/-- Where the first bits of a list stand: at the first positions, in order. -/
theorem BitList.Exact.eq_range {k : BitKind} {l : BitList k} (h : l.Exact) {positions : List Nat}
    {own extra : List (Bit k)} (hl : l.bits = own ++ extra)
    (hpositions : positions.map l.get? = own.map some) : positions = List.range own.length := by
  have hlength : positions.length = own.length := by
    simpa using congrArg List.length hpositions
  refine List.ext_getElem (by rw [hlength, List.length_range]) fun n hn hn' => ?_
  rw [List.getElem_range]
  have hlt : n < own.length := hlength ▸ hn
  have hthere : l.get? positions[n] = some own[n] := by
    simpa [hn, hlt] using congrArg (·[n]?) hpositions
  have hhere : l.get? n = some own[n] := by
    rw [get?, hl, List.getElem?_append_left hlt, List.getElem?_eq_getElem hlt]
  -- a bit stands at one position only
  exact Option.some.inj (((h.indexOf?_eq_some_iff).2 hthere).symm.trans
    ((h.indexOf?_eq_some_iff).2 hhere))

namespace BlockItem

variable {root c d : Content} {f : Footprint} {qubits clbits : List (Nat × Nat)}
  {items : List BlockItem} {item : BlockItem} {r : Instruction}

/-- The records of a body have the operands that they need. -/
theorem closeList_shapes (h : closeList root f qubits clbits items c = .ok () d)
    (hc : ∀ r ∈ c.records, r.checkShape = .ok ()) : ∀ r ∈ d.records, r.checkShape = .ok () := by
  induction items generalizing c with
  | nil =>
    cases h
    exact hc
  | cons item rest ih =>
    obtain ⟨r, u, -, hpush, hrest⟩ := closeList_cons_eq_ok h
    obtain ⟨r', -, hpush⟩ := Edit.ofExcept_bind_eq_ok_iff.1 hpush
    obtain ⟨hcheck, rfl⟩ := Content.push_eq_ok_iff.1 hpush
    refine ih hrest fun j hj => ?_
    rcases List.mem_append.1 hj with hj | hj
    · exact hc j hj
    · rw [List.mem_singleton.1 hj]
      exact (Content.checkOperands_eq_ok_iff.1 (Checking.seq_eq_ok_iff.1 hcheck).1).2

end BlockItem

/-- The kind of the builder. -/
def Circuit.Closing.kind : Closing → BuilderKind
  | ifElse _ _ _ | switch _ _ => .branch
  | whileLoop _ _ | forLoop _ _ _ => .loop
  | box _ _ => .box

theorem Circuit.Closing.kind_of_make {k : Closing} {root : Content} {f : Footprint}
    {flow : ControlFlow} (h : k.make root f = .ok flow) : flow.kind? = some k.kind := by
  cases becomes_of_make h <;> rfl

namespace BlockItem

variable {root : Content} {f : Footprint} {item : BlockItem} {r j : Instruction} {body : Circuit}

/-- A branch that waits becomes what its builder would have made of its blocks. -/
theorem toRecord_cases (h : item.toRecord root f = .ok r) :
    item = .record r ∨
      (∃ j, item = .jump j ∧
        r = .make (.control (.jump j f.qubits.length f.clbits.length)) f.qubits f.clbits) ∨
      ∃ (k : Closing) (flow : ControlFlow), k.kind = .branch ∧
        item.entry = .branch (k.blocks.map Block.entries) ∧ k.blocks = item.blocks ∧
        k.make root f = .ok flow ∧ r = .make (.control flow) f.qubits f.clbits := by
  cases item with
  | record r =>
    cases h
    exact .inl rfl
  | jump j =>
    cases h
    exact .inr (.inl ⟨j, rfl, rfl⟩)
  | branch condition t e =>
    obtain ⟨trueBody, ht, h⟩ := Checking.bind_eq_ok_iff.1 h
    obtain ⟨falseBody, he, h⟩ := Checking.bind_eq_ok_iff.1 h
    obtain ⟨flow, hflow, h⟩ := Checking.bind_eq_ok_iff.1 h
    cases h
    refine .inr (.inr ⟨.ifElse condition t e, flow, rfl, rfl, rfl, ?_, rfl⟩)
    exact Checking.bind_eq_ok_iff.2 ⟨_, ht, Checking.bind_eq_ok_iff.2 ⟨_, he, hflow⟩⟩
  | dispatch target arms =>
    obtain ⟨closed, hclosed, h⟩ := Checking.bind_eq_ok_iff.1 h
    obtain ⟨flow, hflow, h⟩ := Checking.bind_eq_ok_iff.1 h
    cases h
    refine .inr (.inr ⟨.switch target arms, flow, rfl, rfl, rfl, ?_, rfl⟩)
    exact Checking.bind_eq_ok_iff.2 ⟨_, hclosed, hflow⟩

end BlockItem

namespace Block

variable {root : Content} {f : Footprint} {role : BodyRole} {b : Block} {body : Circuit}

/-- Control flow over the whole footprint is over all bits of the body, in order. -/
theorem eq_make_range {op : Operation} {j : Instruction} (h : b.close root f role = .ok body)
    (hj : (Instruction.make op f.qubits f.clbits).Relocated root body.content j) :
    j = .make op (List.range f.qubits.length) (List.range f.clbits.length) := by
  obtain ⟨hqubits, ⟨own, extra, hclbits, hown⟩, -, hexact⟩ := close_bits h
  obtain ⟨operation, qs, cs, label⟩ := j
  obtain ⟨hoperation, hlabel, ⟨qbits, hq, hq'⟩, cbits, hc, hc'⟩ := hj
  cases hoperation
  cases hlabel
  obtain rfl : qbits = body.content.qubits.bits :=
    (List.map_injective_iff.2 (Option.some_injective _)) (hq.symm.trans hqubits)
  obtain rfl : cbits = own :=
    (List.map_injective_iff.2 (Option.some_injective _)) (hc.symm.trans hown)
  have hqlength : f.qubits.length = body.content.qubits.bits.length := by
    simpa using congrArg List.length hqubits
  have hclength : f.clbits.length = cbits.length := by
    simpa using congrArg List.length hown
  have hqs : qs = _ := hexact.qubits.eq_range (List.append_nil _).symm hq'
  have hcs : cs = _ := hexact.clbits.eq_range hclbits hc'
  rw [hqs, hcs, hqlength, hclength]
  rfl

/-- When a block closes, all that was recorded in it is resolved, for the width of the footprint
that it closes over. -/
theorem close_resolved (h : b.close root f role = .ok body) :
    List.Forall₂ (Entry.Resolved (f.qubits.length, f.clbits.length)) b.entries
      body.content.records := by
  -- on the blocks that wait in the block, and in these
  induction b using induction_waiting generalizing role body with
  | h b ih =>
    have hshapes : ∀ j ∈ body.content.records, j.checkShape = .ok () := by
      obtain ⟨moved, c, d, hprepared, hclose, rfl⟩ := close_eq_ok h
      refine BlockItem.closeList_shapes hclose fun r hr => ?_
      rw [(Content.prepared_of_prepareBody hprepared).records] at hr
      exact absurd hr List.not_mem_nil
    rw [entries_eq, List.forall₂_map_left_iff]
    refine Checking.imp_of_mem (close_items h) fun item hitem j hj ⟨r, hr, hrelocated⟩ => ?_
    rcases BlockItem.toRecord_cases hr with rfl | ⟨jump, rfl, rfl⟩ |
      ⟨k, flow, hkind, hentry, hblocks, hmake, rfl⟩
    · show Entry.Resolved _ (.record r.operation) j
      rw [← hrelocated.operation]
      exact .record j
    · rw [eq_make_range h hrelocated]
      exact .jump jump
    · have hj' := eq_make_range h hrelocated
      obtain ⟨⟨hq, hc⟩, -⟩ := Instruction.checkShape_eq_ok_iff.1 (hshapes j hj)
      rw [hj', Instruction.make] at hq hc
      simp only [List.length_range] at hq hc
      rw [hentry, hj']
      refine .branch (hkind ▸ Closing.kind_of_make hmake) (fun body' hbody' => ?_) ?_
      · -- the record is as wide as its bodies
        rw [Closing.width_of_make hmake body' hbody', hq, hc]
        rfl
      · rw [List.forall₂_map_left_iff]
        refine Checking.imp_of_mem (Closing.make_eq_ok hmake).2 fun t ht body' _ ⟨role', ht'⟩ => ?_
        refine ih t (List.mem_flatMap.2 ⟨item, hitem, ?_⟩) ht'
        exact hblocks ▸ ht

end Block

/-! ## Builders that end -/

namespace Circuit

variable {c d : Circuit} {r : Instruction}

/-- A record that is added has the operands that it needs, and is the last one then. -/
theorem shape_of_append (h : append r c = .ok () d) :
    r.checkShape = .ok () ∧ d.last? = some r := by
  by_cases hclosed : c.blocks = []
  · obtain ⟨hcheck, rfl⟩ := (append_eq_ok_iff_of_closed hclosed).1 h
    refine ⟨(Content.checkOperands_eq_ok_iff.1 (Checking.seq_eq_ok_iff.1 hcheck).1).2, ?_⟩
    rw [last?, show c.blocks = [] from hclosed]
    exact List.getLast?_concat
  · rcases append_cases hclosed r with ⟨e, hrefused⟩ | ⟨hoperands, -, f, g, -, -, hadded⟩
    · cases hrefused.symm.trans h
    · cases hadded.symm.trans h
      obtain ⟨top, outer, -, hd⟩ := withRecord_eq_of_open hclosed r f g
      refine ⟨(Content.checkOperands_eq_ok_iff.1 hoperands).2, ?_⟩
      simp [hd, last?, Block.snoc]

namespace Closing

variable {k : Closing} {item : BlockItem}

/-- What is left to wait is a branch with a jump in it. -/
theorem waits_of_item? (h : k.item? = some item) :
    k.kind = .branch ∧ item.entry = .branch (k.blocks.map Block.entries) ∧
      ∃ b ∈ k.blocks, b.awaitsLoop = true := by
  obtain ⟨-, -, -, hwaits⟩ := item?_eq_some (c := .empty "") h
  cases k with
  | ifElse _ _ _ | switch _ _ =>
    simp only [item?] at h
    split at h <;> cases h
    exact ⟨rfl, rfl, hwaits⟩
  | whileLoop _ _ | forLoop _ _ _ | box _ _ => cases h

/-- A branch with a jump in it is left to wait. -/
theorem not_waits_of_item? (h : k.item? = none) (hkind : k.kind = .branch) :
    ∀ b ∈ k.blocks, b.awaitsLoop = false :=
  awaitsLoop_eq_false h (by cases k <;> first | rfl | cases hkind)

/-- A builder that does not wait has become a record, with everything in its bodies resolved. -/
theorem resolved (hitem : k.item? = none) (h : k.run c = .ok () d) :
    ∃ r flow, c.Gains [] [r] d ∧ d.last? = some r ∧ r.operation = .control flow ∧
      flow.kind? = some k.kind ∧
      (∀ body ∈ flow.bodies, body.width = (r.qubits.length, r.clbits.length)) ∧
      List.Forall₂ (fun b body => List.Forall₂ (Entry.Resolved (r.qubits.length, r.clbits.length))
        b.entries body.content.records) k.blocks flow.bodies := by
  rcases run_eq_ok h with ⟨item, hsome, -⟩ | ⟨-, flow, hmake, hadded⟩
  · cases hitem.symm.trans hsome
  obtain ⟨hshape, hlast⟩ := shape_of_append hadded
  obtain ⟨⟨hq, hc⟩, -⟩ := Instruction.checkShape_eq_ok_iff.1 hshape
  refine ⟨_, flow, append_gains hadded, hlast, rfl, kind_of_make hmake, fun body hbody => ?_, ?_⟩
  · rw [width_of_make hmake body hbody, hq, hc]
    rfl
  · exact (make_eq_ok hmake).2.imp fun b body ⟨role, hclose⟩ => Block.close_resolved hclose

end Closing

end Circuit

end QuantumCircuit
