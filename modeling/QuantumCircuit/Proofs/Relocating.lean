import QuantumCircuit.Proofs.Closing
import QuantumCircuit.Proofs.Positions

/-!
# Bits and records of a body

A block that is closed over a footprint becomes a body on the bits at the positions in the
footprint, in order; then come bits that only its registers bring (`Block.close_bits`). A
record of the block stands in the body on the same bits as before, under other positions
(`Instruction.Relocated`, `Block.close_records`).
-/

namespace QuantumCircuit

/-! ## Bits that come in -/

namespace Content

variable {root c d : Content} {k : BitKind}

theorem addBit_eq_ok {bit : Bit k} {here : Nat} (h : addBit bit c = .ok here d) :
    here = (c.bits k).size ∧ d = (bitFocus k).set ((c.bits k).snoc bit) c := by
  obtain ⟨l, hl, rfl⟩ := Edit.within_eq_ok_iff.1 h
  have hget : (bitFocus k).get c = c.bits k := by cases k <;> rfl
  rw [hget] at hl
  obtain ⟨_, -, hstrict, -⟩ | ⟨-, -, rfl, rfl⟩ := BitList.add_eq_ok_iff.1 hl
  · cases hstrict
  · exact ⟨rfl, rfl⟩

theorem bits_set (l : BitList k) (c : Content) : ((bitFocus k).set l c).bits k = l := by
  cases k <;> rfl

/-- Bits come in at the end, in order, and the map says where each went. -/
theorem importBits_eq_ok {positions : List Nat} {moved : List (Nat × Nat)}
    (h : importBits root k positions c = .ok moved d) :
    ∃ l bits, d = (bitFocus k).set l c ∧ l.bits = (c.bits k).bits ++ bits ∧
      l.registers = (c.bits k).registers ∧
      positions.map (root.bits k).get? = bits.map some ∧
      ∀ p here, Assoc.find? p moved = some here →
        ∃ bit, (root.bits k).get? p = some bit ∧ l.get? here = some bit := by
  induction positions generalizing c moved with
  | nil =>
    cases h
    refine ⟨_, [], ?_, (List.append_nil _).symm, rfl, rfl, fun p here hp => by cases hp⟩
    cases d
    cases k <;> rfl
  | cons position rest ih =>
    cases hbit : (root.bits k).get? position with
    | none =>
      simp only [importBits, hbit] at h
      cases h
    | some bit =>
      simp only [importBits, hbit] at h
      obtain ⟨here, u, hadd, h⟩ := Edit.bind_eq_ok_iff.1 h
      obtain ⟨others, v, hothers, h⟩ := Edit.bind_eq_ok_iff.1 h
      cases h
      obtain ⟨rfl, rfl⟩ := addBit_eq_ok hadd
      obtain ⟨l, bits, rfl, hbits, hregisters, hall, hmoved⟩ := ih hothers
      rw [bits_set] at hbits hregisters
      have hlist : l.bits = (c.bits k).bits ++ bit :: bits := by
        rw [hbits]
        exact List.append_assoc _ [bit] bits
      refine ⟨l, bit :: bits, ?_, hlist, hregisters, ?_, fun p here hp => ?_⟩
      · cases k <;> rfl
      · rw [List.map_cons, List.map_cons, hbit, hall]
      · -- a position stands for the bit that came in for it, this one or a later one
        rw [Assoc.find?] at hp
        split at hp
        · rename_i hsame
          cases hp
          refine ⟨bit, hsame ▸ hbit, ?_⟩
          rw [BitList.get?, hlist]
          exact List.getElem?_append_right (Nat.le_refl _) |>.trans (by simp)
        · exact hmoved p here hp

/-- Registers come in at the end, and bring the bits that are missing. -/
theorem each_addRegister_eq_ok {registers : List ClassicalRegister}
    (h : Edit.each (fun r => addRegister r) registers c = .ok () d) :
    ∃ l extra, d = { c with clbits := l } ∧ l.bits = c.clbits.bits ++ extra ∧
      l.registers = c.clbits.registers ++ registers := by
  induction registers generalizing c with
  | nil =>
    cases h
    exact ⟨d.clbits, [], by cases d; rfl, (List.append_nil _).symm, (List.append_nil _).symm⟩
  | cons r rest ih =>
    obtain ⟨_, u, hfirst, h⟩ := Edit.bind_eq_ok_iff.1 h
    simp only [addRegister, Edit.get_bind_apply] at hfirst
    obtain ⟨_, -, hfirst⟩ := Edit.ofExcept_bind_eq_ok_iff.1 hfirst
    obtain ⟨l, hl, rfl⟩ := Edit.within_eq_ok_iff.1 hfirst
    replace hl : BitList.addRegister r c.clbits = .ok () l := hl
    obtain ⟨more, hmore⟩ := (BitList.addRegister_keeps_extends _ r _ l (.refl _) (.of_ok hl)).bits
    obtain ⟨-, w, hw, rfl⟩ := BitList.addRegister_eq_ok_iff.1 hl
    -- its bits come in first, which leaves the registers as they are
    have hsame := BitList.addMembers_keeps_registers _ _ w rfl (.of_ok hw)
    obtain ⟨l', extra, rfl, hbits, hregisters⟩ := ih h
    refine ⟨l', more ++ extra, rfl, ?_, ?_⟩
    · rw [hbits, ← List.append_assoc, hmore]
      rfl
    · rw [hregisters]
      show (w.registers ++ [r]) ++ rest = _
      rw [hsame, List.append_assoc]
      rfl

/-- Identifiers that come in change nothing else. -/
theorem frame_of_each_addIdentifier {α : Type} {identifier : α → Identifier}
    {kind : α → IdentifierKind} {l : List α}
    (h : Edit.each (fun a => addIdentifier (identifier a) (kind a)) l c = .ok () d) :
    ∃ t, d = { c with identifiers := t } := by
  induction l generalizing c with
  | nil =>
    cases h
    exact ⟨d.identifiers, by cases d; rfl⟩
  | cons a rest ih =>
    obtain ⟨_, u, hfirst, h⟩ := Edit.bind_eq_ok_iff.1 h
    obtain ⟨-, rfl⟩ := addIdentifier_eq_ok_iff.1 hfirst
    obtain ⟨t, rfl⟩ := ih h
    exact ⟨t, rfl⟩

/-- A body over the bits in `f`, before its records come in; `moved` says where they went. -/
structure Prepared (root : Content) (f : Footprint) (moved : List (Nat × Nat) × List (Nat × Nat))
    (d : Content) : Prop where
  qubits : f.qubits.map root.qubits.get? = d.qubits.bits.map some
  clbits : ∃ own extra, d.clbits.bits = own ++ extra ∧
    f.clbits.map root.clbits.get? = own.map some
  registers : d.clbits.registers = f.registers
  qubit : ∀ p here, Assoc.find? p moved.1 = some here →
    ∃ bit, root.qubits.get? p = some bit ∧ d.qubits.get? here = some bit
  clbit : ∀ p here, Assoc.find? p moved.2 = some here →
    ∃ bit, root.clbits.get? p = some bit ∧ d.clbits.get? here = some bit
  records : d.records = []
  exact : d.Exact

theorem prepared_of_prepareBody {f : Footprint} {captures : List Identifier}
    {locals : IdentifierTable} {moved : List (Nat × Nat) × List (Nat × Nat)}
    (h : prepareBody root f captures locals .empty = .ok moved d) : Prepared root f moved d := by
  have hgrows : Content.empty.Grows d := prepareBody_keeps Grows.addBit Grows.addRegister
    Grows.addIdentifier _ d (.refl _) (.of_ok h)
  have hexact := hgrows.exact ⟨BitList.exact_empty, BitList.exact_empty⟩
  obtain ⟨qubits, u, hqubits, h⟩ := Edit.bind_eq_ok_iff.1 h
  obtain ⟨clbits, v, hclbits, h⟩ := Edit.bind_eq_ok_iff.1 h
  obtain ⟨_, w, hregisters, h⟩ := Edit.bind_eq_ok_iff.1 h
  obtain ⟨_, x, hcaptures, h⟩ := Edit.bind_eq_ok_iff.1 h
  obtain ⟨_, y, hlocals, h⟩ := Edit.bind_eq_ok_iff.1 h
  cases h
  obtain ⟨q, qs, rfl, hq, -, hqall, hqmoved⟩ := importBits_eq_ok hqubits
  obtain ⟨b, bs, rfl, hb, hbregisters, hball, hbmoved⟩ := importBits_eq_ok hclbits
  obtain ⟨l, extra, rfl, hl, hlregisters⟩ := each_addRegister_eq_ok hregisters
  obtain ⟨t, rfl⟩ := frame_of_each_addIdentifier hcaptures
  obtain ⟨t', rfl⟩ := frame_of_each_addIdentifier hlocals
  have hq : q.bits = qs := hq
  have hb : b.bits = bs := hb
  have hl : l.bits = b.bits ++ extra := hl
  refine ⟨?_, ⟨bs, extra, hb ▸ hl, hball⟩, ?_, hqmoved, fun p here hp => ?_, rfl, hexact⟩
  · show _ = q.bits.map some
    rw [hq]
    exact hqall
  · show l.registers = _
    rw [hlregisters]
    exact (congrArg (· ++ f.registers) hbregisters).trans (List.nil_append _)
  · obtain ⟨bit, hroot, hbit⟩ := hbmoved p here hp
    refine ⟨bit, hroot, ?_⟩
    show l.bits[here]? = _
    rw [hl]
    exact (List.getElem?_append_left (List.getElem?_eq_some_iff.1 hbit).1).trans hbit

theorem pushLocal_eq_ok {r : Instruction} {qubits clbits : List (Nat × Nat)}
    (h : pushLocal r qubits clbits c = .ok () d) :
    ∃ r', r.localize qubits clbits = .ok r' ∧ d = c.snoc r' := by
  obtain ⟨r', hr, h⟩ := Edit.ofExcept_bind_eq_ok_iff.1 h
  obtain ⟨-, h⟩ := Checking.seq_eq_ok_iff.1 (Edit.update_eq_ok_iff.1 h)
  cases h
  exact ⟨r', hr, rfl⟩

end Content

/-! ## Closed blocks -/

/-- Closing items adds a record for each, and nothing else. -/
theorem BlockItem.closeList_records {root c d : Content} {f : Footprint}
    {qubits clbits : List (Nat × Nat)} {items : List BlockItem}
    (h : closeList root f qubits clbits items c = .ok () d) :
    d.qubits = c.qubits ∧ d.clbits = c.clbits ∧ ∃ new, d.records = c.records ++ new ∧
      List.Forall₂ (fun item r' => ∃ r, item.toRecord root f = .ok r ∧
        r.localize qubits clbits = .ok r') items new := by
  induction items generalizing c with
  | nil =>
    cases h
    exact ⟨rfl, rfl, [], (List.append_nil _).symm, .nil⟩
  | cons item rest ih =>
    obtain ⟨r, u, hr, hpush, hrest⟩ := closeList_cons_eq_ok h
    obtain ⟨r', hr', rfl⟩ := Content.pushLocal_eq_ok hpush
    obtain ⟨hqubits, hclbits, new, hnew, hall⟩ := ih (c := c.snoc r') hrest
    refine ⟨hqubits, hclbits, r' :: new, ?_, .cons ⟨r, hr, hr'⟩ hall⟩
    rw [hnew]
    exact List.append_assoc _ [r'] new

/-- The same operation under the same label, on the same bits of another store. -/
structure Instruction.Relocated (c d : Content) (i j : Instruction) : Prop where
  operation : j.operation = i.operation
  label : j.label = i.label
  qubits : ∃ bits : List Qubit, i.qubits.map c.qubits.get? = bits.map some ∧
    j.qubits.map d.qubits.get? = bits.map some
  clbits : ∃ bits : List Clbit, i.clbits.map c.clbits.get? = bits.map some ∧
    j.clbits.map d.clbits.get? = bits.map some

theorem relocate_eq_ok {k : BitKind} {operation : String} {moved : List (Nat × Nat)}
    {position here : Nat} (h : relocate k operation moved position = .ok here) :
    Assoc.find? position moved = some here := by
  unfold relocate at h
  split at h
  · rename_i hfound
    cases h
    exact hfound
  · cases h

theorem Content.Prepared.relocated {root d : Content} {f : Footprint}
    {moved : List (Nat × Nat) × List (Nat × Nat)} {i j : Instruction}
    (h : Content.Prepared root f moved d) (hj : i.localize moved.1 moved.2 = .ok j) :
    i.Relocated root d j := by
  obtain ⟨qubits, hqubits, hj⟩ := Checking.bind_eq_ok_iff.1 hj
  obtain ⟨clbits, hclbits, hj⟩ := Checking.bind_eq_ok_iff.1 hj
  cases hj
  refine ⟨rfl, rfl, Checking.exists_map_some ?_, Checking.exists_map_some ?_⟩
  · exact (Checking.mapM_eq_ok_iff.1 hqubits).imp fun p here hp =>
      h.qubit p here (relocate_eq_ok hp)
  · exact (Checking.mapM_eq_ok_iff.1 hclbits).imp fun p here hp =>
      h.clbit p here (relocate_eq_ok hp)

namespace Block

variable {root : Content} {f : Footprint} {role : BodyRole} {b : Block} {body : Circuit}

/-- The bits of a body: those at the positions in the footprint, and those that its registers
bring. -/
theorem close_bits (h : b.close root f role = .ok body) :
    f.qubits.map root.qubits.get? = body.content.qubits.bits.map some ∧
      (∃ own extra, body.content.clbits.bits = own ++ extra ∧
        f.clbits.map root.clbits.get? = own.map some) ∧
      body.content.clbits.registers = f.registers ∧ body.content.Exact := by
  obtain ⟨moved, c, d, hprepared, hclose, rfl⟩ := close_eq_ok h
  have hc := Content.prepared_of_prepareBody hprepared
  obtain ⟨hqubits, hclbits, -⟩ := BlockItem.closeList_records hclose
  show _ = d.qubits.bits.map some ∧ (∃ own extra, d.clbits.bits = _ ∧ _) ∧ d.clbits.registers = _ ∧
    d.Exact
  rw [hqubits, hclbits]
  exact ⟨hc.qubits, hc.clbits, hc.registers, ⟨hqubits ▸ hc.exact.qubits, hclbits ▸ hc.exact.clbits⟩⟩

/-- The items of a block stand in the body as records on the same bits, in order. -/
theorem close_items (h : b.close root f role = .ok body) :
    List.Forall₂ (fun item j => ∃ i, item.toRecord root f = .ok i ∧ i.Relocated root body.content j)
      b.items body.content.records := by
  obtain ⟨moved, c, d, hprepared, hclose, rfl⟩ := close_eq_ok h
  have hc := Content.prepared_of_prepareBody hprepared
  obtain ⟨hqubits, hclbits, new, hnew, hlocal⟩ := BlockItem.closeList_records hclose
  rw [hc.records, List.nil_append] at hnew
  show List.Forall₂ _ b.items d.records
  rw [hnew]
  refine hlocal.imp fun item j ⟨i, hi, hj⟩ => ⟨i, hi, ?_⟩
  obtain ⟨hoperation, hlabel, hjqubits, hjclbits⟩ := hc.relocated hj
  exact ⟨hoperation, hlabel, hqubits ▸ hjqubits, hclbits ▸ hjclbits⟩

/-- Where nothing waits the records of the block stand in the body. -/
theorem close_records {records : List Instruction} (hitems : b.items = records.map .record)
    (h : b.close root f role = .ok body) :
    List.Forall₂ (Instruction.Relocated root body.content) records body.content.records := by
  have hall := close_items h
  rw [hitems, List.forall₂_map_left_iff] at hall
  refine hall.imp fun r j ⟨i, hi, hj⟩ => ?_
  cases hi
  exact hj

end Block

end QuantumCircuit
