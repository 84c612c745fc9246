import QuantumCircuit.Proofs.Adding
import QuantumCircuit.Proofs.Forms
import QuantumCircuit.Proofs.Relocating

/-!
# Spans of open blocks

What an open block spans follows what is done in it (`Circuit.Spans`): it comes to span the
operands of the records that are added, the clbits that they need besides, and what the heads
of builders read.

A builder at its end adds to the block around it just what its own blocks span
(`Circuit.Closing.spans`). If it becomes a record, that record has these bits for operands, in
increasing order, and its bodies are on them (`Instruction.Spanning`).
-/

namespace QuantumCircuit

open Builder (Log Form)
open Circuit (Closing)

/-! ## Spans that grow -/

/-- That the innermost block has come to span the positions in `R` too, and that the blocks
around it stay. -/
inductive SpansMore (R : BitKind → Nat → Prop) : List Block → List Block → Prop
  | nil : SpansMore R [] []
  | cons {top top' : Block} {outer outer' : List Block} :
      (∀ k n, n ∈ top'.span.bits k ↔ n ∈ top.span.bits k ∨ R k n) →
      StayAll outer outer' → SpansMore R (top :: outer) (top' :: outer')

theorem SpansMore.congr {R R' : BitKind → Nat → Prop} {bs cs : List Block} (h : SpansMore R bs cs)
    (hR : ∀ k n, R k n ↔ R' k n) : SpansMore R' bs cs := by
  cases h with
  | nil => exact .nil
  | cons hspan houter => exact .cons (fun k n => (hspan k n).trans (or_congr_right (hR k n))) houter

theorem SpansMore.of_stay {bs cs : List Block} (h : StayAll bs cs) :
    SpansMore (fun _ _ => False) bs cs := by
  cases h with
  | nil => exact .nil
  | cons htop houter => exact .cons (fun k n => by rw [htop.span_iff, or_false]) houter

/-- A block without items spans what is in its own footprint. -/
theorem Block.span_of_items_eq_nil {b : Block} (h : b.items = []) {k : BitKind} {n : Nat} :
    n ∈ b.span.bits k ↔ n ∈ b.footprint.bits k := by
  rw [Block.span_iff (Footprint.splits_bits k n), Block.waiting, h]
  simp

/-- What was read, as a log. -/
def Builder.Log.ofUse (u : ClassicalUse) : Log := ⟨[], [u]⟩

theorem Builder.Log.mem_clbits_ofUse {u : ClassicalUse} {bit : Clbit} :
    bit ∈ (ofUse u).clbits ↔ bit ∈ u.allClbits := by
  simp [ofUse, clbits]

theorem Builder.Log.touches_ofUse {u : ClassicalUse} {c : Content} {k : BitKind} {n : Nat} :
    (ofUse u).Touches c k n ↔
      k = .classical ∧ ∃ bit ∈ u.allClbits, c.clbits.get? n = some bit := by
  cases k with
  | quantum => simp [ofUse, Touches]
  | classical => simp [ofUse, Touches, clbits]

theorem Builder.Log.not_touches_none {c : Content} {k : BitKind} {n : Nat} :
    ¬ (ofUse .none).Touches c k n := by
  simp [touches_ofUse, ClassicalUse.allClbits, ClassicalUse.none]

theorem Builder.Log.listed_none {c : Content} : (ofUse .none).Listed c :=
  fun _ hbit => absurd (mem_clbits_ofUse.1 hbit) List.not_mem_nil

namespace Circuit

variable {c d e base : Circuit} {log : Log} {i : Instruction} {α : Type}

/-- That the circuit goes on from `c` so that the innermost block has come to span the bits in
the log. -/
structure Spans (log : Log) (c d : Circuit) : Prop where
  exact : c.content.Exact
  grows : c.content.Grows d.content
  listed : log.Listed d.content
  blocks : SpansMore (log.Touches d.content) c.blocks d.blocks

namespace Spans

theorem exact_right (h : Spans log c d) : d.content.Exact := h.grows.exact h.exact

theorem of_stay (hexact : c.content.Exact) (hgrows : c.content.Grows d.content)
    (h : StayAll c.blocks d.blocks) : Spans .empty c d where
  exact := hexact
  grows := hgrows
  listed := Log.listed_empty
  blocks := (SpansMore.of_stay h).congr fun _ _ => (iff_of_false id Log.not_touches_empty)

theorem refl (hexact : c.content.Exact) : Spans .empty c c := of_stay hexact (.refl _) (.refl _)

theorem trans {log' : Log} (h : Spans log c d) (h' : Spans log' d e) :
    Spans (log.append log') c e := by
  refine ⟨h.exact, h.grows.trans h'.grows, (h.listed.grows h'.grows).append h'.listed, ?_⟩
  have htouches : ∀ k n, (log.append log').Touches e.content k n ↔
      log.Touches d.content k n ∨ log'.Touches e.content k n := fun k n => by
    rw [Log.touches_append, h.listed.touches_iff h'.grows h'.exact_right]
  have hfirst := h.blocks
  have hsecond := h'.blocks
  -- either no block is open all the time, or the innermost one is widened twice
  generalize c.blocks = bs at hfirst
  generalize d.blocks = ds at hfirst hsecond
  generalize e.blocks = es at hsecond
  cases hfirst with
  | nil =>
    cases hsecond
    exact .nil
  | cons hspan houter =>
    cases hsecond with
    | cons hspan' houter' =>
      refine .cons (fun k n => ?_) (houter.trans houter')
      rw [hspan', hspan, htouches, or_assoc]

theorem blocks_ne_nil (h : Spans log c d) (hopen : c.blocks ≠ []) : d.blocks ≠ [] := by
  have hblocks := h.blocks
  generalize c.blocks = before at hblocks hopen
  generalize d.blocks = blocks at hblocks
  cases hblocks with
  | nil => exact absurd rfl hopen
  | cons => exact List.cons_ne_nil _ _

/-- Only what the log touches and what it needs counts. -/
theorem congr {log' : Log} (h : Spans log c d) (hlisted : log'.Listed d.content)
    (htouches : ∀ k n, log.Touches d.content k n ↔ log'.Touches d.content k n) :
    Spans log' c d :=
  ⟨h.exact, h.grows, hlisted, h.blocks.congr htouches⟩

end Spans

/-- The items of the innermost block. -/
def openItems (c : Circuit) : List BlockItem := (c.blocks.head?.map (·.items)).getD []

/-- Items that are added widen the span by the bits that go with them. -/
theorem Adds.spans (h : Adds c d) :
    Spans (.ofItems (d.openItems.drop c.openItems.length)) c d := by
  obtain ⟨hexact, hgrows, hitems⟩ := h
  obtain ⟨name, content, blocks⟩ := c
  obtain ⟨name', content', blocks'⟩ := d
  cases hitems with
  | intro items hall hflat hlisted hbits houter =>
    rename_i top top' outer outer'
    have hnew : (openItems ⟨name', content', top' :: outer'⟩).drop
        (openItems ⟨name, content, top :: outer⟩).length = items := by
      show top'.items.drop top.items.length = items
      rw [hall, List.drop_left]
    rw [hnew]
    refine ⟨hexact, hgrows, hlisted, .cons (fun k n => ?_) houter⟩
    have hP := Footprint.splits_bits k n
    -- no block waits in the new items, so the span grows by the footprint alone
    have hwaiting : top'.waiting = top.waiting := by
      rw [Block.waiting, hall, List.flatMap_append, List.flatMap_eq_nil_iff.2 hflat,
        List.append_nil]
      rfl
    rw [Block.span_iff hP, Block.span_iff hP, hwaiting, hbits, or_right_comm]

/-! ## Heads of builders -/

/-- A use by the head of a builder widens the innermost block, if there is one. -/
theorem useInScope_spans {u : ClassicalUse} {is : List Identifier} (hexact : c.content.Exact)
    (h : useInScope u is c = .ok () d) : d.content = c.content ∧
      SpansMore ((Log.ofUse u).Touches c.content) c.blocks d.blocks := by
  obtain ⟨_, v, hclassical, hids⟩ := Edit.bind_eq_ok_iff.1 h
  obtain ⟨hcontent, hall⟩ := each_useIdentifier_leaves (.of_ok hids)
  cases hblocks : c.blocks with
  | nil =>
    -- outside every block a use is checked, but there is nothing to note it in
    obtain ⟨-, rfl⟩ := (useClassical_eq_ok_iff_of_closed hblocks).1 hclassical
    rw [hblocks] at hall
    generalize d.blocks = blocks at hall
    cases hall
    exact ⟨hcontent, .nil⟩
  | cons top outer =>
    obtain ⟨positions, rfl, -, hpositions⟩ := useClassical_open hexact hblocks hclassical
    obtain ⟨top', outer', htop, houter, hd⟩ := List.forall₂_cons_left_iff.1 hall
    rw [hd]
    refine ⟨hcontent, .cons (fun k n => ?_) houter⟩
    have hP := Footprint.splits_bits k n
    rw [htop.span_iff, Log.touches_ofUse, ← hpositions, Block.span_iff hP, Block.span_iff hP]
    cases k with
    | quantum => simp [Block.touch, Footprint.union, Footprint.bits, Distinct.union, Block.waiting]
    | classical =>
      show n ∈ Distinct.union top.footprint.clbits positions ∨ _ ↔ _
      rw [Distinct.mem_union, or_right_comm]
      simp [Block.touch, Footprint.bits, Block.waiting]

/-- A seeded block spans what it is seeded with, all of which is there. -/
theorem seeded_spans {content : Content} {u : ClassicalUse} {ban : Option JumpBan} {b : Block}
    (hexact : content.Exact) (h : Block.seeded content u ban = .ok b) :
    (Log.ofUse u).Listed content ∧
      ∀ k n, n ∈ b.span.bits k ↔ (Log.ofUse u).Touches content k n := by
  obtain ⟨positions, hpositions, h⟩ := Checking.bind_eq_ok_iff.1 h
  cases h
  obtain ⟨hlisted, hpositions⟩ := hexact.resolveAll_iff hpositions
  refine ⟨fun bit hbit => hlisted bit (Log.mem_clbits_ofUse.1 hbit), fun k n => ?_⟩
  rw [Block.span_of_items_eq_nil rfl, Log.touches_ofUse, ← hpositions]
  cases k with
  | quantum => simp [Block.touch, Block.empty, Footprint.empty, Footprint.union, Footprint.bits,
      Distinct.union]
  | classical =>
    show n ∈ Distinct.union [] positions ↔ _
    simp [Distinct.mem_union]

/-- Builders that read clbits all begin in one way. -/
theorem opening_spans {u : ClassicalUse} {is : List Identifier} {check : Except CircuitError Unit}
    {template : Block} (ban : Circuit → Option JumpBan) (hexact : c.content.Exact)
    (h : opening check u is ban c = .ok template d) :
    Spans (.ofUse u) c d ∧
      ∀ k n, n ∈ template.span.bits k ↔ (Log.ofUse u).Touches d.content k n := by
  obtain ⟨huse, hseeded⟩ := opening_eq_ok h
  obtain ⟨hcontent, hblocks⟩ := useInScope_spans hexact huse
  rw [hcontent] at hseeded ⊢
  obtain ⟨hlisted, hspan⟩ := seeded_spans hexact hseeded
  refine ⟨⟨hexact, ?_, ?_, ?_⟩, hspan⟩ <;> rw [hcontent]
  · exact .refl _
  · exact hlisted
  · exact hblocks

/-- A block that is opened empty spans nothing. -/
theorem span_empty (ban : Option JumpBan) (content : Content) (k : BitKind) (n : Nat) :
    n ∈ (Block.empty ban).span.bits k ↔ (Log.ofUse .none).Touches content k n := by
  rw [Block.span_of_items_eq_nil rfl]
  refine iff_of_false ?_ Log.not_touches_none
  cases k <;> exact List.not_mem_nil

/-- The head of a builder leaves the store as it is. What the builder reads is noted in the
innermost block, and in the block that its bodies start from, which spans nothing else. -/
theorem head_spans {σ : Type} {form : Form σ} {template : Block} (hexact : c.content.Exact)
    (h : form.head c = .ok template d) : Spans (.ofUse form.classicalUse) c d ∧
      ∀ k n, n ∈ template.span.bits k ↔ (Log.ofUse form.classicalUse).Touches d.content k n := by
  -- loops over indices and boxes read no clbits
  have hnothing : Spans (.ofUse .none) c c := (Spans.refl hexact).congr Log.listed_none
    fun _ _ => iff_of_false Log.not_touches_empty Log.not_touches_none
  cases form with
  | ifTest condition body | ifElse condition trueBody falseBody | switch target cases =>
    exact opening_spans branchBan hexact h
  | whileLoop condition body => exact opening_spans (fun _ => none) hexact h
  | forLoop indices parameter body =>
    cases h
    exact ⟨hnothing, span_empty none _⟩
  | box duration body =>
    obtain ⟨rfl, ⟨rfl, rfl⟩ | ⟨t, rfl, huse⟩⟩ := openBox_eq_ok h
    · exact ⟨hnothing, span_empty _ _⟩
    · obtain ⟨hcontent, hblocks⟩ := useInScope_spans hexact huse
      exact ⟨⟨hexact, hcontent ▸ .refl _, Log.listed_none, hcontent ▸ hblocks⟩, span_empty _ _⟩

end Circuit

/-! ## Records of builders -/

namespace ControlFlow

variable {flow : ControlFlow}

theorem width_of_checkSameWidth {operation : String} {first other : Circuit}
    (h : checkSameWidth operation first other = .ok ()) : other.width = first.width := by
  unfold checkSameWidth at h
  split at h
  · exact Eq.symm ‹_›
  · cases h

theorem width_of_checkArms {first : Circuit} {seen : List CaseLabel} {arms : List SwitchArm}
    (h : checkArms first seen arms = .ok ()) : ∀ a ∈ arms, a.body.width = first.width := by
  induction arms generalizing seen with
  | nil => exact fun a ha => absurd ha List.not_mem_nil
  | cons a rest ih =>
    obtain ⟨_, -, h⟩ := Checking.bind_eq_ok_iff.1 h
    obtain ⟨hwidth, hrest⟩ := Checking.seq_eq_ok_iff.1 h
    exact List.forall_mem_cons.2 ⟨width_of_checkSameWidth hwidth, ih hrest⟩

end ControlFlow

/-- The operands of one kind. -/
def Instruction.operands (i : Instruction) : BitKind → List Nat
  | .quantum => i.qubits
  | .classical => i.clbits

/-- A record whose operands are the bits that the log has to do with, in increasing order,
and whose bodies are on the same bits. -/
structure Instruction.Spanning (log : Log) (c : Content) (i : Instruction) : Prop where
  increasing : ∀ k, (i.operands k).Pairwise (· < ·)
  mem_iff : ∀ k n, n ∈ i.operands k ↔ log.Touches c k n
  bodies : ∀ body ∈ i.operation.bodies, ∀ k,
    (body.content.bits k).bits.map some = (i.operands k).map (c.bits k).get?

namespace Instruction.Spanning

variable {log : Log} {c d : Content} {i : Instruction} {k : BitKind} {n : Nat}

/-- Only the bits of the store count. -/
theorem congr (h : i.Spanning log c) (hqubits : d.qubits = c.qubits)
    (hclbits : d.clbits = c.clbits) : i.Spanning log d := by
  refine ⟨h.increasing, fun k n => ?_, fun body hbody k => ?_⟩
  · rw [h.mem_iff, Log.touches_congr hclbits]
  · rw [h.bodies body hbody]
    cases k
    · exact congrArg (List.map ·.get? i.qubits) hqubits.symm
    · exact congrArg (List.map ·.get? i.clbits) hclbits.symm

/-- What the record needs besides its operands is among them, if the log has all that the
record reads itself. -/
theorem touches_iff (h : i.Spanning log c) (hexact : c.Exact)
    (hreads : ∀ bit ∈ i.operation.classicalUse.allClbits, bit ∈ log.clbits)
    (hbodies : ∀ body ∈ i.operation.bodies, body.content.Exact) :
    (Log.ofItems [.record i]).Touches c k n ↔ log.Touches c k n := by
  rw [← h.mem_iff]
  cases k with
  | quantum => simp [Log.Touches, Log.ofItems, BlockItem.record?, operands]
  | classical =>
    refine ⟨?_, fun hn => .inl ⟨i, List.mem_singleton_self i, hn⟩⟩
    rintro (⟨_, hi, hn⟩ | ⟨bit, hbit, hn⟩)
    · exact List.mem_singleton.1 hi ▸ hn
    simp only [Log.clbits, Log.ofItems, BlockItem.record?, List.filterMap_cons, List.filterMap_nil,
      List.flatMap_cons, List.flatMap_nil, List.append_nil, classicalFootprint,
      ClassicalUse.allClbits, ClassicalUse.append, List.flatMap_append, List.mem_append] at hbit
    rcases hbit with hbit | hbit | hbit
    · exact (h.mem_iff .classical n).2 (.inr ⟨bit, hreads bit (List.mem_append_left _ hbit), hn⟩)
    · exact (h.mem_iff .classical n).2 (.inr ⟨bit, hreads bit (List.mem_append_right _ hbit), hn⟩)
    -- a register of a body has its bits in the body, and so at operands
    · obtain ⟨r, hr, hbit⟩ := List.mem_flatMap.1 hbit
      obtain ⟨body, hbody, hr⟩ := List.mem_flatMap.1 hr
      have hmem : some bit ∈ (i.operands .classical).map c.clbits.get? := by
        rw [show (i.operands .classical).map c.clbits.get? = _ from
          (h.bodies body hbody .classical).symm]
        exact List.mem_map_of_mem ((hbodies body hbody).clbits.sound.members r hr bit hbit)
      obtain ⟨m, hm, hget⟩ := List.mem_map.1 hmem
      have hsame : m = n := Option.some.inj
        (((hexact.clbits.indexOf?_eq_some_iff).2 hget).symm.trans
          ((hexact.clbits.indexOf?_eq_some_iff).2 hn))
      exact hsame ▸ hm

end Instruction.Spanning

namespace Circuit.Closing

variable {k : Closing} {root : Content} {f : Footprint} {flow : ControlFlow} {c d : Circuit}
  {log : Log}

/-- The clbits and registers that the operation itself reads. -/
def classicalUse : Closing → ClassicalUse
  | ifElse condition _ _ | whileLoop condition _ => condition.classicalUse
  | switch target _ => target.classicalUse
  | forLoop _ _ _ | box _ _ => .none

theorem classicalUse_of_make (h : k.make root f = .ok flow) :
    flow.classicalUse = k.classicalUse := by
  cases becomes_of_make h <;> rfl

end Circuit.Closing

/-- The end of a builder reads what the builder reads. -/
theorem Builder.Form.Closes.classicalUse {σ : Type} {tried : Bool} {form : Form σ}
    {blocks : List Block} {k : Closing} (h : Form.Closes tried form blocks k) :
    k.classicalUse = form.classicalUse := by
  cases h <;> rfl

namespace Circuit.Closing

variable {k : Closing} {root : Content} {f : Footprint} {flow : ControlFlow} {c d : Circuit}
  {log : Log}

/-- All bodies of an operation are as wide as it is. -/
theorem width_of_make (h : k.make root f = .ok flow) :
    ∀ body ∈ flow.bodies, body.width = (flow.numQubits, flow.numClbits) := by
  intro body hbody
  cases k with
  | ifElse condition t e =>
    obtain ⟨first, -, h⟩ := Checking.bind_eq_ok_iff.1 h
    obtain ⟨other, -, h⟩ := Checking.bind_eq_ok_iff.1 h
    obtain rfl := ControlFlow.makeIfElse_eq_ok h
    rcases List.mem_cons.1 hbody with rfl | hbody
    · rfl
    obtain rfl := Option.mem_toList.1 hbody
    obtain ⟨-, h⟩ := Checking.seq_eq_ok_iff.1 h
    obtain ⟨hwidth, -⟩ := Checking.seq_eq_ok_iff.1 h
    exact ControlFlow.width_of_checkSameWidth hwidth
  | switch target arms =>
    obtain ⟨closed, -, h⟩ := Checking.bind_eq_ok_iff.1 h
    obtain rfl := ControlFlow.makeSwitch_eq_ok h
    obtain ⟨arm, harm, rfl⟩ := List.mem_map.1 hbody
    obtain ⟨-, h⟩ := Checking.seq_eq_ok_iff.1 h
    cases closed with
    | nil => cases harm
    | cons first rest =>
      obtain ⟨hwidths, -⟩ := Checking.seq_eq_ok_iff.1 h
      exact ControlFlow.width_of_checkArms hwidths arm harm
  | whileLoop condition b =>
    obtain ⟨_, -, h⟩ := Checking.bind_eq_ok_iff.1 h
    obtain ⟨-, h⟩ := Checking.seq_eq_ok_iff.1 h
    cases h
    exact List.mem_singleton.1 hbody ▸ rfl
  | forLoop indices parameter b =>
    obtain ⟨_, -, h⟩ := Checking.bind_eq_ok_iff.1 h
    cases h
    exact List.mem_singleton.1 hbody ▸ rfl
  | box duration b =>
    obtain ⟨_, -, h⟩ := Checking.bind_eq_ok_iff.1 h
    obtain rfl := ControlFlow.makeBox_eq_ok h
    exact List.mem_singleton.1 hbody ▸ rfl

/-- The switch without a case is refused at its end. -/
theorem blocks_ne_nil_of_ok (h : k.run c = .ok () d) : k.blocks ≠ [] := by
  cases k with
  | switch target arms =>
    obtain ⟨_, _, hcheck, -⟩ := Edit.bind_eq_ok_iff.1 h
    obtain ⟨harms, -⟩ := Edit.ofExcept_eq_ok_iff.1 hcheck
    have hne : arms ≠ [] := fun hnil => by simp [hnil, refuseIf] at harms
    exact fun hnil => hne (List.map_eq_nil_iff.1 hnil)
  | _ => exact List.cons_ne_nil _ _

/-- Blocks that are closed over their own span become the bodies of a record on the bits
there. -/
theorem spanning_of_make (hmake : k.make root k.span.sorted = .ok flow)
    (hshape : (Instruction.make (.control flow) k.span.sorted.qubits
      k.span.sorted.clbits).checkShape = .ok ())
    (hspan : ∀ x n, n ∈ k.span.bits x ↔ log.Touches root x n) :
    (Instruction.make (.control flow) k.span.sorted.qubits k.span.sorted.clbits).Spanning log
      root := by
  obtain ⟨⟨-, hwidth⟩, hqubits, hclbits⟩ := Instruction.checkShape_eq_ok_iff.1 hshape
  refine ⟨fun x => ?_, fun x n => ?_, fun body hbody x => ?_⟩
  · cases x with
    | quantum => exact Sorting.increasing_sort hqubits
    | classical => exact Sorting.increasing_sort hclbits
  · rw [← hspan]
    cases x <;> exact (Sorting.perm_sort _ _).mem_iff
  obtain ⟨b, -, role, hclose⟩ := Checking.exists_left (make_eq_ok hmake).2 hbody
  obtain ⟨hq, ⟨own, extra, hown, hc⟩, -, -⟩ := Block.close_bits hclose
  cases x with
  | quantum => exact hq.symm
  | classical =>
    -- the record is as wide as its bodies, so registers brought no bits
    have hbody' : own.length + extra.length = k.span.sorted.clbits.length := by
      have hlength := congrArg List.length hown
      rw [List.length_append] at hlength
      exact hlength.symm.trans ((congrArg Prod.snd (width_of_make hmake body hbody)).trans
        hwidth.symm)
    have hlength : k.span.sorted.clbits.length = own.length := by
      simpa using congrArg List.length hc
    obtain rfl : extra = [] := List.length_eq_zero_iff.1 (by omega)
    show body.content.clbits.bits.map some = k.span.sorted.clbits.map root.clbits.get?
    rw [hown, List.append_nil, hc]

/-- What waits is no record yet. -/
theorem item?_ne_record {i : Instruction} : k.item? ≠ some (.record i) := by
  intro h
  cases k <;> simp only [item?] at h
  · split at h <;> cases h
  · cases h
  · cases h
  · split at h <;> cases h
  · cases h

/-- Blocks that are left to wait widen the block around them by all that they span. -/
theorem waiting_spans {item : BlockItem} (hexact : c.content.Exact) (hlisted : log.Listed c.content)
    (hspan : ∀ x n, (∃ b ∈ k.blocks, n ∈ b.span.bits x) ↔ log.Touches c.content x n)
    (hitem : k.item? = some item) (hopen : c.blocks ≠ []) :
    Spans log c (c.onTop (·.snoc item)) ∧
      ∀ r, (c.onTop (·.snoc item)).last? = some r → r.Spanning log c.content := by
  obtain ⟨-, hblocks, -⟩ := item?_eq_some (c := c) hitem
  obtain ⟨name, content, blocks⟩ := c
  cases blocks with
  | nil => exact absurd rfl hopen
  | cons top outer =>
    refine ⟨⟨hexact, .refl _, hlisted, .cons (fun x n => ?_) (.refl outer)⟩, fun r hr => ?_⟩
    · show n ∈ (top.snoc item).span.bits x ↔ n ∈ top.span.bits x ∨ log.Touches content x n
      have hP := Footprint.splits_bits x n
      -- the blocks wait in the block around them now, and count for its span there
      have hwaiting : (top.snoc item).waiting = top.waiting ++ k.blocks := by
        simp [Block.waiting, Block.snoc, hblocks]
      rw [← hspan x n, Block.span_iff hP, Block.span_iff hP, hwaiting]
      simp only [List.mem_append, or_and_right, exists_or, or_assoc]
      rfl
    · simp only [last?, onTop, Block.snoc, List.getLast?_concat] at hr
      cases item with
      | record i => exact absurd hitem item?_ne_record
      | _ => cases hr

/-- A record with the bits that blocks span widens the block around it by these bits. -/
theorem finished_spans (hexact : c.content.Exact) (hlisted : log.Listed c.content)
    (hreads : ∀ bit ∈ k.classicalUse.allClbits, bit ∈ log.clbits)
    (hspan : ∀ x n, (∃ b ∈ k.blocks, n ∈ b.span.bits x) ↔ log.Touches c.content x n)
    (hmake : k.make c.content k.span.sorted = .ok flow)
    (h : append (.make (.control flow) k.span.sorted.qubits k.span.sorted.clbits) c = .ok () d) :
    Spans log c d ∧ ∀ r, d.last? = some r → r.Spanning log d.content := by
  have hall : ∀ x n, n ∈ k.span.bits x ↔ log.Touches c.content x n := fun x n =>
    (span_iff (Footprint.splits_bits x n)).trans (hspan x n)
  cases hblocks : c.blocks with
  | nil =>
    obtain ⟨hcheck, rfl⟩ := (append_eq_ok_iff_of_closed hblocks).1 h
    have hspanning := spanning_of_make hmake
      (Content.checkOperands_eq_ok_iff.1 (Checking.seq_eq_ok_iff.1 hcheck).1).2 hall
    obtain ⟨name, content, blocks⟩ := c
    cases hblocks
    refine ⟨⟨hexact, .of_bits rfl rfl, hlisted, .nil⟩, fun r hr => ?_⟩
    obtain rfl := Option.some.inj (hr.symm.trans List.getLast?_concat)
    exact hspanning.congr rfl rfl
  | cons top outer =>
    obtain ⟨hcontent, hcheck, -, top', outer', hd, htop, houter⟩ := append_eq_ok hexact hblocks h
    have hspanning := spanning_of_make hmake (Content.checkOperands_eq_ok_iff.1 hcheck).2 hall
    refine ⟨⟨hexact, hcontent ▸ .refl _, hcontent ▸ hlisted, ?_⟩, fun r hr => ?_⟩
    · rw [hblocks, hd, hcontent]
      refine .cons (fun x n => ?_) houter
      have hP := Footprint.splits_bits x n
      have hwaiting : top'.waiting = top.waiting := by
        rw [Block.waiting, htop.items, List.flatMap_append]
        exact List.append_nil _
      -- the record brings its operands, and what the operation and its bodies read; all that is
      -- in the log already
      have hreads' : ∀ bit ∈ flow.classicalUse.allClbits, bit ∈ log.clbits :=
        classicalUse_of_make hmake ▸ hreads
      have hbodies : ∀ body ∈ flow.bodies, body.content.Exact := by
        intro body hbody
        obtain ⟨b, -, role, hclose⟩ := Checking.exists_left (make_eq_ok hmake).2 hbody
        exact (Block.close_bits hclose).2.2.2
      rw [Block.span_iff hP, Block.span_iff hP, hwaiting, htop.bits,
        hspanning.touches_iff hexact hreads' hbodies, or_right_comm]
    · rw [last?, hd] at hr
      simp only [htop.items, List.getLast?_concat] at hr
      cases hr
      rwa [hcontent]

/-- At its end a builder adds to the block around it what its own blocks span. If it is
finished then, its record is on these bits. -/
theorem spans (hexact : c.content.Exact) (hlisted : log.Listed c.content)
    (hreads : ∀ bit ∈ k.classicalUse.allClbits, bit ∈ log.clbits)
    (hspan : ∀ x n, (∃ b ∈ k.blocks, n ∈ b.span.bits x) ↔ log.Touches c.content x n)
    (h : k.run c = .ok () d) :
    Spans log c d ∧ ∀ r, d.last? = some r → r.Spanning log d.content := by
  rcases run_eq_ok h with ⟨item, hitem, hopen, rfl⟩ | ⟨-, flow, hmake, happend⟩
  · rw [onTop_content]
    exact waiting_spans hexact hlisted hspan hitem hopen
  · exact finished_spans hexact hlisted hreads hspan hmake happend

end Circuit.Closing

end QuantumCircuit
