import QuantumCircuit.Proofs.Closing
import QuantumCircuit.Proofs.Positions
import QuantumCircuit.Proofs.Reach

/-!
# What calls add to the innermost block

Any call that is made while a block is open, refused or not, leaves the blocks around the
innermost one as they were but for captures, and puts records and jumps at the end of the
innermost one. The bits in its footprint grow by the operands of those records and by the
clbits that they need besides, and by nothing else (`Circuit.Call.adds`).

What is added is kept in a log (`Builder.Log`).
-/

namespace QuantumCircuit

/-- The positions of one kind in a footprint. -/
def Footprint.bits (f : Footprint) : BitKind → List Nat
  | .quantum => f.qubits
  | .classical => f.clbits

theorem Footprint.splits_bits (k : BitKind) (n : Nat) : Splits (n ∈ ·.bits k) := by
  cases k with
  | quantum => exact ⟨fun _ _ => Distinct.mem_union n _ _, List.not_mem_nil⟩
  | classical => exact ⟨fun _ _ => Distinct.mem_union n _ _, List.not_mem_nil⟩

/-! ## Logs -/

namespace Builder

/-- Records that were appended, and what was read besides. -/
structure Log where
  appended : List Instruction
  read : List ClassicalUse

namespace Log

/-- Nothing was appended or read. -/
def empty : Log := ⟨[], []⟩

/-- What came first, then what came later. -/
def append (a b : Log) : Log := ⟨a.appended ++ b.appended, a.read ++ b.read⟩

/-- The clbits that are needed besides the operands. -/
def clbits (log : Log) : List Clbit :=
  log.appended.flatMap (·.classicalFootprint.allClbits) ++ log.read.flatMap (·.allClbits)

/-- That the log has to do with the position in the store. -/
def Touches (log : Log) (c : Content) : BitKind → Nat → Prop
  | .quantum, n => ∃ i ∈ log.appended, n ∈ i.qubits
  | .classical, n => (∃ i ∈ log.appended, n ∈ i.clbits) ∨
      ∃ bit ∈ log.clbits, c.clbits.get? n = some bit

/-- That the clbits needed besides the operands are there. -/
def Listed (log : Log) (c : Content) : Prop := ∀ bit ∈ log.clbits, bit ∈ c.clbits.bits

variable {a b log : Log} {c d : Content} {k : BitKind} {n : Nat}

theorem append_empty (log : Log) : log.append empty = log := by
  simp [append, empty]

theorem empty_append (log : Log) : empty.append log = log := rfl

theorem append_assoc (a b c : Log) : (a.append b).append c = a.append (b.append c) := by
  simp [append]

@[simp] theorem not_touches_empty : ¬ empty.Touches c k n := by
  cases k <;> simp [Touches, empty, clbits]

theorem listed_empty : empty.Listed c := fun _ h => absurd h List.not_mem_nil

theorem mem_clbits_append {bit : Clbit} :
    bit ∈ (a.append b).clbits ↔ bit ∈ a.clbits ∨ bit ∈ b.clbits := by
  simp only [append, clbits, List.flatMap_append, List.mem_append]
  exact or_or_or_comm

/-- Only the clbits of the store count. -/
theorem touches_congr (h : d.clbits = c.clbits) : log.Touches d k n ↔ log.Touches c k n := by
  cases k with
  | quantum => exact Iff.rfl
  | classical => rw [Touches, Touches, h]

theorem touches_append : (a.append b).Touches c k n ↔ a.Touches c k n ∨ b.Touches c k n := by
  cases k with
  | quantum => simp only [Touches, append, List.mem_append, or_and_right, exists_or]
  | classical =>
    simp only [Touches, mem_clbits_append, or_and_right, exists_or]
    simp only [append, List.mem_append, or_and_right, exists_or]
    exact or_or_or_comm

theorem Listed.append (ha : a.Listed c) (hb : b.Listed c) : (a.append b).Listed c :=
  fun bit hbit => (mem_clbits_append.1 hbit).elim (ha bit) (hb bit)

theorem Listed.grows (h : log.Listed c) (hcd : c.Grows d) : log.Listed d :=
  fun bit hbit => hcd.clbits.bits.subset (h bit hbit)

/-- What a log has to do with stays so while the store grows. -/
theorem Listed.touches_iff (h : log.Listed c) (hcd : c.Grows d) (hd : d.Exact) :
    log.Touches d k n ↔ log.Touches c k n := by
  cases k with
  | quantum => exact Iff.rfl
  | classical =>
    refine or_congr_right (exists_congr fun bit => and_congr_right fun hbit => ?_)
    exact hcd.clbits.get?_iff hd.clbits (h bit hbit)

end Log

end Builder

open Builder (Log)

/-- The record that the item is, if it is one. -/
def BlockItem.record? : BlockItem → Option Instruction
  | .record i => some i
  | _ => none

/-- The log of items that were added. -/
def Builder.Log.ofItems (items : List BlockItem) : Log := ⟨items.filterMap (·.record?), []⟩

theorem Builder.Log.ofItems_append (xs ys : List BlockItem) :
    ofItems (xs ++ ys) = (ofItems xs).append (ofItems ys) := by
  simp [ofItems, Log.append]

/-! ## Blocks that stay -/

/-- The same items and the same bits; captures and locals may be others. -/
structure Block.Steady (b b' : Block) : Prop where
  items : b'.items = b.items
  bits : ∀ k, b'.footprint.bits k = b.footprint.bits k

theorem Block.Steady.refl (b : Block) : b.Steady b := ⟨rfl, fun _ => rfl⟩

theorem Block.Steady.trans {a b c : Block} (hab : a.Steady b) (hbc : b.Steady c) : a.Steady c :=
  ⟨hbc.items.trans hab.items, fun k => (hbc.bits k).trans (hab.bits k)⟩

/-- A block that stays spans the same bits. -/
theorem Block.Steady.span_iff {b b' : Block} (h : b.Steady b') {k : BitKind} {n : Nat} :
    n ∈ b'.span.bits k ↔ n ∈ b.span.bits k := by
  have hP := Footprint.splits_bits k n
  rw [Block.span_iff hP, Block.span_iff hP, h.bits, Block.waiting, Block.waiting, h.items]

/-- That blocks stay, one by one. -/
def StayAll : List Block → List Block → Prop := List.Forall₂ Block.Steady

namespace StayAll

variable {bs cs ds : List Block}

theorem refl (bs : List Block) : StayAll bs bs := by
  induction bs with
  | nil => exact .nil
  | cons b rest ih => exact .cons (.refl b) ih

theorem trans (h : StayAll bs cs) (h' : StayAll cs ds) : StayAll bs ds := by
  induction h generalizing ds with
  | nil =>
    cases h'
    exact .nil
  | cons hb _ ih =>
    cases h' with
    | cons hc hrest => exact .cons (hb.trans hc) (ih hrest)

/-- A use puts captures down, and nothing else. -/
theorem captureThrough (i : Identifier) (bs : List Block) :
    StayAll bs (captureThrough i bs) := by
  induction bs with
  | nil => exact .nil
  | cons b rest ih =>
    by_cases hresolves : b.resolves i
    · rw [captureThrough_of_resolves hresolves]
      exact refl _
    · rw [captureThrough_of_not_resolves hresolves]
      exact .cons ⟨rfl, fun k => by cases k <;> rfl⟩ ih

end StayAll

/-- A block with a record that was added, and the bits that go with it. -/
structure Block.Appended (c : Content) (i : Instruction) (b b' : Block) : Prop where
  items : b'.items = b.items ++ [.record i]
  bits : ∀ k n, n ∈ b'.footprint.bits k ↔
    n ∈ b.footprint.bits k ∨ (Log.ofItems [.record i]).Touches c k n

/-! ## Adding -/

/-- That the innermost of `blocks` has got items at its end, and the bits that go with them. -/
inductive AddsItems (c : Content) : List Block → List Block → Prop
  | intro (items : List BlockItem) {top top' : Block} {outer outer' : List Block} :
      top'.items = top.items ++ items → (∀ item ∈ items, item.blocks = []) →
      (Log.ofItems items).Listed c →
      (∀ k n, n ∈ top'.footprint.bits k ↔
        n ∈ top.footprint.bits k ∨ (Log.ofItems items).Touches c k n) →
      StayAll outer outer' → AddsItems c (top :: outer) (top' :: outer')

namespace Circuit

variable {α : Type} {base c d e : Circuit} {i : Instruction}

/-- That the circuit goes on from `c` by items that are added to the innermost block. -/
structure Adds (c d : Circuit) : Prop where
  exact : c.content.Exact
  grows : c.content.Grows d.content
  items : AddsItems d.content c.blocks d.blocks

namespace Adds

/-- Where no item is added, no bit is. -/
theorem of_stay (hexact : c.content.Exact) (hopen : c.blocks ≠ [])
    (hgrows : c.content.Grows d.content) (h : StayAll c.blocks d.blocks) : Adds c d := by
  refine ⟨hexact, hgrows, ?_⟩
  generalize c.blocks = blocks at h hopen
  generalize d.blocks = blocks' at h
  cases h with
  | nil => exact absurd rfl hopen
  | cons htop houter =>
    refine .intro [] (by rw [htop.items, List.append_nil]) (fun _ hi => absurd hi List.not_mem_nil)
      Log.listed_empty (fun k n => ?_) houter
    rw [htop.bits]
    exact (or_iff_left Log.not_touches_empty).symm

theorem refl (hexact : c.content.Exact) (hopen : c.blocks ≠ []) : Adds c c :=
  of_stay hexact hopen (.refl _) (.refl _)

theorem blocks_ne_nil (h : Adds c d) : d.blocks ≠ [] := by
  have hitems := h.items
  generalize c.blocks = before at hitems
  generalize d.blocks = blocks at hitems
  cases hitems
  exact List.cons_ne_nil _ _

theorem trans (h : Adds c d) (h' : Adds d e) : Adds c e := by
  obtain ⟨hexact, hcd, hitems⟩ := h
  obtain ⟨hd, hde, hitems'⟩ := h'
  refine ⟨hexact, hcd.trans hde, ?_⟩
  generalize c.blocks = bs at hitems
  generalize d.blocks = ds at hitems hitems'
  generalize e.blocks = es at hitems'
  obtain ⟨xs, hxs, hxsFlat, hxsListed, hxsBits, houter⟩ := hitems
  obtain ⟨ys, hys, hysFlat, hysListed, hysBits, houter'⟩ := hitems'
  refine .intro (xs ++ ys) ?_ ?_ ?_ (fun k n => ?_) (houter.trans houter')
  · rw [hys, hxs, List.append_assoc]
  · exact List.forall_mem_append.2 ⟨hxsFlat, hysFlat⟩
  · rw [Log.ofItems_append]
    exact (hxsListed.grows hde).append hysListed
  · rw [hysBits, hxsBits, Log.ofItems_append, Log.touches_append,
      hxsListed.touches_iff hde (hde.exact hd), or_assoc]

theorem keeps {edit : Edit Circuit α}
    (h : ∀ c d, c.content.Exact → c.blocks ≠ [] → edit.Leaves c d → Adds c d) :
    edit.Keeps base.Adds := fun c d hc hd =>
  hc.trans (h c d (hc.grows.exact hc.exact) hc.blocks_ne_nil hd)

/-- An edit of the store under the open blocks. -/
theorem within {edit : Edit Content α} (h : ∀ c : Content, edit.Keeps c.Grows) :
    (Edit.within contentFocus edit).Keeps base.Adds := by
  refine keeps fun c d hexact hopen hd => ?_
  obtain ⟨u, hu, rfl⟩ := Edit.leaves_within_iff.1 hd
  exact of_stay hexact hopen (h _ _ u (.refl _) hu) (.refl _)

theorem useIdentifier (j : Identifier) : (Circuit.useIdentifier j).Keeps base.Adds := by
  refine keeps fun c d hexact hopen hd => ?_
  rcases useIdentifier_leaves hd with rfl | rfl
  · exact refl hexact hopen
  · exact of_stay hexact hopen (.refl _) (.captureThrough j _)

theorem declare (j : Identifier) : (Circuit.declare j).Keeps base.Adds := by
  refine keeps fun c d hexact hopen hd => ?_
  obtain ⟨name, content, blocks⟩ := c
  cases blocks with
  | nil => exact absurd rfl hopen
  | cons top outer =>
    rcases declare_leaves_of_open rfl hd with rfl | rfl
    · exact refl hexact hopen
    · exact of_stay hexact hopen (.refl _) (.cons ⟨rfl, fun _ => rfl⟩ (StayAll.refl outer))

theorem jump (j : Jump) : (Circuit.jump j).Keeps base.Adds := by
  refine keeps fun c d hexact hopen hd => ?_
  obtain ⟨name, content, blocks⟩ := c
  cases blocks with
  | nil => exact absurd rfl hopen
  | cons top outer =>
    rcases jump_leaves_of_open (List.cons_ne_nil _ _) hd with rfl | rfl
    · exact refl hexact hopen
    · refine ⟨hexact, .refl _, .intro [.jump j] rfl ?_ Log.listed_empty (fun k n => ?_)
        (StayAll.refl outer)⟩
      · exact fun item hitem => List.mem_singleton.1 hitem ▸ rfl
      · exact (or_iff_left Log.not_touches_empty).symm

end Adds

/-! ### Records -/

/-- A use of clbits that answers in a block puts their positions down there. -/
theorem useClassical_open {u : ClassicalUse} {top : Block} {outer : List Block}
    (hexact : c.content.Exact) (hblocks : c.blocks = top :: outer)
    (h : useClassical u c = .ok () d) : ∃ positions,
      d = ⟨c.name, c.content, top.touch ⟨[], positions, u.registers, []⟩ :: outer⟩ ∧
      (∀ bit ∈ u.allClbits, bit ∈ c.content.clbits.bits) ∧
      ∀ n, n ∈ positions ↔ ∃ bit ∈ u.allClbits, c.content.clbits.get? n = some bit := by
  have hopen : c.blocks ≠ [] := hblocks ▸ List.cons_ne_nil _ _
  obtain ⟨positions, hpositions, rfl⟩ := (useClassical_eq_ok_iff_of_open hopen).1 h
  obtain ⟨-, hpositions⟩ := Checking.seq_eq_ok_iff.1 hpositions
  exact ⟨positions, onTop_of_blocks hblocks _, hexact.resolveAll_iff hpositions⟩

/-- As long as identifiers are used the blocks stay. -/
theorem each_useIdentifier_leaves {is : List Identifier}
    (h : (Edit.each useIdentifier is).Leaves c d) :
    d.content = c.content ∧ StayAll c.blocks d.blocks := by
  refine (Edit.Keeps.each (P := fun d => d.content = c.content ∧ StayAll c.blocks d.blocks)
    (fun j _ => ?_)) c d ⟨rfl, .refl _⟩ h
  intro s t hs ht
  rcases useIdentifier_leaves ht with rfl | rfl
  · exact hs
  · exact ⟨hs.1, hs.2.trans (.captureThrough j _)⟩

/-- A record that a block refuses leaves no trace but captures. -/
theorem append_eq_error {cause : CircuitError} (hopen : c.blocks ≠ [])
    (h : append i c = .error cause d) : d.content = c.content ∧ StayAll c.blocks d.blocks := by
  rw [append_of_open hopen] at h
  rcases Edit.bind_eq_error_iff.1 h with h | ⟨_, u, hcheck, h⟩
  · obtain ⟨-, rfl⟩ := Edit.ofExcept_eq_error_iff.1 h
    exact ⟨rfl, .refl _⟩
  obtain ⟨-, rfl⟩ := Edit.ofExcept_eq_ok_iff.1 hcheck
  rcases Edit.bind_eq_error_iff.1 h with h | ⟨_, u, huse, h⟩
  · exact each_useIdentifier_leaves (.of_error h)
  rcases Edit.bind_eq_error_iff.1 h with h | ⟨_, v, -, h⟩
  · obtain ⟨-, rfl⟩ := Edit.update_eq_error_iff.1 h
    exact each_useIdentifier_leaves (.of_ok huse)
  · cases h

/-- A record that a block takes comes in with all that it needs besides its operands. -/
theorem append_eq_ok {top : Block} {outer : List Block} (hexact : c.content.Exact)
    (hblocks : c.blocks = top :: outer) (h : append i c = .ok () d) :
    d.content = c.content ∧ c.content.checkOperands i = .ok () ∧
      (Log.ofItems [.record i]).Listed c.content ∧
      ∃ top' outer', d.blocks = top' :: outer' ∧ top.Appended c.content i top' ∧
        StayAll outer outer' := by
  obtain ⟨hcheck, u, v, huse, hclassical, rfl⟩ :=
    append_eq_ok_of_open (hblocks ▸ List.cons_ne_nil _ _) h
  obtain ⟨hcontent, hall⟩ := each_useIdentifier_leaves (.of_ok huse)
  rw [hblocks] at hall
  obtain ⟨top', outer', htop, houter, hu⟩ := List.forall₂_cons_left_iff.1 hall
  obtain ⟨positions, rfl, hlisted, hpositions⟩ :=
    useClassical_open (hcontent ▸ hexact) hu hclassical
  rw [hcontent] at hlisted hpositions
  -- the block has been widened by what the record reads, then by its operands
  refine ⟨hcontent, ?_, ?_, (top'.touch ⟨[], positions, i.classicalFootprint.registers, []⟩).touch
    ⟨i.qubits, i.clbits, [], []⟩ |>.snoc (.record i), outer', rfl, ⟨?_, fun k n => ?_⟩, houter⟩
  · unfold checkAppend at hcheck
    rw [hblocks] at hcheck
    exact (Checking.seq_eq_ok_iff.1 hcheck).1
  · simpa [Log.Listed, Log.clbits, Log.ofItems, BlockItem.record?] using hlisted
  · exact congrArg (· ++ [.record i]) htop.items
  · rw [← htop.bits k]
    -- clbits that are read count as well, qubits are only operated on
    cases k with
    | quantum =>
      show n ∈ Distinct.union (Distinct.union top'.footprint.qubits []) i.qubits ↔ _
      simp [Distinct.mem_union, Footprint.bits, Log.Touches, Log.ofItems, BlockItem.record?]
    | classical =>
      show n ∈ Distinct.union (Distinct.union top'.footprint.clbits positions) i.clbits ↔ _
      simp only [Distinct.mem_union, hpositions]
      simp [Footprint.bits, Log.Touches, Log.ofItems, BlockItem.record?, Log.clbits, or_comm,
        or_left_comm]

namespace Adds

theorem append (i : Instruction) : (Circuit.append i).Keeps base.Adds := by
  refine keeps fun c d hexact hopen hd => ?_
  rcases hd with ⟨_, hd⟩ | ⟨cause, hd⟩
  · obtain ⟨top, outer, hblocks⟩ := List.exists_cons_of_ne_nil hopen
    obtain ⟨hcontent, -, hlisted, top', outer', hd, htop, houter⟩ :=
      append_eq_ok hexact hblocks hd
    refine ⟨hexact, hcontent ▸ .refl _, ?_⟩
    rw [hblocks, hd, hcontent]
    refine .intro [.record i] htop.items (fun item hitem => ?_) hlisted htop.bits houter
    exact List.mem_singleton.1 hitem ▸ rfl
  · obtain ⟨hcontent, hall⟩ := append_eq_error hopen hd
    exact of_stay hexact hopen (hcontent ▸ .refl _) hall

/-! ### Calls -/

theorem keepingBlocks {edit : Edit Circuit Unit} (h : ∀ base : Circuit, edit.Keeps base.Adds) :
    (Circuit.keepingBlocks edit).Keeps base.Adds := by
  refine keeps fun c d hexact hopen hd => ?_
  have hedit : ∀ u, edit.Leaves c u → Adds c u := fun u hu => h c c u (refl hexact hopen) hu
  rcases hd with ⟨_, hd⟩ | ⟨cause, hd⟩
  · exact hedit d (.of_ok (keepingBlocks_eq_ok_iff.1 hd))
  · obtain ⟨u, hu, rfl⟩ := keepingBlocks_eq_error_iff.1 hd
    exact of_stay hexact hopen (hedit u (.of_error hu)).grows (.refl _)

theorem addSplice (source : Content) (front : Bool) (s : Splice) (c : Content) :
    (Content.addSplice source front s).Keeps c.Grows :=
  Content.addSplice_keeps (fun _ => Content.Grows.addBit _) (fun _ => Content.Grows.addRegister _)
    (fun _ _ => Content.Grows.addIdentifier _ _)
    (Content.addRecords_keeps (Content.Grows.insertFront _) (fun i _ => Content.Grows.push i) front)
    fun _ => Content.Grows.setPhase _

theorem compose (source : Circuit) (o : ComposeOptions) :
    (Circuit.compose source o).Keeps base.Adds := by
  refine .read fun c => .ofExcept_bind fun p _ => ?_
  split
  · refine .ofExcept_bind fun op _ => ?_
    have hclbits : ∀ b : Content, (Content.addClbitsOf source.content).Keeps b.Grows := fun _ =>
      Content.addClbitsOf_keeps (fun _ => Content.Grows.addBit _)
        (fun _ => Content.Grows.addRegister _) _
    refine ((within hclbits).onlyIf _).bind fun _ => ?_
    split
    · exact within fun _ => Content.Grows.insertFront _
    · exact append _
  · refine .ofExcept_bind fun s _ => ?_
    split
    · refine (Edit.Keeps.ofExcept _).bind fun _ => keepingBlocks fun _ => ?_
      refine (Edit.Keeps.each fun i _ => useIdentifier i).bind fun _ => ?_
      exact (Edit.Keeps.each fun i _ => declare i).bind fun _ => .each fun i _ => append i
    · exact within (addSplice source.content o.front s)

end Adds

/-- Every call that is made in a block adds to it, and leaves the blocks around as they were. -/
theorem Call.adds (k : Call) : k.run.Keeps base.Adds := by
  by_cases hscope : k.OnScope
  · exact Call.keeps_of_onScope hscope (k.first_keeps Adds.declare Adds.jump) fun r _ =>
      Adds.append r
  cases k with
  | store k => exact Adds.within fun _ => Content.Grows.call k
  | rename name =>
    exact .modify fun c hc => hc.trans
      (.of_stay (hc.grows.exact hc.exact) hc.blocks_ne_nil (.refl _) (.refl _))
  | addOuter i kind =>
    refine Adds.keeps fun c d hexact hopen hd => ?_
    obtain rfl := addOuter_of_open hopen hd
    exact .refl hexact hopen
  | addLoose k count stamp =>
    exact Edit.Keeps.bind
      (.mapM fun _ _ => Adds.within fun _ => Content.Grows.addBit _) fun _ => .pure ()
  | measureAll stamp =>
    refine Adds.keeps fun c d hexact hopen hd => ?_
    obtain rfl := measureAll_of_open hopen hd
    exact .refl hexact hopen
  | compose source o => exact Adds.compose source o
  | append _ | appendHandles _ | appendOperation _ _ _ | barrier _ | barrierAll | delay _ _
  | write _ _ | addVar _ _ | declare _ | jump _ => exact absurd trivial hscope

end Circuit

end QuantumCircuit
