import QuantumCircuit.Proofs.Primitives
import QuantumCircuit.Proofs.Scoping

/-!
# What the calls in a scope put down as captures

A call in a scope leaves the store alone, adds to the innermost block, and widens the
footprints of the blocks around it; identifiers that it uses are captured by every block
inside the scope that declares them (`Onward`). Calls one after another put down what
they put down together (`Circuit.Proceeds.trans`), and the stack stays well scoped.
-/

namespace QuantumCircuit

/-! ## Stacks that have moved on -/

/-- The same block with more in its footprint. -/
structure Block.Widened (b b' : Block) : Prop where
  locals : b'.locals = b.locals
  items : b'.items = b.items
  ban : b'.ban = b.ban
  captures : ∀ i ∈ b.footprint.captures, i ∈ b'.footprint.captures

/-- The block with more in it. -/
structure Block.Extended (b b' : Block) : Prop where
  locals : ∀ i, b.locals.contains i → b'.locals.contains i
  ban : b'.ban = b.ban
  captures : ∀ i ∈ b.footprint.captures, i ∈ b'.footprint.captures

namespace Block

variable {a b c : Block}

theorem Widened.refl (b : Block) : b.Widened b := ⟨rfl, rfl, rfl, fun _ h => h⟩

theorem Widened.trans (hab : a.Widened b) (hbc : b.Widened c) : a.Widened c :=
  ⟨hbc.locals.trans hab.locals, hbc.items.trans hab.items, hbc.ban.trans hab.ban,
    fun i hi => hbc.captures i (hab.captures i hi)⟩

theorem Widened.extended (h : a.Widened b) : a.Extended b :=
  ⟨fun _ hi => h.locals ▸ hi, h.ban, h.captures⟩

theorem Extended.trans (hab : a.Extended b) (hbc : b.Extended c) : a.Extended c :=
  ⟨fun i hi => hbc.locals i (hab.locals i hi), hbc.ban.trans hab.ban,
    fun i hi => hbc.captures i (hab.captures i hi)⟩

theorem Extended.resolves (h : a.Extended b) {i : Identifier} (hi : a.resolves i) :
    b.resolves i :=
  resolves_iff.2 ((resolves_iff.1 hi).imp (h.locals i) (h.captures i))

end Block

/-- That the captures of a block have grown by those identifiers in `U` that are declared
around it. -/
def Captured (root : Content) (U : Identifier → Prop) (outer : List Block) (b b' : Block) : Prop :=
  ∀ i, Declares root outer i → (i ∈ b'.footprint.captures ↔ i ∈ b.footprint.captures ∨ U i)

/-- Blocks that have captured what in `U` is declared around them, and are the same else. -/
inductive Outer (root : Content) (U : Identifier → Prop) : List Block → List Block → Prop
  | nil : Outer root U [] []
  | cons {b b' : Block} {outer outer' : List Block} : b.Widened b' →
      Captured root U outer b b' → Outer root U outer outer' →
      Outer root U (b :: outer) (b' :: outer')

/-- A stack that has captured what in `U` is declared around each block, with more in
the innermost block. -/
inductive Onward (root : Content) (U : Identifier → Prop) : List Block → List Block → Prop
  | nil : Onward root U [] []
  | cons {b b' : Block} {outer outer' : List Block} : b.Extended b' →
      Captured root U outer b b' → Outer root U outer outer' →
      Onward root U (b :: outer) (b' :: outer')

section Moves

variable {root : Content} {U V : Identifier → Prop} {outer outer' outer'' : List Block}
  {b b' b'' : Block} {i : Identifier}

theorem Captured.refl : Captured root (fun _ => False) outer b b := fun _ _ => by simp

theorem Captured.trans (h : Captured root U outer b b')
    (hdeclares : ∀ i, Declares root outer' i ↔ Declares root outer i)
    (h' : Captured root V outer' b' b'') : Captured root (fun i => U i ∨ V i) outer b b'' :=
  fun i hi => by rw [h' i ((hdeclares i).2 hi), h i hi, or_assoc]

theorem Captured.congr (h : Captured root U outer b b')
    (hUV : ∀ i, Declares root outer i → (U i ↔ V i)) : Captured root V outer b b' :=
  fun i hi => by rw [h i hi, hUV i hi]

namespace Outer

theorem refl (root : Content) (outer : List Block) : Outer root (fun _ => False) outer outer := by
  induction outer with
  | nil => exact .nil
  | cons b outer ih => exact .cons (.refl b) .refl ih

theorem declares_iff (h : Outer root U outer outer') :
    Declares root outer' i ↔ Declares root outer i := by
  induction h with
  | nil => rfl
  | cons hb _ _ ih => rw [declares_cons_iff, declares_cons_iff, hb.locals, ih]

theorem nameTaken_iff (h : Outer root U outer outer') {name : String} :
    NameTaken root outer' name ↔ NameTaken root outer name := by
  induction h with
  | nil => rfl
  | cons hb _ _ ih => rw [nameTaken_cons_iff, nameTaken_cons_iff, hb.locals, ih]

theorem trans (h : Outer root U outer outer') (h' : Outer root V outer' outer'') :
    Outer root (fun i => U i ∨ V i) outer outer'' := by
  induction h generalizing outer'' with
  | nil =>
    cases h'
    exact .nil
  | cons hb hcaptured hrest ih =>
    cases h' with
    | cons hb' hcaptured' hrest' =>
      exact .cons (hb.trans hb') (hcaptured.trans (fun _ => hrest.declares_iff) hcaptured')
        (ih hrest')

theorem congr (h : Outer root U outer outer')
    (hUV : ∀ i, Declares root outer i → (U i ↔ V i)) : Outer root V outer outer' := by
  induction h with
  | nil => exact .nil
  | cons hb hcaptured _ ih =>
    have hrest := fun i hi => hUV i (declares_cons_iff.2 (.inr hi))
    exact .cons hb (hcaptured.congr hrest) (ih hrest)

theorem onward (h : Outer root U outer outer') : Onward root U outer outer' := by
  cases h with
  | nil => exact .nil
  | cons hb hcaptured hrest => exact .cons hb.extended hcaptured hrest

/-- The next block is the next block as it was, widened. -/
theorem head (h : Outer root U outer outer') : ∀ next' ∈ outer'.head?,
    ∃ next ∈ outer.head?, next.Widened next' := by
  intro next' hnext
  cases h with
  | nil => cases hnext
  | cons hb _ _ =>
    cases hnext
    exact ⟨_, rfl, hb⟩

end Outer

namespace Onward

theorem refl (root : Content) (blocks : List Block) :
    Onward root (fun _ => False) blocks blocks := (Outer.refl root blocks).onward

theorem trans (h : Onward root U outer outer') (h' : Onward root V outer' outer'') :
    Onward root (fun i => U i ∨ V i) outer outer'' := by
  cases h with
  | nil =>
    cases h'
    exact .nil
  | cons hb hcaptured hrest =>
    cases h' with
    | cons hb' hcaptured' hrest' =>
      exact .cons (hb.trans hb') (hcaptured.trans (fun _ => hrest.declares_iff) hcaptured')
        (hrest.trans hrest')

theorem congr (h : Onward root U outer outer')
    (hUV : ∀ i, Declares root outer.tail i → (U i ↔ V i)) : Onward root V outer outer' := by
  cases h with
  | nil => exact .nil
  | cons hb hcaptured hrest => exact .cons hb (hcaptured.congr hUV) (hrest.congr hUV)

/-- What the innermost block has, it still has later. -/
theorem resolves (h : Onward root U outer outer') (hi : ∀ top ∈ outer.head?, top.resolves i) :
    ∀ top ∈ outer'.head?, top.resolves i := by
  intro top' htop
  cases h with
  | nil => cases htop
  | cons hb _ _ =>
    cases htop
    exact hb.resolves (hi _ rfl)

end Onward

/-- A block stays in its place while blocks around it capture more. -/
theorem Block.Scoped.moved (h : b.Scoped root outer) (houter : Outer root U outer outer') :
    b.Scoped root outer' where
  captured i hi := houter.declares_iff.2 (h.captured i hi)
  passed next' hnext' i hi := by
    obtain ⟨next, hnext, hwide⟩ := houter.head next' hnext'
    exact hwide.extended.resolves (h.passed next hnext i hi)
  kept := h.kept
  free name hname htaken := h.free name hname (houter.nameTaken_iff.1 htaken)
  waiting t ht := (h.waiting t ht).mono fun _ htaken => houter.nameTaken_iff.1 htaken
  ban := h.ban

end Moves

/-! ## Uses of identifiers -/

section Uses

variable {root : Content} {blocks outer : List Block} {b : Block} {i : Identifier}

/-- What the innermost block has, all blocks that are to capture it have. -/
theorem Stacked.outer_of_resolves {U : Identifier → Prop} (h : Stacked root (b :: outer))
    (hU : ∀ i, U i → b.resolves i) : Outer root U (b :: outer) (b :: outer) := by
  induction outer generalizing b U with
  | nil => exact .cons (.refl b) (fun j hj => ⟨.inl, fun hj' => hj'.elim id fun hj' =>
      h.1.captures_of_resolves (hU j hj') hj⟩) .nil
  | cons next outer ih =>
    have hcaptured : ∀ j, Declares root (next :: outer) j → U j → j ∈ b.footprint.captures :=
      fun j hj hj' => h.1.captures_of_resolves (hU j hj') hj
    refine .cons (.refl b) (fun j hj => ⟨.inl, fun hj' => hj'.elim id (hcaptured j hj)⟩) ?_
    have hnext : Outer root (fun j => U j ∧ Declares root (next :: outer) j) (next :: outer)
        (next :: outer) := ih h.2 fun j hj => h.1.passed next rfl j (hcaptured j hj.2 hj.1)
    exact hnext.congr fun j hj => and_iff_left hj

/-- A block may capture what is declared further out, if the next block has it too. -/
theorem Block.Scoped.touch (h : b.Scoped root outer) {f : Footprint}
    (hregisters : ∀ r ∈ f.registers, root.clbits.register? r.name ≠ none)
    (hcaptured : ∀ i ∈ f.captures, Declares root outer i)
    (hpassed : ∀ next ∈ outer.head?, ∀ i ∈ f.captures, next.resolves i) :
    (b.touch f).Scoped root outer := by
  have hmem : ∀ i, i ∈ (b.touch f).footprint.captures ↔ i ∈ b.footprint.captures ∨ i ∈ f.captures :=
    fun i => Distinct.mem_union i _ _
  have hresolves : ∀ i, b.resolves i → (b.touch f).resolves i := fun i hi =>
    Block.resolves_iff.2 ((Block.resolves_iff.1 hi).imp id fun hi => (hmem i).2 (.inl hi))
  refine ⟨fun i hi => ?_, fun next hnext i hi => ?_, ⟨h.kept.locals, ?_, fun r hr => ?_, ?_, ?_⟩,
    h.free, h.waiting, h.ban⟩
  · exact ((hmem i).1 hi).elim (h.captured i) (hcaptured i)
  · exact ((hmem i).1 hi).elim (h.passed next hnext i) (hpassed next hnext i)
  · exact Distinct.nodup_union _ h.kept.nodup
  · exact (Distinct.mem_of_mem_union hr).elim (h.kept.registers r) (hregisters r)
  · exact fun item hitem i hi => hresolves i (h.kept.items item hitem i hi)
  · exact fun t ht i hi => hresolves i (h.kept.waiting t ht i hi)

theorem Stacked.touch (h : Stacked root (b :: outer)) {f : Footprint}
    (hregisters : ∀ r ∈ f.registers, root.clbits.register? r.name ≠ none)
    (hnone : f.captures = []) :
    Stacked root (b.touch f :: outer) ∧
      Onward root (fun _ => False) (b :: outer) (b.touch f :: outer) := by
  have hmem : ∀ i, i ∈ (b.touch f).footprint.captures ↔ i ∈ b.footprint.captures := fun i => by
    rw [Block.touch, Footprint.union, Distinct.mem_union, hnone]
    simp
  refine ⟨⟨h.1.touch hregisters ?_ ?_, h.2⟩, .cons ⟨fun _ hi => hi, rfl, fun i => (hmem i).2⟩ ?_
    (.refl root outer)⟩
  · simp [hnone]
  · simp [hnone]
  · exact fun i _ => by rw [hmem i, or_false]

/-- A use is captured by every block inside the scope that declares the identifier, and the
innermost block has the identifier then. -/
theorem Stacked.use (h : Stacked root blocks) (hi : Declares root blocks i) :
    Stacked root (captureThrough i blocks) ∧
      Outer root (· = i) blocks (captureThrough i blocks) ∧
      ∀ top ∈ (captureThrough i blocks).head?, top.resolves i := by
  induction blocks with
  | nil => exact ⟨trivial, .nil, fun _ htop => absurd htop (by simp [captureThrough])⟩
  | cons b outer ih =>
    unfold captureThrough
    split
    · -- the innermost block has the identifier already, so nothing changes
      rename_i hres
      refine ⟨h, h.outer_of_resolves fun j hj => hj ▸ hres, fun top htop => ?_⟩
      cases htop
      exact hres
    · rename_i hres
      -- it does not, so one of the blocks around does, and passes the identifier on
      have hd : Declares root outer i := (declares_cons_iff.1 hi).resolve_left fun hlocal =>
        hres (Block.resolves_iff.2 (.inl hlocal))
      obtain ⟨houter, hmoved, hnext⟩ := ih h.2 hd
      have hmem : ∀ j, j ∈ (b.touch { Footprint.empty with captures := [i] }).footprint.captures ↔
          j ∈ b.footprint.captures ∨ j = i := fun j => by
        rw [Block.touch, Footprint.union, Distinct.mem_union, List.mem_singleton]
      refine ⟨⟨(h.1.moved hmoved).touch ?_ ?_ ?_, houter⟩, .cons ⟨rfl, rfl, rfl, ?_⟩ ?_ hmoved, ?_⟩
      · exact fun r hr => absurd hr List.not_mem_nil
      · exact fun j hj => List.mem_singleton.1 hj ▸ hmoved.declares_iff.2 hd
      · exact fun next htop j hj => List.mem_singleton.1 hj ▸ hnext next htop
      · exact fun j hj => (hmem j).2 (.inl hj)
      · exact fun j _ => hmem j
      · intro top htop
        cases htop
        exact Block.resolves_iff.2 (.inr ((hmem i).2 (.inr rfl)))

end Uses

section Items

variable {root : Content} {outer : List Block} {b : Block} {i : Identifier}

/-- An item goes into a block that has what it needs, the captures of its blocks included. -/
theorem Stacked.snoc (h : Stacked root (b :: outer)) (item : BlockItem)
    (hitem : ∀ i ∈ item.identifiers, b.resolves i)
    (hcaptures : ∀ t ∈ item.blocks, ∀ i ∈ t.footprint.captures, b.resolves i)
    (hsettled : ∀ t ∈ item.blocks, t.Settled root (NameTaken root outer))
    (hban : b.ban ≠ none → ∃ i, item = .record i) :
    Stacked root (b.snoc item :: outer) ∧
      Onward root (fun _ => False) (b :: outer) (b.snoc item :: outer) := by
  have hwaiting : ∀ t, t ∈ (b.snoc item).waiting ↔ t ∈ b.waiting ∨ t ∈ item.blocks := fun t => by
    show t ∈ (b.items ++ [item]).flatMap _ ↔ _
    rw [List.flatMap_append, List.mem_append, List.flatMap_singleton]
    rfl
  have hitems : ∀ other, other ∈ (b.snoc item).items ↔ other ∈ b.items ∨ other = item :=
    fun other => by
      show other ∈ b.items ++ [item] ↔ _
      rw [List.mem_append, List.mem_singleton]
  obtain ⟨hb, houter⟩ := h
  refine ⟨⟨⟨hb.captured, hb.passed, ⟨hb.kept.locals, hb.kept.nodup, hb.kept.registers, ?_, ?_⟩,
    hb.free, ?_, ?_⟩, houter⟩, .cons ⟨fun _ hi => hi, rfl, fun _ hi => hi⟩ ?_ (.refl root outer)⟩
  · intro other hother
    rcases (hitems other).1 hother with hother | rfl
    · exact hb.kept.items other hother
    · exact hitem
  · intro t ht
    rcases (hwaiting t).1 ht with ht | ht
    · exact hb.kept.waiting t ht
    · exact hcaptures t ht
  · intro t ht
    rcases (hwaiting t).1 ht with ht | ht
    · exact hb.waiting t ht
    · exact hsettled t ht
  · intro hsome other hother
    rcases (hitems other).1 hother with hother | rfl
    · exact hb.ban hsome other hother
    · exact hban hsome
  · exact fun j _ => (or_false _).symm ▸ Iff.rfl

/-- A name that means nothing yet can become that of a local. -/
theorem Stacked.declare (h : Stacked root (b :: outer)) (hfree : ¬ NameTaken root outer i.name)
    (hnone : b.locals.get? i.name = none) :
    Stacked root ({ b with locals := b.locals.insert i .declare } :: outer) ∧
      Onward root (fun _ => False) (b :: outer)
        ({ b with locals := b.locals.insert i .declare } :: outer) := by
  have hextended : b.Extended { b with locals := b.locals.insert i .declare } :=
    ⟨fun j hj => (IdentifierTable.contains_insert_iff hnone).2 (.inl hj), rfl, fun _ hj => hj⟩
  obtain ⟨hb, houter⟩ := h
  refine ⟨⟨⟨hb.captured, hb.passed, ⟨hb.kept.locals.insert hnone _, hb.kept.nodup,
    hb.kept.registers, ?_, ?_⟩, fun name hname => ?_, hb.waiting, hb.ban⟩, houter⟩,
    .cons hextended ?_ (.refl root outer)⟩
  · exact fun item hitem j hj => hextended.resolves (hb.kept.items item hitem j hj)
  · exact fun t ht j hj => hextended.resolves (hb.kept.waiting t ht j hj)
  · rcases (IdentifierTable.hasName_insert_iff hnone).1 hname with hname | rfl
    · exact hb.free name hname
    · exact hfree
  · exact fun j _ => (or_false _).symm ▸ Iff.rfl

end Items

/-! ## Calls one after another -/

namespace Circuit

variable {c d e : Circuit} {U V : Identifier → Prop} {i : Identifier}

/-- A circuit with open blocks in their places. -/
structure WellScoped (c : Circuit) : Prop where
  names : c.content.NamesFree
  stacked : Stacked c.content c.blocks

/-- What calls in a scope come to that use the identifiers in `U`. -/
structure Proceeds (U : Identifier → Prop) (c d : Circuit) : Prop where
  wellScoped : d.WellScoped
  content : c.blocks ≠ [] → d.content = c.content
  onward : Onward c.content U c.blocks d.blocks

namespace Proceeds

theorem refl (hc : c.WellScoped) : Proceeds (fun _ => False) c c :=
  ⟨hc, fun _ => rfl, .refl _ _⟩

theorem blocks_ne_nil (h : Proceeds U c d) (hc : c.blocks ≠ []) : d.blocks ≠ [] := by
  have honward := h.onward
  intro hnil
  rw [hnil] at honward
  generalize hblocks : c.blocks = blocks at honward hc
  cases honward
  exact hc rfl

theorem trans (h : Proceeds U c d) (h' : Proceeds V d e) :
    Proceeds (fun i => U i ∨ V i) c e := by
  refine ⟨h'.wellScoped, fun hc => (h'.content (h.blocks_ne_nil hc)).trans (h.content hc), ?_⟩
  by_cases hc : c.blocks = []
  · have honward := h.onward
    have honward' := h'.onward
    rw [hc] at honward ⊢
    generalize d.blocks = blocks at honward honward'
    cases honward
    generalize e.blocks = blocks' at honward' ⊢
    cases honward'
    exact .nil
  · exact h.onward.trans (h.content hc ▸ h'.onward)

theorem congr (h : Proceeds U c d)
    (hUV : ∀ i, Declares c.content c.blocks.tail i → (U i ↔ V i)) : Proceeds V c d :=
  ⟨h.wellScoped, h.content, h.onward.congr hUV⟩

end Proceeds

/-! ## The parts of a call -/

/-- A use of an identifier. -/
theorem useIdentifier_proceeds (hc : c.WellScoped) (h : useIdentifier i c = .ok () d) :
    Proceeds (· = i) c d ∧ ∀ top ∈ d.blocks.head?, top.resolves i := by
  obtain ⟨hcheck, rfl⟩ := useIdentifier_eq_ok_iff.1 h
  obtain ⟨hstacked, houter, htop⟩ := hc.stacked.use (hc.stacked.checkResolves_iff.1 hcheck)
  exact ⟨⟨⟨hc.names, hstacked⟩, fun _ => rfl, houter.onward⟩, htop⟩

theorem each_useIdentifier_proceeds {is : List Identifier} (hc : c.WellScoped)
    (h : Edit.each useIdentifier is c = .ok () d) :
    Proceeds (· ∈ is) c d ∧ ∀ i ∈ is, ∀ top ∈ d.blocks.head?, top.resolves i := by
  induction is generalizing c with
  | nil =>
    cases h
    exact ⟨(Proceeds.refl hc).congr fun _ _ => by simp, fun _ hi => absurd hi List.not_mem_nil⟩
  | cons i rest ih =>
    obtain ⟨_, u, hu, h⟩ := Edit.bind_eq_ok_iff.1 h
    obtain ⟨hfirst, htop⟩ := useIdentifier_proceeds hc hu
    obtain ⟨hrest, hall⟩ := ih hfirst.wellScoped h
    refine ⟨(hfirst.trans hrest).congr fun _ _ => by simp, fun j hj => ?_⟩
    rcases List.mem_cons.1 hj with rfl | hj
    · exact hrest.onward.resolves htop
    · exact hall j hj

/-- A use of clbits and registers. -/
theorem useClassical_proceeds {u : ClassicalUse} (hc : c.WellScoped)
    (h : useClassical u c = .ok () d) : Proceeds (fun _ => False) c d := by
  obtain ⟨-, hregisters⟩ := Checking.seq_eq_ok_iff.1 (checkClassical_of_useClassical h)
  obtain ⟨name, content, blocks⟩ := c
  cases blocks with
  | nil =>
    obtain ⟨-, rfl⟩ := (useClassical_eq_ok_iff_of_closed rfl).1 h
    exact .refl hc
  | cons top outer =>
    obtain ⟨positions, -, rfl⟩ := (useClassical_eq_ok_iff_of_open (List.cons_ne_nil _ _)).1 h
    have hbefore : Stacked content (top :: outer) := hc.stacked
    obtain ⟨hstacked, honward⟩ := hbefore.touch
      (f := { Footprint.empty with clbits := positions, registers := u.registers })
      (fun r hr hnone => by
        have hlisted := Content.checkRegister_eq_ok_iff.1 (checkEach_eq_ok_iff.1 hregisters r hr)
        simp [BitList.hasRegister, hnone] at hlisted) rfl
    exact ⟨⟨hc.names, hstacked⟩, fun _ => rfl, honward⟩

/-- Outside every block a call can only add to the store. -/
theorem proceeds_of_closed (hopen : c.blocks = []) {content : Content}
    (hnames : content.NamesFree) : Proceeds U c { c with content } := by
  obtain ⟨name, old, blocks⟩ := c
  cases hopen
  exact ⟨⟨hnames, trivial⟩, fun hne => absurd rfl hne, .nil⟩

/-- The record that the active scope has last. -/
def last? (c : Circuit) : Option Instruction :=
  match c.blocks with
  | [] => c.content.records.getLast?
  | top :: _ =>
    match top.items.getLast? with
    | some (.record i) => some i
    | _ => none

theorem push_proceeds {i : Instruction} (hc : c.WellScoped) (hopen : c.blocks = [])
    (h : Edit.within contentFocus (Content.push i) c = .ok () d) :
    Proceeds U c d ∧ d.last? = some i := by
  obtain ⟨u, hu, rfl⟩ := Edit.within_eq_ok_iff.1 h
  obtain ⟨-, hu⟩ := Checking.seq_eq_ok_iff.1 (Edit.update_eq_ok_iff.1 hu)
  cases hu
  refine ⟨proceeds_of_closed hopen (hc.names.congr rfl rfl), ?_⟩
  obtain ⟨name, content, blocks⟩ := c
  cases hopen
  exact List.getLast?_concat

/-- A record, wherever it is added. -/
theorem append_proceeds {i : Instruction} (hc : c.WellScoped) (h : append i c = .ok () d) :
    Proceeds (· ∈ i.operation.identifiers) c d ∧ d.last? = some i := by
  obtain ⟨name, content, blocks⟩ := c
  cases blocks with
  | nil => exact push_proceeds hc rfl h
  | cons top outer =>
    obtain ⟨-, v, w, huse, hclassical, hadded⟩ := append_eq_ok_of_open (List.cons_ne_nil _ _) h
    obtain ⟨hused, hresolves⟩ := each_useIdentifier_proceeds hc huse
    have hnoted := useClassical_proceeds hused.wellScoped hclassical
    have hsofar := hused.trans hnoted
    have hw : w.blocks ≠ [] := hsofar.blocks_ne_nil (List.cons_ne_nil _ _)
    replace hresolves : ∀ j ∈ i.operation.identifiers, ∀ top ∈ w.blocks.head?, top.resolves j :=
      fun j hj => hnoted.onward.resolves (hresolves j hj)
    have hscoped := hsofar.wellScoped
    subst hadded
    obtain ⟨name', content', blocks'⟩ := w
    cases blocks' with
    | nil => exact absurd rfl hw
    | cons top' outer' =>
      -- the uses are noted, and what is left is to touch the operands and to add the item
      have hbefore : Stacked content' (top' :: outer') := hscoped.stacked
      obtain ⟨hstacked, honward⟩ := hbefore.touch
        (f := { Footprint.empty with qubits := i.qubits, clbits := i.clbits })
        (fun r hr => absurd hr List.not_mem_nil) rfl
      obtain ⟨hstacked', honward'⟩ := hstacked.snoc (.record i)
        (fun j hj => honward.resolves (hresolves j hj) _ rfl)
        (fun t ht => absurd ht List.not_mem_nil) (fun t ht => absurd ht List.not_mem_nil)
        fun _ => ⟨i, rfl⟩
      have hlast : Proceeds (fun j => False ∨ False) ⟨name', content', top' :: outer'⟩
          ⟨name', content', (top'.touch { Footprint.empty with
            qubits := i.qubits, clbits := i.clbits }).snoc (.record i) :: outer'⟩ :=
        ⟨⟨hscoped.names, hstacked'⟩, fun _ => rfl, honward.trans honward'⟩
      refine ⟨(hsofar.trans hlast).congr fun j _ => by simp, ?_⟩
      show (match (top'.items ++ [BlockItem.record i]).getLast? with
        | some (.record i) => some i
        | _ => none) = _
      rw [List.getLast?_concat]

theorem each_append_proceeds {is : List Instruction} (hc : c.WellScoped)
    (h : Edit.each append is c = .ok () d) :
    Proceeds (· ∈ is.flatMap (·.operation.identifiers)) c d := by
  induction is generalizing c with
  | nil =>
    cases h
    exact (Proceeds.refl hc).congr fun _ _ => by simp
  | cons i rest ih =>
    obtain ⟨_, u, hu, h⟩ := Edit.bind_eq_ok_iff.1 h
    obtain ⟨hfirst, -⟩ := append_proceeds hc hu
    exact (hfirst.trans (ih hfirst.wellScoped h)).congr fun _ _ => by simp

/-- A declaration. -/
theorem declare_proceeds (hc : c.WellScoped) (h : declare i c = .ok () d) :
    Proceeds (fun _ => False) c d := by
  obtain ⟨name, content, blocks⟩ := c
  cases blocks with
  | nil =>
    obtain ⟨u, hu, rfl⟩ := Edit.within_eq_ok_iff.1 h
    exact proceeds_of_closed rfl (Content.NamesFree.addIdentifier i .declare _ u hc.names
      (.of_ok hu))
  | cons top outer =>
    obtain ⟨hcheck, rfl⟩ := (declare_eq_ok_iff_of_open rfl).1 h
    obtain ⟨hvisible, hnone⟩ := checkDeclaration_eq_ok rfl hcheck
    -- a name that is visible from the block would have been refused
    have hfree : ¬ NameTaken content outer i.name := by
      rw [← Bool.not_eq_true] at hvisible
      simp only [nameVisible, Bool.or_eq_true, List.any_cons, List.any_eq_true,
        not_or] at hvisible
      obtain ⟨⟨hroot, hregister⟩, -, hblocks⟩ := hvisible
      rintro (htaken | htaken | ⟨b, hb, htaken⟩)
      · exact hregister (Option.isSome_iff_ne_none.2 htaken)
      · exact hroot htaken
      · exact hblocks ⟨b, hb, .inl htaken⟩
    obtain ⟨hstacked, honward⟩ := Stacked.declare (i := i) hc.stacked hfree hnone
    exact ⟨⟨hc.names, hstacked⟩, fun _ => rfl, honward⟩

/-- A jump. -/
theorem jump_proceeds {j : Jump} (hc : c.WellScoped) (h : jump j c = .ok () d) :
    Proceeds (fun _ => False) c d := by
  obtain ⟨name, content, blocks⟩ := c
  cases blocks with
  | nil => exact (push_proceeds hc rfl h).1
  | cons top outer =>
    obtain ⟨hban, rfl⟩ := (jump_eq_ok_iff_of_open rfl).1 h
    obtain ⟨hstacked, honward⟩ := Stacked.snoc hc.stacked (.jump j)
      (fun _ hi => absurd hi List.not_mem_nil) (fun _ ht => absurd ht List.not_mem_nil)
      (fun _ ht => absurd ht List.not_mem_nil) fun hne => absurd hban hne
    exact ⟨⟨hc.names, hstacked⟩, fun _ => rfl, honward⟩

end Circuit

end QuantumCircuit
