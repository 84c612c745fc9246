import Mathlib.Data.List.Nodup
import QuantumCircuit.Proofs.Capturing
import QuantumCircuit.Proofs.Closing
import QuantumCircuit.Proofs.Reach

/-!
# Builders that end

At its end a builder closes the blocks of its bodies and adds one record to the scope
around them, or leaves them to wait there. What that comes to is followed here for blocks
that are in their places (`Circuit.Closing.Ready`).

A loop takes all blocks that wait in it at once, over one list of captures. It can do so
if the blocks in it are not tangled (`Block.Untangled`): then no identifier is in the way
(`Circuit.Closing.sparingAt_run`), else the loop is refused
(`Circuit.Closing.untangled_of_ok`). A loop or a box that is not refused captures what its
block captured (`Circuit.Closing.captures_of_ok`).
-/

namespace QuantumCircuit

variable {i : Identifier}

/-! ## Blocks that can be closed over one footprint -/

section Blocks

variable {root : Content} {blocks outer : List Block} {b : Block}

/-- What is declared has no register's name. -/
theorem Stacked.register?_eq_none (h : Stacked root blocks) (hnames : root.NamesFree)
    (hi : Declares root blocks i) : root.clbits.register? i.name = none := by
  induction blocks with
  | nil =>
    rcases hi with hi | ⟨b, hb, -⟩
    · exact hnames.apart _ (IdentifierTable.hasName_of_contains hi)
    · exact absurd hb List.not_mem_nil
  | cons b outer ih =>
    rcases declares_cons_iff.1 hi with hi | hi
    · by_contra htaken
      exact h.1.free _ (IdentifierTable.hasName_of_contains hi) (.inl htaken)
    · exact ih h.2 hi

namespace Block

/-- What is captured somewhere in a block and declared around it, the block has. -/
theorem Settled.resolves (h : b.Settled root (NameTaken root outer)) (hi : i ∈ b.span.captures)
    (hd : Declares root outer i) : b.resolves i := by
  induction b using induction_waiting with
  | h b ih =>
    rcases mem_span_captures.1 hi with hi | ⟨t, ht, hi⟩
    · exact resolves_iff.2 (.inr hi)
    · have hres := ih t ht (fun p hp => h p (.deeper ht hp)) hi
      rcases resolves_iff.1 hres with hlocal | hcaptured
      · obtain ⟨-, hfree⟩ := h t (.deeper ht (.here t))
        exact absurd hd.nameTaken (hfree _ (IdentifierTable.hasName_of_contains hlocal))
      · exact (h b (.here b)).1.waiting t ht i hcaptured

/-- That one list of captures serves the block and all that wait in it: all that is captured
in it, the block has itself, and no block in it has a local of its own under the name of
something else that is captured. -/
structure Untangled (b : Block) : Prop where
  outward : ∀ i ∈ b.span.captures, b.resolves i
  apart : ∀ p, b.Inside p → ∀ i ∈ b.span.captures, ¬ p.locals.contains i →
    ¬ p.locals.hasName i.name

theorem waiting_eq_nil (h : ∀ item ∈ b.items, ∃ i, item = .record i) : b.waiting = [] := by
  refine List.flatMap_eq_nil_iff.2 fun item hitem => ?_
  obtain ⟨i, rfl⟩ := h item hitem
  rfl

theorem awaitsLoop_eq_false_iff :
    b.awaitsLoop = false ↔ ∀ item ∈ b.items, ∃ i, item = .record i := by
  unfold awaitsLoop
  rw [List.any_eq_false]
  refine forall₂_congr fun item _ => ?_
  cases item <;> simp

/-- Where nothing waits there is no tangle. -/
theorem Scoped.untangled (h : b.Scoped root outer) (hwaiting : b.waiting = []) :
    b.Untangled := by
  refine ⟨fun i hi => ?_, fun p hp i hi hlocal hname => ?_⟩
  · exact resolves_iff.2 (.inr ((span_captures_of_waiting_eq_nil hwaiting).1 hi))
  · rcases inside_iff.1 hp with rfl | ⟨t, ht, -⟩
    · have hcaptured := (span_captures_of_waiting_eq_nil hwaiting).1 hi
      exact h.free _ hname (h.captured i hcaptured).nameTaken
    · rw [hwaiting] at ht
      exact List.not_mem_nil ht

end Block

/-- That a block in its place can be closed over the footprint. -/
structure Footprint.Serves (root : Content) (outer : List Block) (f : Footprint) (b : Block) :
    Prop where
  nodup : f.captures.Nodup
  registers : ∀ name ∈ f.registers.map (·.name), root.clbits.register? name ≠ none
  covers : ∀ i ∈ b.span.captures, i ∈ f.captures
  declared : ∀ i ∈ f.captures, Declares root (b :: outer) i
  apart : ∀ p, b.Inside p → ∀ i ∈ f.captures, ¬ p.locals.contains i → ¬ p.locals.hasName i.name

theorem Footprint.Serves.sorted {f : Footprint} (h : f.Serves root outer b) :
    f.sorted.Serves root outer b :=
  ⟨h.nodup, h.registers, h.covers, h.declared, h.apart⟩

theorem Footprint.Serves.closable {f : Footprint} {p : Block} (h : f.Serves root outer b)
    (hnames : root.NamesFree) (hstacked : Stacked root (b :: outer)) (hp : b.Inside p) :
    p.Closable root f := by
  obtain ⟨hkept, hfree⟩ := hstacked.1.settled p hp
  have hcovers : ∀ i ∈ p.captured f, i ∈ f.captures := fun i hi =>
    (Block.mem_captured_iff.1 hi).1.elim id fun hi => h.covers i (Block.span_captures_subset hp hi)
  refine ⟨hkept, ?_, fun i hi hmem => ?_⟩
  · rw [Block.enters, List.map_append, List.nodup_append]
    -- the captures differ in name, so do the locals, and no capture has the name of a local
    refine ⟨?_, ?_, ?_⟩
    · refine List.Nodup.map_on (fun i hi j hj hname => ?_)
        ((Distinct.nodup_union _ h.nodup).filter _)
      exact hstacked.eq_of_name_eq (h.declared i (hcovers i hi)) (h.declared j (hcovers j hj)) hname
    · rw [List.map_map]
      exact hkept.locals.names_toList ▸ hkept.locals.keys
    · intro name hname name' hname' heq
      obtain ⟨i, hi, rfl⟩ := List.mem_map.1 hname
      obtain ⟨j, hj, rfl⟩ := List.mem_map.1 hname'
      refine h.apart p hp i (hcovers i hi) (Block.mem_captured_iff.1 hi).2 ?_
      exact heq ▸ IdentifierTable.hasName_of_contains (hkept.locals.contains_iff.2 hj)
  · have htaken := h.registers _ hmem
    rcases List.mem_append.1 hi with hi | hi
    · exact htaken (hstacked.register?_eq_none hnames (h.declared i (hcovers i hi)))
    · refine hfree _ ?_ (.inl htaken)
      exact IdentifierTable.hasName_of_contains (hkept.locals.contains_iff.2 hi)

end Blocks

/-! ## Records that name what is declared -/

namespace Circuit

variable {c d : Circuit} {r : Instruction}

theorem sparing_resolveAll {k : BitKind} {content : Content} {operation : Option String}
    (bits : List (Bit k)) : Sparing (content.resolveAll operation bits) := by
  induction bits with
  | nil => exact sparing_ok []
  | cons bit rest ih =>
    exact (BitList.sparing_resolve _ _).bind fun _ _ => ih.bind fun _ _ => sparing_ok _

theorem sparing_checkClassical {content : Content} (u : ClassicalUse) :
    Sparing (content.checkClassical u) := by
  refine Sparing.bind (sparing_checkEach fun bit _ => ?_) fun _ _ =>
    sparing_checkEach fun _ _ => Content.sparing_checkRegister _
  refine Sparing.bind ?_ fun _ _ => sparing_ok ()
  unfold Content.locate
  split
  · exact sparing_ok _
  · exact sparing_error id

theorem sparing_classicalPositions {content : Content} (u : ClassicalUse) :
    Sparing (content.classicalPositions u) :=
  (sparing_checkClassical u).bind fun _ _ => sparing_resolveAll _

theorem sparingAt_useClassical (u : ClassicalUse) : (useClassical u).SparingAt c := by
  intro e t h
  obtain ⟨h, -⟩ := Edit.update_eq_error_iff.1 h
  cases hblocks : c.blocks with
  | nil =>
    simp only [hblocks] at h
    exact ((sparing_checkClassical u).bind fun _ _ => sparing_ok _) e h
  | cons top outer =>
    simp only [hblocks] at h
    exact ((sparing_classicalPositions u).bind fun _ _ => sparing_ok _) e h

/-- What is declared can be used. -/
theorem sparingAt_useIdentifier (hc : c.WellScoped) (hi : Declares c.content c.blocks i) :
    (useIdentifier i).SparingAt c := by
  intro e t h
  obtain ⟨h, -⟩ := Edit.update_eq_error_iff.1 h
  rw [hc.stacked.checkResolves_iff.2 hi] at h
  cases h

/-- What is declared stays so. -/
theorem Proceeds.declares {U : Identifier → Prop} (h : Proceeds U c d)
    (hcontent : d.content = c.content) (hi : Declares c.content c.blocks i) :
    Declares d.content d.blocks i := by
  have honward := h.onward
  rw [hcontent]
  generalize c.blocks = blocks at honward hi
  generalize d.blocks = blocks' at honward
  cases honward with
  | nil => exact hi
  | cons hb _ hrest =>
    rw [declares_cons_iff] at hi ⊢
    exact hi.imp (hb.locals i) hrest.declares_iff.2

/-- A record that names only what is declared is not refused for an identifier. -/
theorem sparingAt_append (hc : c.WellScoped)
    (hr : ∀ j ∈ r.operation.identifiers, Declares c.content c.blocks j) :
    (append r).SparingAt c := by
  obtain ⟨name, content, blocks⟩ := c
  cases blocks with
  | nil =>
    refine Edit.sparingAt_within (Content.sparingAt_push fun j hj => ?_)
    rcases hr j hj with hj | ⟨b, hb, -⟩
    · exact hj
    · exact absurd hb List.not_mem_nil
  | cons top outer =>
    refine Edit.SparingAt.bind (Edit.sparingAt_ofExcept ?_) fun _ u hu => ?_
    · refine Content.sparing_checkOperands.bind fun _ _ => ?_
      refine Sparing.bind (sparing_checkEach fun j hj => ?_) fun _ _ => ?_
      · rw [hc.stacked.checkResolves_iff.2 (hr j hj)]
        exact sparing_ok ()
      · exact (sparing_classicalPositions _).bind fun _ _ => sparing_ok ()
    obtain ⟨-, rfl⟩ := Edit.ofExcept_eq_ok_iff.1 hu
    refine Edit.SparingAt.bind ?_ fun _ u hu => (sparingAt_useClassical _).bind fun _ _ _ => ?_
    · -- marking one identifier as used leaves the others declared
      refine Edit.sparingAt_each (P := fun t => t.WellScoped ∧ t.blocks ≠ [] ∧
        ∀ j ∈ r.operation.identifiers, Declares t.content t.blocks j) ?_ ?_
        ⟨hc, List.cons_ne_nil _ _, hr⟩
      · exact fun j hj t ht => sparingAt_useIdentifier ht.1 (ht.2.2 j hj)
      · rintro j hj t u ⟨ht, hopen, hall⟩ (⟨_, hu⟩ | ⟨e, hu⟩)
        · obtain ⟨hnext, -⟩ := useIdentifier_proceeds ht hu
          exact ⟨hnext.wellScoped, hnext.blocks_ne_nil hopen,
            fun j' hj' => hnext.declares (hnext.content hopen) (hall j' hj')⟩
        · obtain ⟨-, rfl⟩ := Edit.update_eq_error_iff.1 hu
          exact ⟨ht, hopen, hall⟩
    · rintro e t h
      cases h

/-- A record that was added names only what is declared. -/
theorem declares_of_append (hc : c.WellScoped) (h : append r c = .ok () d) :
    ∀ j ∈ r.operation.identifiers, Declares c.content c.blocks j := by
  obtain ⟨name, content, blocks⟩ := c
  cases blocks with
  | nil =>
    obtain ⟨u, hu, rfl⟩ := Edit.within_eq_ok_iff.1 h
    obtain ⟨hcheck, -⟩ := Checking.seq_eq_ok_iff.1 (Edit.update_eq_ok_iff.1 hu)
    obtain ⟨-, hcheck⟩ := Checking.seq_eq_ok_iff.1 hcheck
    obtain ⟨-, hcheck⟩ := Checking.seq_eq_ok_iff.1 hcheck
    obtain ⟨hall, -⟩ := Checking.seq_eq_ok_iff.1 hcheck
    exact fun j hj => .inl (Content.checkDeclared_eq_ok_iff.1 (checkEach_eq_ok_iff.1 hall j hj))
  | cons top outer =>
    obtain ⟨hcheck, -⟩ := append_eq_ok_of_open (List.cons_ne_nil _ _) h
    obtain ⟨-, hcheck⟩ := Checking.seq_eq_ok_iff.1 hcheck
    obtain ⟨hall, -⟩ := Checking.seq_eq_ok_iff.1 hcheck
    exact fun j hj => hc.stacked.checkResolves_iff.1 (checkEach_eq_ok_iff.1 hall j hj)

end Circuit

/-! ## What the end of a builder does -/

namespace Circuit.Closing

variable {k : Closing} {root : Content} {f : Footprint} {flow : ControlFlow} {c d : Circuit}

/-- The identifiers that the operation itself reads. -/
def identifiers : Closing → List Identifier
  | ifElse condition _ _ | whileLoop condition _ => condition.identifiers
  | forLoop _ _ _ | box none _ => []
  | switch target _ => target.identifiers
  | box (some duration) _ => duration.identifiers

/-- All that the blocks touch. -/
def span : Closing → Footprint
  | ifElse _ t f => Block.branchSpan t f
  | whileLoop _ b | forLoop _ _ b | box _ b => b.span
  | switch _ arms => BlockArm.spanList .empty arms

/-- The operation that the blocks become over the bits in `f`. -/
def make (root : Content) (f : Footprint) : Closing → Except CircuitError ControlFlow
  | ifElse condition t e => do
    let trueBody ← t.close root f .ifBody
    let falseBody ← Block.closeOption root f .elseBody e
    ControlFlow.makeIfElse condition trueBody falseBody
  | whileLoop condition b => do ControlFlow.makeWhile condition (← b.close root f .whileBody)
  | forLoop indices parameter b => do return .forLoop indices parameter (← b.close root f .forBody)
  | switch target arms => do ControlFlow.makeSwitch target (← BlockArm.closeList root f arms)
  | box duration b => do ControlFlow.makeBox (← b.close root f .boxBody) duration

/-- The item that is left to wait for the loop around it, if there is a jump in a block. -/
def item? : Closing → Option BlockItem
  | ifElse condition t f =>
    if t.awaitsLoop || f.any (·.awaitsLoop) then some (.branch condition t f) else none
  | switch target arms =>
    if arms.any (·.block.awaitsLoop) then some (.dispatch target arms) else none
  | _ => none

/-- A builder leaves an item to wait, or closes its blocks over all that they touch. -/
theorem run_cases (k : Closing) (c : Circuit) :
    k.run c = .error .switchWithoutCase c ∨
      k.run c = match k.item? with
        | some item => appendWaiting item c
        | none => closeOver k.span (fun root f => k.make root f) c := by
  cases k with
  | ifElse condition t f =>
    refine .inr ?_
    simp only [run, closeIf, item?]
    by_cases hwaits : (t.awaitsLoop || f.any (·.awaitsLoop)) = true
    · rw [if_pos hwaits, if_pos hwaits]
    · rw [if_neg hwaits, if_neg hwaits]
      rfl
  | switch target arms =>
    cases arms with
    | nil => exact .inl rfl
    | cons first rest =>
      refine .inr ?_
      refine (Edit.bind_apply_of_ok (t := c) (a := ()) rfl).trans ?_
      simp only [item?]
      by_cases hwaits : ((first :: rest).any fun arm => arm.block.awaitsLoop) = true
      · rw [if_pos hwaits, if_pos hwaits]
      · rw [if_neg hwaits, if_neg hwaits]
        rfl
  | whileLoop condition b => exact .inr rfl
  | forLoop indices parameter b => exact .inr rfl
  | box duration b => exact .inr rfl

/-- That the operation is of the form of the builder, with what the builder reads, the loop that
it runs or the duration that it was given. Nothing is said about bodies. -/
inductive Becomes : Closing → ControlFlow → Prop
  | ifElse (condition : Condition) (t : Block) (e : Option Block) (body : Circuit)
      (other : Option Circuit) : Becomes (.ifElse condition t e) (.ifElse condition body other)
  | whileLoop (condition : Condition) (b : Block) (body : Circuit) :
      Becomes (.whileLoop condition b) (.whileLoop condition body)
  | forLoop (indices : LoopIndices) (parameter : Option Parameter) (b : Block) (body : Circuit) :
      Becomes (.forLoop indices parameter b) (.forLoop indices parameter body)
  | switch (target : SwitchTarget) (arms : List BlockArm) (closed : List SwitchArm) :
      Becomes (.switch target arms) (.switchCase target closed)
  | box (duration : Option Duration) (b : Block) (body : Circuit) :
      Becomes (.box duration b) (.box body duration)

theorem becomes_of_make (h : k.make root f = .ok flow) : k.Becomes flow := by
  cases k with
  | ifElse condition t e =>
    obtain ⟨body, -, h⟩ := Checking.bind_eq_ok_iff.1 h
    obtain ⟨other, -, h⟩ := Checking.bind_eq_ok_iff.1 h
    obtain rfl := ControlFlow.makeIfElse_eq_ok h
    exact .ifElse condition t e body other
  | whileLoop condition b =>
    obtain ⟨body, -, h⟩ := Checking.bind_eq_ok_iff.1 h
    obtain ⟨-, h⟩ := Checking.seq_eq_ok_iff.1 h
    cases h
    exact .whileLoop condition b body
  | forLoop indices parameter b =>
    obtain ⟨body, -, h⟩ := Checking.bind_eq_ok_iff.1 h
    cases h
    exact .forLoop indices parameter b body
  | switch target arms =>
    obtain ⟨closed, -, h⟩ := Checking.bind_eq_ok_iff.1 h
    obtain rfl := ControlFlow.makeSwitch_eq_ok h
    exact .switch target arms closed
  | box duration b =>
    obtain ⟨body, -, h⟩ := Checking.bind_eq_ok_iff.1 h
    obtain rfl := ControlFlow.makeBox_eq_ok h
    exact .box duration b body

theorem Becomes.ownIdentifiers (h : k.Becomes flow) : flow.ownIdentifiers = k.identifiers := by
  cases h with
  | box duration b body => cases duration <;> rfl
  | _ => rfl

/-- The operation reads its own identifiers, and its bodies are the closed blocks. -/
theorem make_eq_ok (h : k.make root f = .ok flow) : flow.ownIdentifiers = k.identifiers ∧
    List.Forall₂ (fun b body => ∃ role, b.close root f role = .ok body) k.blocks flow.bodies := by
  refine ⟨(becomes_of_make h).ownIdentifiers, ?_⟩
  cases k with
  | ifElse condition t e =>
    obtain ⟨trueBody, ht, h⟩ := Checking.bind_eq_ok_iff.1 h
    obtain ⟨falseBody, he, h⟩ := Checking.bind_eq_ok_iff.1 h
    obtain rfl := ControlFlow.makeIfElse_eq_ok h
    exact .cons ⟨_, ht⟩ ((Block.closeOption_eq_ok he).imp fun _ _ hbody => ⟨_, hbody⟩)
  | whileLoop condition b =>
    obtain ⟨body, hbody, h⟩ := Checking.bind_eq_ok_iff.1 h
    obtain ⟨-, h⟩ := Checking.seq_eq_ok_iff.1 h
    cases h
    exact .cons ⟨_, hbody⟩ .nil
  | forLoop indices parameter b =>
    obtain ⟨body, hbody, h⟩ := Checking.bind_eq_ok_iff.1 h
    cases h
    exact .cons ⟨_, hbody⟩ .nil
  | switch target arms =>
    obtain ⟨closed, hclosed, h⟩ := Checking.bind_eq_ok_iff.1 h
    obtain rfl := ControlFlow.makeSwitch_eq_ok h
    show List.Forall₂ _ (arms.map (·.block)) (closed.map (·.body))
    rw [List.forall₂_map_left_iff, List.forall₂_map_right_iff]
    exact (BlockArm.close_of_closeList hclosed).imp fun _ _ hbody => ⟨_, hbody⟩
  | box duration b =>
    obtain ⟨body, hbody, h⟩ := Checking.bind_eq_ok_iff.1 h
    obtain rfl := ControlFlow.makeBox_eq_ok h
    exact .cons ⟨_, hbody⟩ .nil

theorem sparing_make (h : ∀ b ∈ k.blocks, ∀ role, Sparing (b.close root f role)) :
    Sparing (k.make root f) := by
  cases k with
  | ifElse condition t e =>
    refine (h t List.mem_cons_self _).bind fun _ _ => Sparing.bind ?_ fun _ _ =>
      ControlFlow.sparing_makeIfElse _ _ _
    cases e with
    | none => exact sparing_ok _
    | some e =>
      exact (h e (List.mem_cons_of_mem _ List.mem_cons_self) _).bind fun _ _ => sparing_ok _
  | whileLoop condition b =>
    exact (h b List.mem_cons_self _).bind fun _ _ => ControlFlow.sparing_makeWhile _ _
  | forLoop indices parameter b => exact (h b List.mem_cons_self _).bind fun _ _ => sparing_ok _
  | switch target arms =>
    exact (BlockArm.sparing_closeList h).bind fun _ _ => ControlFlow.sparing_makeSwitch _ _
  | box duration b =>
    exact (h b List.mem_cons_self _).bind fun _ _ => ControlFlow.sparing_makeBox _ _

/-- What the blocks touch, some block touches. -/
theorem span_iff {P : Footprint → Prop} (hP : Footprint.Splits P) :
    P k.span ↔ ∃ b ∈ k.blocks, P b.span := by
  cases k with
  | ifElse condition t f =>
    cases f with
    | none => simp [span, blocks, Block.branchSpan]
    | some f => simp [span, blocks, Block.branchSpan, hP.union]
  | switch target arms => simp [span, blocks, BlockArm.spanList_iff hP, hP.empty]
  | whileLoop condition b => simp [span, blocks]
  | forLoop indices parameter b => simp [span, blocks]
  | box duration b => simp [span, blocks]

theorem nodup_span (h : ∀ b ∈ k.blocks, b.footprint.captures.Nodup) : k.span.captures.Nodup := by
  cases k with
  | ifElse condition t f =>
    have ht := Block.nodup_span (h t List.mem_cons_self)
    cases f with
    | none => exact ht
    | some f => exact Distinct.nodup_union _ ht
  | switch target arms => exact BlockArm.nodup_spanList .nil
  | whileLoop condition b => exact Block.nodup_span (h b List.mem_cons_self)
  | forLoop indices parameter b => exact Block.nodup_span (h b List.mem_cons_self)
  | box duration b => exact Block.nodup_span (h b List.mem_cons_self)

/-- What forbids jumps in the blocks of a builder that ends here. -/
def ban (c : Circuit) : Closing → Option JumpBan
  | ifElse _ _ _ | switch _ _ => c.branchBan
  | whileLoop _ _ | forLoop _ _ _ => none
  | box _ _ => some .insideBox

/-- A builder at its end: the blocks are in their places, and what the operation itself reads
has been noted. -/
structure Ready (k : Closing) (c : Circuit) : Prop where
  placed : ∀ b ∈ k.blocks, b.Scoped c.content c.blocks
  declared : ∀ i ∈ k.identifiers, Declares c.content c.blocks i
  resolves : ∀ i ∈ k.identifiers, ∀ top ∈ c.blocks.head?, top.resolves i
  ban : ∀ b ∈ k.blocks, b.ban = k.ban c

/-- The block of a loop. -/
def loop? : Closing → Option Block
  | whileLoop _ b | forLoop _ _ b => some b
  | _ => none

/-- The block of a loop or a box. -/
def body? : Closing → Option Block
  | whileLoop _ b | forLoop _ _ b | box _ b => some b
  | _ => none

/-! ## Blocks that are closed here -/

theorem body?_eq_some {b : Block} (h : k.body? = some b) : k.blocks = [b] ∧ k.item? = none := by
  cases k <;> cases h <;> exact ⟨rfl, rfl⟩

theorem body?_of_loop? {b : Block} (h : k.loop? = some b) : k.body? = some b := by
  cases k <;> cases h <;> rfl

/-- A builder with branches that is not left to wait has no jump in them. -/
theorem awaitsLoop_eq_false (hitem : k.item? = none) (hbody : k.body? = none) :
    ∀ b ∈ k.blocks, b.awaitsLoop = false := by
  intro b hb
  cases k with
  | ifElse condition t f =>
    simp only [item?, ite_eq_right_iff, reduceCtorEq, imp_false, Bool.not_eq_true,
      Bool.or_eq_false_iff, Option.any_eq_false] at hitem
    obtain ⟨ht, hf⟩ := hitem
    rcases List.mem_cons.1 hb with rfl | hb
    · exact ht
    · exact hf b (Option.mem_toList.1 hb)
  | switch target arms =>
    simp only [item?, ite_eq_right_iff, reduceCtorEq, imp_false, List.any_eq_true, not_exists,
      not_and, Bool.not_eq_true] at hitem
    obtain ⟨arm, harm, rfl⟩ := List.mem_map.1 hb
    exact hitem arm harm
  | whileLoop _ _ | forLoop _ _ _ | box _ _ => cases hbody

/-- What waits for a loop to close waits in the block of the loop. -/
theorem Ready.waiting_eq_nil (h : k.Ready c) (hitem : k.item? = none) (hloop : k.loop? = none) :
    ∀ b ∈ k.blocks, b.waiting = [] := by
  intro b hb
  refine Block.waiting_eq_nil ?_
  cases k with
  | ifElse _ _ _ | switch _ _ =>
    exact Block.awaitsLoop_eq_false_iff.1 (awaitsLoop_eq_false hitem rfl b hb)
  | whileLoop condition body => cases hloop
  | forLoop indices parameter body => cases hloop
  | box duration body =>
    refine (h.placed b hb).ban ?_
    rw [h.ban b hb]
    exact Option.some_ne_none _

/-- Only the block of a loop can be tangled. -/
theorem Ready.untangled (h : k.Ready c) (hitem : k.item? = none)
    (hk : ∀ b ∈ k.loop?, b.Untangled) : ∀ b ∈ k.blocks, b.Untangled := by
  intro b hb
  cases hloop : k.loop? with
  | none => exact (h.placed b hb).untangled (h.waiting_eq_nil hitem hloop b hb)
  | some body =>
    rw [(body?_eq_some (body?_of_loop? hloop)).1] at hb
    exact List.mem_singleton.1 hb ▸ hk body hloop

/-- Blocks that are not tangled can be closed over all that they touch. -/
theorem Ready.serves (h : k.Ready c) (hitem : k.item? = none)
    (hk : ∀ b ∈ k.loop?, b.Untangled) :
    ∀ b ∈ k.blocks, k.span.Serves c.content c.blocks b := by
  intro b hb
  have huntangled := h.untangled hitem hk
  -- what some block captures is declared around all of them, or there is one block only
  have hforeign : ∀ i ∈ k.span.captures, Declares c.content c.blocks i ∨ i ∈ b.span.captures := by
    intro i hi
    obtain ⟨b', hb', hi⟩ := (span_iff (Footprint.splits_captures i)).1 hi
    cases hloop : k.loop? with
    | none =>
      have hcaptured := (Block.span_captures_of_waiting_eq_nil
        (h.waiting_eq_nil hitem hloop b' hb')).1 hi
      exact .inl ((h.placed b' hb').captured i hcaptured)
    | some body =>
      rw [(body?_eq_some (body?_of_loop? hloop)).1, List.mem_singleton] at hb hb'
      exact .inr (hb.trans hb'.symm ▸ hi)
  refine ⟨nodup_span fun b hb => (h.placed b hb).kept.nodup, fun name hname => ?_, fun i hi => ?_,
    fun i hi => ?_, fun p hp i hi hlocal hname => ?_⟩
  · obtain ⟨b', hb', hname⟩ := (span_iff (Footprint.splits_registers name)).1 hname
    obtain ⟨p, hp, hname⟩ := (Block.span_iff_inside (Footprint.splits_registers name)).1 hname
    obtain ⟨r, hr, rfl⟩ := List.mem_map.1 hname
    exact ((h.placed b' hb').settled p hp).1.registers r hr
  · exact (span_iff (Footprint.splits_captures i)).2 ⟨b, hb, hi⟩
  · rcases hforeign i hi with hd | hi
    · exact declares_cons_iff.2 (.inr hd)
    · refine declares_cons_iff.2 ?_
      exact (Block.resolves_iff.1 ((huntangled b hb).outward i hi)).imp id
        ((h.placed b hb).captured i)
  · rcases hforeign i hi with hd | hi
    · exact ((h.placed b hb).settled p hp).2 _ hname hd.nameTaken
    · exact (huntangled b hb).apart p hp i hi hlocal hname

/-- A block that is not tangled captures over the whole span what it captures itself. -/
theorem Ready.mem_captured_iff (h : k.Ready c) {b : Block} (hb : b ∈ k.blocks)
    (hd : Declares c.content c.blocks i) :
    i ∈ b.captured k.span ↔ ∃ b ∈ k.blocks, i ∈ b.footprint.captures := by
  have hlocal : ∀ b ∈ k.blocks, ¬ b.locals.contains i := fun b hb hi =>
    (h.placed b hb).not_declares hi hd
  have hspan : i ∈ k.span.captures ↔ ∃ b ∈ k.blocks, i ∈ b.footprint.captures := by
    rw [span_iff (Footprint.splits_captures i)]
    refine exists_congr fun b => and_congr_right fun hb => ⟨fun hi => ?_, fun hi => ?_⟩
    · exact (Block.resolves_iff.1 ((h.placed b hb).settled.resolves hi hd)).resolve_left
        (hlocal b hb)
    · exact Block.mem_span_captures.2 (.inl hi)
  rw [Block.mem_captured_iff, ← hspan]
  refine ⟨fun hi => hi.1.elim id fun hi => ?_, fun hi => ⟨.inl hi, hlocal b hb⟩⟩
  exact (span_iff (Footprint.splits_captures i)).2 ⟨b, hb, hi⟩

/-! ## The end of a builder -/

/-- Of what is declared, the operation names what it reads itself and what the blocks
capture. -/
theorem Ready.mem_identifiers (h : k.Ready c) (hmake : k.make root k.span.sorted = .ok flow)
    (hd : Declares c.content c.blocks i) :
    i ∈ flow.identifiers ↔ i ∈ k.identifiers ∨ ∃ b ∈ k.blocks, i ∈ b.footprint.captures := by
  obtain ⟨hown, hbodies⟩ := make_eq_ok hmake
  rw [ControlFlow.mem_identifiers, hown]
  refine or_congr Iff.rfl ⟨?_, fun hi => ?_⟩
  · rintro ⟨body, hbody, hi⟩
    obtain ⟨b, hb, role, hclose⟩ := Checking.exists_left hbodies hbody
    rw [(Block.close_captures hclose).1] at hi
    exact (h.mem_captured_iff hb hd).1 hi
  · have ⟨b, hb, _⟩ := hi
    obtain ⟨body, hbody, role, hclose⟩ := Checking.exists_right hbodies hb
    refine ⟨body, hbody, ?_⟩
    rw [(Block.close_captures hclose).1]
    exact (h.mem_captured_iff hb hd).2 hi

theorem closeOver_eq_ok (h : closeOver k.span (fun root f => k.make root f) c = .ok () d) :
    ∃ flow, k.make c.content k.span.sorted = .ok flow ∧
      Circuit.append (.make (.control flow) k.span.sorted.qubits k.span.sorted.clbits) c =
        .ok () d := by
  obtain ⟨c', u, hget, h⟩ := Edit.bind_eq_ok_iff.1 h
  cases hget
  obtain ⟨flow, hmake, h⟩ := Edit.ofExcept_bind_eq_ok_iff.1 h
  exact ⟨flow, hmake, h⟩

theorem run_eq_ok (h : k.run c = .ok () d) :
    (∃ item, k.item? = some item ∧ c.blocks ≠ [] ∧ d = c.onTop (·.snoc item)) ∨
      k.item? = none ∧ ∃ flow, k.make c.content k.span.sorted = .ok flow ∧
        Circuit.append (.make (.control flow) k.span.sorted.qubits k.span.sorted.clbits) c =
          .ok () d := by
  rcases run_cases k c with hrun | hrun
  · cases hrun.symm.trans h
  · cases hitem : k.item? with
    | some item =>
      simp only [hitem] at hrun
      exact .inl ⟨item, rfl, appendWaiting_eq_ok_iff.1 (hrun.symm.trans h)⟩
    | none =>
      simp only [hitem] at hrun
      exact .inr ⟨rfl, closeOver_eq_ok (hrun.symm.trans h)⟩

/-- Outside every block the end of a builder that answers appends one record to the store. -/
theorem eq_snoc_of_closed (hclosed : c.blocks = []) (h : k.run c = .ok () d) :
    ∃ r flow, r.operation = .control flow ∧ d = { c with content := c.content.snoc r } := by
  rcases run_eq_ok h with ⟨_, -, hopen, -⟩ | ⟨-, flow, -, hadded⟩
  · exact absurd hclosed hopen
  · obtain ⟨-, rfl⟩ := (append_eq_ok_iff_of_closed hclosed).1 hadded
    exact ⟨_, flow, rfl, rfl⟩

/-- An item that waits names what its builder does, and holds its blocks, one with a jump. -/
theorem item?_eq_some {item : BlockItem} (h : k.item? = some item) :
    item.identifiers = k.identifiers ∧ item.blocks = k.blocks ∧ k.ban c = c.branchBan ∧
      ∃ b ∈ k.blocks, b.awaitsLoop = true := by
  cases k with
  | ifElse condition t f =>
    simp only [item?, Option.ite_none_right_eq_some, Bool.or_eq_true, Option.any_eq_true_iff_get,
      Option.some.injEq] at h
    obtain ⟨hwaits, rfl⟩ := h
    refine ⟨rfl, rfl, rfl, ?_⟩
    rcases hwaits with ht | ⟨hf, hwaits⟩
    · exact ⟨t, List.mem_cons_self, ht⟩
    · exact ⟨f.get hf, List.mem_cons_of_mem _ (Option.mem_toList.2 (Option.get_mem hf)), hwaits⟩
  | switch target arms =>
    simp only [item?, Option.ite_none_right_eq_some, List.any_eq_true, Option.some.injEq] at h
    obtain ⟨⟨arm, harm, hwaits⟩, rfl⟩ := h
    exact ⟨rfl, rfl, rfl, arm.block, List.mem_map_of_mem harm, hwaits⟩
  | whileLoop condition body => cases h
  | forLoop indices parameter body => cases h
  | box duration body => cases h

/-- At its end a builder notes nothing that was not noted before. -/
theorem Ready.proceeds (h : k.Ready c) (hc : c.WellScoped) (hrun : k.run c = .ok () d) :
    Proceeds (fun i => i ∈ k.identifiers ∨ ∃ b ∈ k.blocks, i ∈ b.footprint.captures) c d := by
  rcases run_eq_ok hrun with ⟨item, hitem, hopen, rfl⟩ | ⟨hitem, flow, hmake, happend⟩
  · obtain ⟨hidentifiers, hblocks, hban, b, hb, hwaits⟩ := item?_eq_some (c := c) hitem
    obtain ⟨name, content, blocks⟩ := c
    cases blocks with
    | nil => exact absurd rfl hopen
    | cons top outer =>
      obtain ⟨hstacked, honward⟩ := Stacked.snoc hc.stacked item
        (fun i hi => h.resolves i (hidentifiers ▸ hi) top rfl)
        (fun t ht i hi => (h.placed t (hblocks ▸ ht)).passed top rfl i hi)
        (fun t ht => (h.placed t (hblocks ▸ ht)).settled.mono fun name htaken =>
          nameTaken_cons_iff.2 (.inr htaken))
        fun hne => by
          -- jumps are allowed in the blocks of the builder, and so around it
          have hall := (h.placed b hb).ban (by rw [h.ban b hb, hban]; exact hne)
          rw [Block.awaitsLoop_eq_false_iff.2 hall] at hwaits
          cases hwaits
      have hnoted := hc.stacked.outer_of_resolves (U := fun i => i ∈ k.identifiers ∨
        ∃ b ∈ k.blocks, i ∈ b.footprint.captures) fun i hi => hi.elim (h.resolves i · top rfl)
          fun ⟨b, hb, hi⟩ => (h.placed b hb).passed top rfl i hi
      refine ⟨⟨hc.names, hstacked⟩, fun _ => rfl, ?_⟩
      exact (hnoted.onward.trans honward).congr fun i _ => or_false _ ▸ Iff.rfl
  · obtain ⟨hproceeds, -⟩ := append_proceeds hc happend
    exact hproceeds.congr fun i hi => h.mem_identifiers hmake hi.of_tail

/-- Where no block is tangled, no identifier keeps the builder from ending. -/
theorem Ready.sparingAt_run (h : k.Ready c) (hc : c.WellScoped)
    (hk : ∀ b ∈ k.loop?, b.Untangled) : k.run.SparingAt c := by
  intro e t hrun
  rcases run_cases k c with hcases | hcases
  · cases hcases.symm.trans hrun
    exact id
  · cases hitem : k.item? with
    | some item =>
      simp only [hitem] at hcases
      rw [hcases] at hrun
      unfold appendWaiting at hrun
      split at hrun <;> cases hrun
      exact id
    | none =>
      simp only [hitem] at hcases
      rw [hcases] at hrun
      have hserves := h.serves hitem hk
      have hmake : Sparing (k.make c.content k.span.sorted) := by
        refine sparing_make fun b hb role => Block.close_sparing (fun p hp => ?_)
          (hserves b hb).sorted.covers role
        exact (hserves b hb).sorted.closable hc.names ⟨h.placed b hb, hc.stacked⟩ hp
      refine Edit.SparingAt.bind (s := c) (Edit.sparingAt_ofExcept hmake) (fun flow u hmade => ?_)
        e t hrun
      obtain ⟨hflow, rfl⟩ := Edit.ofExcept_eq_ok_iff.1 hmade
      obtain ⟨hown, hbodies⟩ := make_eq_ok hflow
      -- the captures of a body are declared, but not by its own block
      refine sparingAt_append hc fun i hi => ?_
      rcases ControlFlow.mem_identifiers.1 hi with hi | ⟨body, hbody, hi⟩
      · exact h.declared i (hown ▸ hi)
      · obtain ⟨b, hb, role, hclose⟩ := Checking.exists_left hbodies hbody
        rw [(Block.close_captures hclose).1] at hi
        obtain ⟨hspan, hlocal⟩ := Block.mem_captured_iff.1 hi
        have hdeclared := (hserves b hb).declared i (hspan.elim id ((hserves b hb).covers i))
        exact (declares_cons_iff.1 hdeclared).resolve_left hlocal

/-- A loop or a box that has ended is the last record of its scope. Its body is the closed
block, and captures only what is declared in the scope. -/
theorem body_of_ok {b : Block} (hbody : k.body? = some b) (hc : c.WellScoped)
    (hrun : k.run c = .ok () d) : ∃ r body role, d.last? = some r ∧ r.operation.bodies = [body] ∧
      b.close c.content k.span.sorted role = .ok body ∧
      ∀ i ∈ body.content.identifiers.ofKind .capture, Declares c.content c.blocks i := by
  obtain ⟨hblocks, hitem⟩ := body?_eq_some hbody
  rcases run_eq_ok hrun with ⟨item, hsome, -⟩ | ⟨-, flow, hmake, happend⟩
  · cases hitem.symm.trans hsome
  · obtain ⟨-, hlast⟩ := append_proceeds hc happend
    obtain ⟨-, hbodies⟩ := make_eq_ok hmake
    rw [hblocks] at hbodies
    generalize hlist : flow.bodies = bodies at hbodies
    obtain _ | ⟨⟨role, hclose⟩, _ | _⟩ := hbodies
    refine ⟨_, _, role, hlast, hlist, hclose, fun i hi => declares_of_append hc happend i ?_⟩
    exact ControlFlow.mem_identifiers.2 (.inr ⟨_, hlist ▸ List.mem_cons_self, hi⟩)

/-- A loop that has ended was not tangled. -/
theorem Ready.untangled_of_ok (h : k.Ready c) (hc : c.WellScoped) (hrun : k.run c = .ok () d) :
    ∀ b ∈ k.loop?, b.Untangled := by
  intro b hloop
  have hbody := body?_of_loop? hloop
  obtain ⟨hblocks, hitem⟩ := body?_eq_some hbody
  have hb : b ∈ k.blocks := hblocks ▸ List.mem_cons_self
  have hsettled := (h.placed b hb).settled
  obtain ⟨r, body, role, -, -, hclose, hdeclared⟩ := body_of_ok hbody hc hrun
  rw [(Block.close_captures hclose).1] at hdeclared
  have hspan : ∀ i ∈ b.span.captures, i ∈ k.span.captures := fun i hi =>
    (span_iff (Footprint.splits_captures i)).2 ⟨b, hb, hi⟩
  refine ⟨fun i hi => ?_, fun p hp i hi hlocal hname => ?_⟩
  · -- what the closed body captures is declared around the loop, and there the loop resolves it
    by_contra hres
    have hlocal : ¬ b.locals.contains i := fun hi => hres (Block.resolves_iff.2 (.inl hi))
    have hd := hdeclared i (Block.mem_captured_iff.2 ⟨.inl (hspan i hi), hlocal⟩)
    exact hres (hsettled.resolves hi hd)
  · -- the body of the block inside would list the name twice
    obtain ⟨role', body', hclose'⟩ := Block.close_inside hp hclose
    obtain ⟨-, hnames, -⟩ := Block.close_captures hclose'
    rw [IdentifierTable.hasName_iff, ← (hsettled p hp).1.locals.names_toList] at hname
    obtain ⟨⟨j, kind⟩, hj, hsame⟩ := List.mem_map.1 hname
    rw [Block.enters, List.map_append, List.nodup_append] at hnames
    refine hnames.2.2 i.name ?_ i.name ?_ rfl
    · exact List.mem_map_of_mem (Block.mem_captured_iff.2 ⟨.inl (hspan i hi), hlocal⟩)
    · exact List.mem_map.2 ⟨j, List.mem_map_of_mem (f := (·.1)) hj, hsame⟩

/-- The body of a loop or a box that has ended captures what its block captured. -/
theorem Ready.captures_of_ok {b : Block} (h : k.Ready c) (hbody : k.body? = some b)
    (hc : c.WellScoped) (hrun : k.run c = .ok () d) :
    ∃ r body, d.last? = some r ∧ r.operation.bodies = [body] ∧
      ∀ i, i ∈ body.content.identifiers.ofKind .capture ↔ i ∈ b.footprint.captures := by
  obtain ⟨hblocks, -⟩ := body?_eq_some hbody
  have hb : b ∈ k.blocks := hblocks ▸ List.mem_cons_self
  obtain ⟨r, body, role, hlast, hbodies, hclose, hdeclared⟩ := body_of_ok hbody hc hrun
  refine ⟨r, body, hlast, hbodies, fun i => ?_⟩
  rw [(Block.close_captures hclose).1] at hdeclared ⊢
  have hiff : Declares c.content c.blocks i →
      (i ∈ b.captured k.span.sorted ↔ i ∈ b.footprint.captures) := by
    intro hd
    refine (h.mem_captured_iff hb hd).trans ?_
    rw [hblocks]
    simp
  refine ⟨fun hi => (hiff (hdeclared i hi)).1 hi, fun hi => ?_⟩
  exact (hiff ((h.placed b hb).captured i hi)).2 hi

end Circuit.Closing

end QuantumCircuit
