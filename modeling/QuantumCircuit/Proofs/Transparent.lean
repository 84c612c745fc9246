import QuantumCircuit.Proofs.Forms
import QuantumCircuit.Proofs.Mirroring

/-!
# Scopes are transparent

A program of calls on the scope, compositions and builders adds the same records to a circuit
without open blocks as to the body of a box: in the same order, with the same operations and
labels, on the same bits (`Circuit.box_transparent`).

The two runs stay in step (`Circuit.Mirrors`). At the end of a builder the blocks of both runs
are the same, so they become the same record (`Circuit.Closing.mirrors`).
-/

namespace QuantumCircuit

open Builder (Form)
open Circuit (Call Closing Mirrors Mirrored)

/-! ## Blocks that are closed over equal bits -/

section Congr

variable {root root' : Content} {f : Footprint}

theorem Content.importBits_congr (h : ∀ k, root'.bits k = root.bits k) {k : BitKind}
    (positions : List Nat) : importBits root' k positions = importBits root k positions := by
  induction positions with
  | nil => rfl
  | cons position rest ih =>
    unfold importBits
    rw [h, ih]

theorem Content.prepareBody_congr (h : ∀ k, root'.bits k = root.bits k)
    (captures : List Identifier) (locals : IdentifierTable) :
    prepareBody root' f captures locals = prepareBody root f captures locals := by
  unfold prepareBody
  rw [importBits_congr h, importBits_congr h]

mutual

/-- Of the circuit around it a body has the bits only. -/
theorem Block.close_congr (h : ∀ k, root'.bits k = root.bits k) (role : BodyRole) :
    ∀ b : Block, b.close root' f role = b.close root f role
  | ⟨footprint, locals, items, ban⟩ => by
    have hitems := fun qubits clbits => BlockItem.closeList_congr h qubits clbits items
    unfold Block.close
    simp only [Content.prepareBody_congr h, hitems]

theorem BlockItem.closeList_congr (h : ∀ k, root'.bits k = root.bits k)
    (qubits clbits : List (Nat × Nat)) :
    ∀ items : List BlockItem,
      BlockItem.closeList root' f qubits clbits items =
        BlockItem.closeList root f qubits clbits items
  | [] => rfl
  | .record i :: rest => by
    have hrest := BlockItem.closeList_congr h qubits clbits rest
    simp only [BlockItem.closeList, hrest]
  | .jump j :: rest => by
    have hrest := BlockItem.closeList_congr h qubits clbits rest
    simp only [BlockItem.closeList, hrest]
  | .branch condition t none :: rest => by
    have ht := Block.close_congr h .ifBody t
    have hrest := BlockItem.closeList_congr h qubits clbits rest
    simp only [BlockItem.closeList, ht, hrest]
  | .branch condition t (some e) :: rest => by
    have ht := Block.close_congr h .ifBody t
    have he := Block.close_congr h .elseBody e
    have hrest := BlockItem.closeList_congr h qubits clbits rest
    simp only [BlockItem.closeList, ht, he, hrest]
  | .dispatch target arms :: rest => by
    have harms := BlockArm.closeList_congr h arms
    have hrest := BlockItem.closeList_congr h qubits clbits rest
    simp only [BlockItem.closeList, harms, hrest]

theorem BlockArm.closeList_congr (h : ∀ k, root'.bits k = root.bits k) :
    ∀ arms : List BlockArm, BlockArm.closeList root' f arms = BlockArm.closeList root f arms
  | [] => rfl
  | ⟨labels, block⟩ :: rest => by
    have hblock := Block.close_congr h .caseBody block
    have hrest := BlockArm.closeList_congr h rest
    simp only [BlockArm.closeList, hblock, hrest]

end

end Congr

/-! ## Blocks that are closed without a word about jumps -/

theorem Block.span_unbanned (b : Block) : b.unbanned.span = b.span := by
  cases b
  rfl

theorem Block.close_unbanned (root : Content) (f : Footprint) (role : BodyRole) (b : Block) :
    b.unbanned.close root f role = b.close root f role := by
  cases b
  rfl

theorem Block.awaitsLoop_unbanned (b : Block) : b.unbanned.awaitsLoop = b.awaitsLoop := rfl

/-- The case without a word about jumps. -/
def BlockArm.unbanned (a : BlockArm) : BlockArm := ⟨a.labels, a.block.unbanned⟩

theorem BlockArm.spanList_unbanned (arms : List BlockArm) (acc : Footprint) :
    spanList acc (arms.map (·.unbanned)) = spanList acc arms := by
  induction arms generalizing acc with
  | nil => rfl
  | cons a rest ih =>
    obtain ⟨labels, block⟩ := a
    show spanList (acc.union block.unbanned.span) (rest.map (·.unbanned)) = _
    rw [ih, Block.span_unbanned]
    rfl

theorem BlockArm.closeList_unbanned (root : Content) (f : Footprint) (arms : List BlockArm) :
    closeList root f (arms.map (·.unbanned)) = closeList root f arms := by
  induction arms with
  | nil => rfl
  | cons a rest ih =>
    obtain ⟨labels, block⟩ := a
    show closeList root f (⟨labels, block.unbanned⟩ :: rest.map (·.unbanned)) = _
    simp only [closeList, Block.close_unbanned, ih]

/-- Cases with the same labels are the same but for a word about jumps if their blocks are. -/
theorem BlockArm.map_unbanned {arms arms' : List BlockArm}
    (hlabels : arms'.map (·.labels) = arms.map (·.labels))
    (htwins : List.Forall₂ Block.Twin (arms.map (·.block)) (arms'.map (·.block))) :
    arms'.map (·.unbanned) = arms.map (·.unbanned) := by
  induction arms generalizing arms' with
  | nil =>
    obtain rfl := List.map_eq_nil_iff.1 hlabels
    rfl
  | cons a rest ih =>
    cases arms' with
    | nil => cases hlabels
    | cons a' rest' =>
      obtain ⟨hlabel, hlabels⟩ := List.cons_eq_cons.1 hlabels
      obtain ⟨htwin, htwins⟩ := List.forall₂_cons.1 htwins
      have hhead : a'.unbanned = a.unbanned := congrArg₂ BlockArm.mk hlabel htwin.same
      rw [List.map_cons, List.map_cons, ih hlabels htwins, hhead]

namespace Circuit.Closing

variable {k k' : Closing} {root root' : Content} {f : Footprint}

/-- The end of a builder without a word about jumps. -/
def unbanned : Closing → Closing
  | ifElse condition t e => ifElse condition t.unbanned (e.map (·.unbanned))
  | whileLoop condition b => whileLoop condition b.unbanned
  | forLoop indices parameter b => forLoop indices parameter b.unbanned
  | switch target arms => switch target (arms.map (·.unbanned))
  | box duration b => box duration b.unbanned

theorem span_unbanned (k : Closing) : k.unbanned.span = k.span := by
  cases k with
  | ifElse condition t e =>
    cases e with
    | none => exact Block.span_unbanned t
    | some e => exact congrArg₂ Footprint.union (Block.span_unbanned t) (Block.span_unbanned e)
  | switch target arms => exact BlockArm.spanList_unbanned arms .empty
  | whileLoop condition b | forLoop indices parameter b | box duration b =>
    exact Block.span_unbanned b

theorem make_unbanned (k : Closing) : k.unbanned.make root f = k.make root f := by
  cases k with
  | ifElse condition t e => cases e <;> simp only [unbanned, make, Block.close_unbanned,
      Option.map_none, Option.map_some, Block.closeOption]
  | switch target arms => simp only [unbanned, make, BlockArm.closeList_unbanned]
  | whileLoop condition b | forLoop indices parameter b | box duration b =>
    simp only [unbanned, make, Block.close_unbanned]

theorem make_congr (h : ∀ k, root'.bits k = root.bits k) (k : Closing) :
    k.make root' f = k.make root f := by
  cases k with
  | ifElse condition t e => cases e <;> simp only [make, Block.close_congr h, Block.closeOption]
  | switch target arms => simp only [make, BlockArm.closeList_congr h]
  | whileLoop condition b | forLoop indices parameter b | box duration b =>
    simp only [make, Block.close_congr h]

theorem item?_unbanned (h : k'.unbanned = k.unbanned) : k'.item? = none ↔ k.item? = none := by
  -- whether something waits has nothing to do with what forbids jumps
  have hself : ∀ k : Closing, k.unbanned.item? = none ↔ k.item? = none := by
    intro k
    cases k with
    | ifElse condition t e => cases e <;> simp [unbanned, item?, Block.awaitsLoop_unbanned]
    | switch target arms =>
      simp [unbanned, item?, BlockArm.unbanned, Block.awaitsLoop_unbanned, Function.comp_def]
    | whileLoop condition b | forLoop indices parameter b | box duration b => exact Iff.rfl
  rw [← hself k', h, hself k]

theorem unbanned_of_bans (h : ∀ b ∈ k.blocks, b.ban = none) : k.unbanned = k := by
  have hself : ∀ b : Block, b.ban = none → b.unbanned = b := by
    intro b hb
    obtain ⟨footprint, locals, items, ban⟩ := b
    cases hb
    rfl
  cases k with
  | ifElse condition t e =>
    cases e with
    | none => rw [unbanned, hself t (h t List.mem_cons_self), Option.map_none]
    | some e =>
      obtain ⟨ht, he⟩ := List.forall_mem_cons.1 h
      rw [unbanned, hself t ht, Option.map_some, hself e (he e List.mem_cons_self)]
  | switch target arms =>
    have harms : arms.map (·.unbanned) = arms := by
      refine (List.map_congr_left fun a ha => ?_).trans arms.map_id
      have hblock := hself a.block (h a.block (List.mem_map_of_mem ha))
      obtain ⟨labels, block⟩ := a
      exact congrArg (BlockArm.mk labels) hblock
    rw [unbanned, harms]
  | whileLoop condition b | forLoop indices parameter b | box duration b =>
    rw [unbanned, hself b (h b List.mem_cons_self)]

/-- A builder whose blocks are the same in both runs ends in the same way: with the same item
that waits, or with the same record. -/
theorem mirrors {old : List Instruction} {bans : List (Option JumpBan)} {x y d f : Circuit}
    (h : Mirrors old bans x y) (hsame : k'.unbanned = k.unbanned)
    (htwins : List.Forall₂ Block.Twin k.blocks k'.blocks) (hbans : ∀ b ∈ k.blocks, b.ban = k.ban x)
    (hd : k.run x = .ok () d) (hf : k'.run y = .ok () f) : Mirrors old bans d f := by
  rcases run_eq_ok hd with ⟨item, hitem, hopen, rfl⟩ | ⟨hitem, flow, hmake, happend⟩
  · obtain ⟨-, -, hban, b, hb, hawaits⟩ := item?_eq_some (c := x) hitem
    -- something waits in a block, so that no jump is forbidden in any, or in the one around
    have hnone : k.ban x = none := by
      by_contra hforbidden
      obtain ⟨b', -, htwin⟩ := Checking.exists_right htwins hb
      have hcalm := htwin.calm (hbans b hb ▸ hforbidden)
      exact Bool.noConfusion (hcalm.symm.trans hawaits)
    have hall : ∀ b ∈ k.blocks, b.ban = none := fun b hb => (hbans b hb).trans hnone
    have hall' : ∀ b ∈ k'.blocks, b.ban = none := fun b' hb' => by
      obtain ⟨b, hb, htwin⟩ := Checking.exists_left htwins hb'
      exact htwin.ban.2 (hall b hb)
    obtain rfl : k' = k := (unbanned_of_bans hall').symm.trans (hsame.trans (unbanned_of_bans hall))
    -- the item goes into a block in which jumps are allowed
    have hhead : bans.head? = some none := by
      rw [hban, branchBan] at hnone
      split at hnone
      · cases hnone
      · rename_i hblocks
        rw [← h.bans, hblocks, List.map_cons, List.head?_cons, hnone]
    rcases run_eq_ok hf with ⟨item', hitem', -, rfl⟩ | ⟨hnothing, -⟩
    · cases hitem.symm.trans hitem'
      exact h.snoc_open hopen fun hforbidden => absurd hhead hforbidden
    · cases hitem.symm.trans hnothing
  · rcases run_eq_ok hf with ⟨item', hitem', -⟩ | ⟨-, flow', hmake', happend'⟩
    · cases ((item?_unbanned hsame).2 hitem).symm.trans hitem'
    -- nothing waits, so each run makes a record of the same blocks over the same bits
    have hspan : k'.span = k.span := by rw [← span_unbanned k', hsame, span_unbanned k]
    have hflow : k'.make y.content k'.span.sorted = k.make x.content k.span.sorted := by
      rw [make_congr h.bits, ← make_unbanned k', hsame, make_unbanned, hspan]
    cases hmake.symm.trans (hflow.symm.trans hmake')
    rw [hspan] at happend'
    exact Mirrored.append _ old bans x y d f h happend happend'

end Circuit.Closing

/-! ## Builders in step -/

namespace Builder.Form

variable {old : List Instruction} {bans : List (Option JumpBan)} {x y d f : Circuit}
  {form : Form Circuit} {template template' : Block} {blocks blocks' : List Block}

/-- Why jumps are forbidden in the bodies of a builder. -/
def ban (c : Circuit) : Form Circuit → Option JumpBan
  | ifTest _ _ | ifElse _ _ _ | switch _ _ => c.branchBan
  | whileLoop _ _ | forLoop _ _ _ => none
  | box _ _ => some .insideBox

theorem ban_congr {c c' : Circuit} (h : c'.branchBan = c.branchBan) : form.ban c' = form.ban c := by
  cases form <;> first | exact h | rfl

/-- A branch that is opened in the box forbids jumps just if the other one does. -/
theorem branchBan_eq_none_iff (h : Mirrors old bans x y) :
    y.branchBan = none ↔ x.branchBan = none := by
  obtain ⟨added, -, hblocks⟩ := h.blocks
  obtain ⟨name, content, inner⟩ := x
  obtain ⟨name', content', blocks⟩ := y
  cases hblocks with
  | box hban hitems => exact iff_of_false hban (Option.some_ne_none _)
  | inner htwin hrest => exact htwin.ban

/-- As long as the runs stay in step, what forbids jumps in branches stays. -/
theorem branchBan_eq (h : Mirrors old bans x y) (h' : Mirrors old bans d f) :
    d.branchBan = x.branchBan := by
  have hread : ∀ c : Circuit,
      c.branchBan = (c.blocks.map (·.ban)).head?.getD (some .outsideLoop) := by
    intro c
    unfold Circuit.branchBan
    cases c.blocks <;> rfl
  rw [hread, hread, h.bans, h'.bans]

theorem useInScope_mirrored (u : ClassicalUse) (is : List Identifier) :
    Mirrored (Circuit.useInScope u is) :=
  (Mirrored.useClassical u).bind (.each .useIdentifier is)

/-- Blocks that are opened over equal bits are the same. -/
theorem twin_of_seeded (h : Mirrors old bans x y) {u : ClassicalUse} {ban ban' : Option JumpBan}
    (hban : ban' = none ↔ ban = none) (hx : Block.seeded x.content u ban = .ok template)
    (hy : Block.seeded y.content u ban' = .ok template') : template.Twin template' := by
  obtain ⟨positions, hpositions, htemplate⟩ := Checking.bind_eq_ok_iff.1 hx
  obtain ⟨positions', hpositions', htemplate'⟩ := Checking.bind_eq_ok_iff.1 hy
  cases htemplate
  cases htemplate'
  rw [Content.resolveAll_congr h.bits, hpositions] at hpositions'
  cases hpositions'
  exact ⟨rfl, hban, fun _ => rfl⟩

/-- Builders that read clbits all begin in one way. -/
theorem opening_mirrored {u : ClassicalUse} {is : List Identifier}
    {check : Except CircuitError Unit} (ban : Circuit → Option JumpBan)
    (hban : ∀ x y, Mirrors old bans x y → (ban y = none ↔ ban x = none)) (h : Mirrors old bans x y)
    (hd : Circuit.opening check u is ban x = .ok template d)
    (hf : Circuit.opening check u is ban y = .ok template' f) :
    Mirrors old bans d f ∧ template.Twin template' ∧ template.ban = ban d := by
  obtain ⟨huse, hseeded⟩ := Circuit.opening_eq_ok hd
  obtain ⟨huse', hseeded'⟩ := Circuit.opening_eq_ok hf
  have hopened := useInScope_mirrored u is old bans _ _ _ _ h huse huse'
  refine ⟨hopened, twin_of_seeded hopened (hban _ _ hopened) hseeded hseeded', ?_⟩
  obtain ⟨positions, -, htemplate⟩ := Checking.bind_eq_ok_iff.1 hseeded
  cases htemplate
  rfl

theorem twin_empty (ban : Option JumpBan) : (Block.empty ban).Twin (Block.empty ban) :=
  ⟨rfl, Iff.rfl, fun _ => rfl⟩

/-- After their heads the bodies of a builder start from the same block in both runs. -/
theorem head_mirrored (h : Mirrors old bans x y) (hd : form.head x = .ok template d)
    (hf : form.head y = .ok template' f) :
    Mirrors old bans d f ∧ template.Twin template' ∧ template.ban = form.ban d := by
  cases form with
  | ifTest condition body | ifElse condition trueBody falseBody | switch target cases =>
    exact opening_mirrored Circuit.branchBan (fun _ _ h => branchBan_eq_none_iff h) h hd hf
  | whileLoop condition body =>
    exact opening_mirrored (fun _ => none) (fun _ _ _ => Iff.rfl) h hd hf
  | forLoop indices parameter body =>
    cases hd
    cases hf
    exact ⟨h, twin_empty none, rfl⟩
  | box duration body =>
    -- with a duration, its identifiers are used first
    obtain ⟨htemplate, hbegun⟩ := Circuit.openBox_eq_ok hd
    obtain ⟨htemplate', hbegun'⟩ := Circuit.openBox_eq_ok hf
    rw [htemplate, htemplate']
    rcases hbegun with ⟨hduration, rfl⟩ | ⟨t, hduration, huse⟩
    · obtain ⟨-, rfl⟩ := hbegun'.resolve_right (by simp [hduration])
      exact ⟨h, twin_empty _, rfl⟩
    · obtain ⟨t', hduration', huse'⟩ := hbegun'.resolve_left (by simp [hduration])
      cases hduration.symm.trans hduration'
      exact ⟨useInScope_mirrored _ _ old bans _ _ _ _ h huse huse', twin_empty _, rfl⟩

/-- A body that stays in step leaves the same block in both runs. -/
theorem runBlock_mirrored {body : Edit Circuit Unit} {b b' : Block} (hbody : Mirrored body)
    (h : Mirrors old bans x y) (htwin : template.Twin template')
    (hd : runBlock .whole template body x = .ok b d)
    (hf : runBlock .whole template' body y = .ok b' f) :
    Mirrors old bans d f ∧ b.Twin b' ∧ b.ban = template.ban := by
  obtain ⟨u, outer, hu, hblocks, rfl⟩ := runBlock_eq_ok hd
  obtain ⟨v, outer', hv, hblocks', rfl⟩ := runBlock_eq_ok hf
  have hentered : Mirrors old (template.ban :: bans) (entered .whole template x)
      (entered .whole template' y) := by
    obtain ⟨added, hadded, hboxed⟩ := h.blocks
    exact ⟨h.qubits, h.clbits, h.outside, congrArg (template.ban :: ·) h.bans, added, hadded,
      .inner htwin hboxed⟩
  -- inside the body there is one twin more on top, and it is the block that is handed over
  obtain ⟨hqubits, hclbits, houtside, hbans, added, hadded, hboxed⟩ :=
    hbody old _ _ _ u v hentered hu hv
  have hblocks : u.blocks = b :: outer := hblocks
  have hblocks' : v.blocks = b' :: outer' := hblocks'
  rw [hblocks, List.map_cons, List.cons.injEq] at hbans
  rw [hblocks, hblocks'] at hboxed
  cases hboxed with
  | inner htwin hrest =>
    exact ⟨⟨hqubits, hclbits, houtside, hbans.2, added, hadded, hrest⟩, htwin, hbans.1⟩

/-- Bodies that stay in step leave the same blocks in both runs. -/
theorem ran_mirrored {bodies : List (Edit Circuit Unit)}
    (hbodies : ∀ body ∈ bodies, Mirrored body) (h : Mirrors old bans x y)
    (htwin : template.Twin template') (hd : Ran .whole false template bodies x blocks d)
    (hf : Ran .whole false template' bodies y blocks' f) :
    Mirrors old bans d f ∧ List.Forall₂ Block.Twin blocks blocks' ∧
      ∀ b ∈ blocks, b.ban = template.ban := by
  induction hd generalizing y blocks' f with
  | nil =>
    cases hf
    exact ⟨h, .nil, fun b hb => absurd hb List.not_mem_nil⟩
  | run hrun _ ih =>
    obtain ⟨hbody, hothers⟩ := List.forall_mem_cons.1 hbodies
    cases hf with
    | run hrun' hrest' =>
      obtain ⟨hnext, hb, hban⟩ := runBlock_mirrored hbody h htwin hrun hrun'
      obtain ⟨hdone, hblocks, hbans⟩ := ih hothers hnext hrest'
      exact ⟨hdone, .cons hb hblocks, List.forall_mem_cons.2 ⟨hban, hbans⟩⟩
    -- no case is tried here, so none is passed over
    | skip htried => cases htried
  | skip htried => cases htried

theorem Closes.ban_eq {k : Closing} (h : Closes false form blocks k) (c : Circuit) :
    k.ban c = form.ban c := by
  cases h <;> rfl

/-- With the same blocks a builder comes to the same end. -/
theorem Closes.unbanned {k k' : Closing} (h : Closes false form blocks k)
    (h' : Closes false form blocks' k') (htwins : List.Forall₂ Block.Twin blocks blocks') :
    k'.unbanned = k.unbanned := by
  cases h with
  | ifTest condition body b =>
    cases h'
    obtain ⟨htwin, -⟩ := List.forall₂_cons.1 htwins
    simp only [Closing.unbanned, htwin.same, Option.map_none]
  | ifElse condition trueBody falseBody t e =>
    cases h'
    obtain ⟨ht, hrest⟩ := List.forall₂_cons.1 htwins
    obtain ⟨he, -⟩ := List.forall₂_cons.1 hrest
    simp only [Closing.unbanned, ht.same, he.same, Option.map_some]
  | whileLoop condition body b | forLoop indices parameter body b | box duration body b =>
    cases h'
    obtain ⟨htwin, -⟩ := List.forall₂_cons.1 htwins
    simp only [Closing.unbanned, htwin.same]
  | switch target cases arms hlabels =>
    cases h' with
    | switch _ _ arms' hlabels' =>
      have hall : arms'.map (·.labels) = arms.map (·.labels) :=
        (hlabels' rfl).trans (hlabels rfl).symm
      simp only [Closing.unbanned, BlockArm.map_unbanned hall htwins]

/-- A builder whose bodies stay in step does so too. -/
theorem run_mirrored (hbodies : ∀ body ∈ form.bodies, Mirrored body) :
    Mirrored (form.run .whole false) := by
  intro old bans x y d f h hd hf
  obtain ⟨template, blocks, k, u, v, hbegins, hran, hcloses, hends⟩ := run_eq_ok (fun _ => rfl) hd
  obtain ⟨template', blocks', k', u', v', hbegins', hran', hcloses', hends'⟩ :=
    run_eq_ok (fun _ => rfl) hf
  rw [Construct.within_whole] at hbegins hends hbegins' hends'
  obtain ⟨hopened, htwin, hban⟩ := head_mirrored h hbegins hbegins'
  obtain ⟨hdone, htwins, hbans⟩ := ran_mirrored hbodies hopened htwin hran hran'
  -- a block forbids jumps for the reason it was opened with, and that is still the one in force
  have hkeeps : ∀ b ∈ blocks, b.ban = k.ban v := fun b hb => by
    rw [hbans b hb, hban, hcloses.ban_eq, ban_congr (branchBan_eq hopened hdone)]
  rw [← hcloses.blocks] at htwins hkeeps
  rw [← hcloses'.blocks] at htwins
  exact Closing.mirrors hdone
    (hcloses.unbanned hcloses' (hcloses.blocks ▸ hcloses'.blocks ▸ htwins)) htwins hkeeps
    hends hends'

end Builder.Form

/-! ## Programs on a circuit and in a box -/

namespace Circuit

/-- Programs of calls on the scope, of compositions, and of builders with programs for bodies. -/
inductive Program : Edit Circuit Unit → Prop
  | done : Program (pure ())
  | call {rest : Edit Circuit Unit} (k : Call) : k.OnScope → Program rest → Program (do
      k.run
      rest)
  | compose {rest : Edit Circuit Unit} (source : Circuit) (o : ComposeOptions) : Program rest →
      Program (do
        Circuit.compose source o
        rest)
  | build {rest : Edit Circuit Unit} (form : Form Circuit) : (∀ body ∈ form.bodies, Program body) →
      Program rest → Program (do
        form.run .whole false
        rest)

/-- Programs keep the runs in step. -/
theorem Program.mirrored {s : Edit Circuit Unit} (h : Program s) : Mirrored s := by
  induction h with
  | done => exact .done
  | call k hk _ ih => exact (Mirrored.call hk).bind ih
  | compose source o _ ih => exact (Mirrored.compose source o).bind ih
  | build form _ _ ihbodies ih => exact (Form.run_mirrored ihbodies).bind ih

/-- Before anything is run, an empty box is in step with a circuit without open blocks. -/
theorem Mirrors.start {c : Circuit} (hclosed : c.blocks = []) :
    Mirrors c.content.records [] c (Builder.entered .whole (Block.empty (some .insideBox)) c) := by
  obtain ⟨name, content, blocks⟩ := c
  cases hclosed
  exact ⟨rfl, rfl, rfl, rfl, [], (List.append_nil _).symm, .box (Option.some_ne_none _) rfl⟩

/-- A box that is closed outside every block is appended to the store. -/
theorem closeBody_box_eq_ok {u f : Circuit} {b : Block} (hclosed : u.blocks = [])
    (h : closeBody .boxBody (ControlFlow.makeBox · none) b u = .ok () f) : ∃ r body,
      b.close u.content b.span.sorted .boxBody = .ok body ∧
      f.content.records = u.content.records ++ [r] ∧ r.operation = .control (.box body none) := by
  obtain ⟨_, _, hget, h⟩ := Edit.bind_eq_ok_iff.1 h
  cases hget
  obtain ⟨flow, hflow, h⟩ := Edit.ofExcept_bind_eq_ok_iff.1 h
  obtain ⟨body, hbody, hflow⟩ := Checking.bind_eq_ok_iff.1 hflow
  obtain rfl := ControlFlow.makeBox_eq_ok hflow
  obtain ⟨-, rfl⟩ := (append_eq_ok_iff_of_closed hclosed).1 h
  exact ⟨_, body, hbody, rfl, rfl⟩

/-- A program does the same in a box as outside every block: the records that it appends when it
is run on a circuit, and the records of the body when it is run in a box there, are as many, and
one by one they are the same operation with the same label on the same bits. -/
theorem box_transparent {c d f : Circuit} {s : Edit Circuit Unit} (hs : Program s)
    (hclosed : c.blocks = []) (hdirect : s c = .ok () d)
    (hbox : Builder.box .whole none s c = .ok () f) : ∃ new r body,
      d.content.records = c.content.records ++ new ∧
      f.content.records = c.content.records ++ [r] ∧ r.operation = .control (.box body none) ∧
      List.Forall₂ (Instruction.Relocated d.content body.content) new body.content.records := by
  obtain ⟨template, _, hhead, hbox⟩ := Edit.bind_eq_ok_iff.1 hbox
  cases hhead
  obtain ⟨b, v, hrun, hend⟩ := Edit.bind_eq_ok_iff.1 hbox
  rw [Construct.within_whole] at hend
  obtain ⟨u, outer, hu, hblocks, rfl⟩ := Form.runBlock_eq_ok hrun
  have hblocks : u.blocks = b :: outer := hblocks
  have hstep := hs.mirrored _ _ _ _ d u (.start hclosed) hdirect hu
  obtain ⟨new, hnew, hboxed⟩ := hstep.blocks
  -- the direct run has closed all its blocks, so that the box is the only one left in the other
  rw [hstep.closed_iff.2 rfl, hblocks] at hboxed
  cases hboxed with
  | box _ hitems =>
    obtain ⟨r, body, hbody, hrecords, hr⟩ := closeBody_box_eq_ok rfl hend
    refine ⟨new, r, body, hnew, hrecords.trans (congrArg (· ++ [r]) hstep.outside), hr, ?_⟩
    -- the body was made from the bits of the circuit, which are those of the other run
    refine (Block.close_records hitems hbody).imp fun i j hij => ?_
    exact ⟨hij.operation, hij.label, hstep.qubits ▸ hij.qubits, hstep.clbits ▸ hij.clbits⟩

/-! ### A loop that is left, on a circuit and in a box -/

/-- Three qubits and a clbit, all loose. -/
def threeLooseQubits : Circuit :=
  ⟨"c", Content.empty.after
    [.addBit .quantum (.loose .quantum ⟨0, 0⟩), .addBit .quantum (.loose .quantum ⟨0, 1⟩),
      .addBit .quantum (.loose .quantum ⟨0, 2⟩), .addBit .classical (.loose .classical ⟨1, 0⟩)], []⟩

/-- Act on qubit 2. While the clbit is set, act on qubit 0 and leave if a variable of the loop
is true. -/
def leavesOnVariable : Edit Circuit Unit := do
  (Call.append (.make (.gate (.fixed .h)) [2] [])).run
  (Form.whileLoop (.clbit (.loose .classical ⟨1, 0⟩) true) (do
    (Call.addVar ⟨"v", .bool, ⟨2, 0⟩⟩ (.literal (.bool true))).run
    (Call.append (.make (.gate (.fixed .h)) [0] [])).run
    (Form.ifTest (.expr (.var ⟨"v", .bool, ⟨2, 0⟩⟩)) (do
      (Call.jump .leave).run
      pure ())).run .whole false
    pure ())).run .whole false
  pure ()

theorem program_leavesOnVariable : Program leavesOnVariable := by
  refine .call _ trivial (.build _ (fun body hbody => ?_) .done)
  refine List.mem_singleton.1 hbody ▸ .call _ trivial (.call _ trivial (.build _ ?_ .done))
  exact fun body hbody => List.mem_singleton.1 hbody ▸ .call _ trivial .done

/-- Qubits 0 and 2 come to stand at 0 and 1 in the box. -/
theorem box_transparent_for_loop : ∃ d f new r body,
    threeLooseQubits.blocks = [] ∧ leavesOnVariable threeLooseQubits = .ok () d ∧
      Builder.box .whole none leavesOnVariable threeLooseQubits = .ok () f ∧
      d.content.records = threeLooseQubits.content.records ++ new ∧
      f.content.records = threeLooseQubits.content.records ++ [r] ∧
      r.operation = .control (.box body none) ∧ new.map (·.qubits) = [[2], [0]] ∧
      body.content.records.map (·.qubits) = [[1], [0]] ∧
      List.Forall₂ (Instruction.Relocated d.content body.content) new body.content.records := by
  let operands : Option (List (List Nat) × List (List Nat)) :=
    match leavesOnVariable threeLooseQubits,
      Builder.box .whole none leavesOnVariable threeLooseQubits with
    | .ok _ d, .ok _ f => some (d.content.records.map (·.qubits),
        (f.content.records.flatMap (·.operation.bodies)).flatMap (·.content.records.map (·.qubits)))
    | _, _ => none
  have hoperands : operands = some ([[2], [0]], [[1], [0]]) := by decide +kernel
  have hempty : threeLooseQubits.content.records = [] := by decide +kernel
  cases hdirect : leavesOnVariable threeLooseQubits with
  | error e d => simp [operands, hdirect] at hoperands
  | ok a d =>
    cases hbox : Builder.box .whole none leavesOnVariable threeLooseQubits with
    | error e f => simp [operands, hdirect, hbox] at hoperands
    | ok a f =>
      obtain ⟨new, r, body, hnew, hrecords, hr, hall⟩ :=
        box_transparent program_leavesOnVariable rfl hdirect hbox
      obtain ⟨hqubits, hqubits'⟩ :
          new.map (·.qubits) = [[2], [0]] ∧ body.content.records.map (·.qubits) = [[1], [0]] := by
        simpa [operands, hdirect, hbox, hnew, hrecords, hempty, hr, Operation.bodies,
          ControlFlow.bodies] using hoperands
      exact ⟨d, f, new, r, body, rfl, rfl, rfl, hnew, hrecords, hr, hqubits, hqubits', hall⟩

end Circuit

end QuantumCircuit
