import QuantumCircuit.Proofs.Programs

/-!
# Programs as they run

A run goes through a program until a call is refused; `Arrives` says at which steps it
comes by and in which state, and `UsedIn` what the records that it adds name, at any depth.

What a program uses is captured by exactly the blocks between the use and the scope of
the identifier (`Step.runAll_proceeds`), so every builder comes to its end in order
(`Construct.Ends.ready`). There a loop is refused for an identifier only if it is tangled,
a tangled loop is always refused, and a loop or a box that ends captures what is used
in its body and declared around it (`Circuit.Reachable.builder_ends`).
-/

namespace QuantumCircuit

open Circuit (Call Closing Proceeds)

variable {c d e : Circuit} {i : Identifier}

/-! ## Heads of builders -/

namespace Circuit

variable {u : ClassicalUse} {is : List Identifier}

/-- What a use of identifiers finds declared. -/
theorem each_useIdentifier_declares (hc : c.WellScoped)
    (h : Edit.each useIdentifier is c = .ok () d) :
    d.content = c.content ∧ ∀ i ∈ is, Declares d.content d.blocks i := by
  induction is generalizing c with
  | nil =>
    cases h
    exact ⟨rfl, fun i hi => absurd hi List.not_mem_nil⟩
  | cons i rest ih =>
    obtain ⟨_, v, hv, h⟩ := Edit.bind_eq_ok_iff.1 h
    obtain ⟨hfirst, -⟩ := useIdentifier_proceeds hc hv
    obtain ⟨hrest, -⟩ := each_useIdentifier_proceeds hfirst.wellScoped h
    obtain ⟨hsame, hall⟩ := ih hfirst.wellScoped h
    obtain ⟨hcheck, rfl⟩ := useIdentifier_eq_ok_iff.1 hv
    refine ⟨hsame, fun j hj => ?_⟩
    rcases List.mem_cons.1 hj with rfl | hj
    · exact hrest.declares hsame (hfirst.declares rfl (hc.stacked.checkResolves_iff.1 hcheck))
    · exact hall j hj

theorem useClassical_eq_ok (h : useClassical u c = .ok () d) :
    d.content = c.content ∧ ∀ r ∈ u.registers, c.content.clbits.register? r.name ≠ none := by
  refine ⟨?_, fun r hr hnone => ?_⟩
  · rcases useClassical_leaves (.of_ok h) with rfl | ⟨positions, rfl⟩
    · rfl
    · exact onTop_content _ c
  · obtain ⟨-, hall⟩ := Checking.seq_eq_ok_iff.1 (checkClassical_of_useClassical h)
    have hlisted := Content.checkRegister_eq_ok_iff.1 (checkEach_eq_ok_iff.1 hall r hr)
    simp [BitList.hasRegister, hnone] at hlisted

end Circuit

/-- A block as builders open it: in its place, without captures. -/
structure Block.Fresh (root : Content) (outer : List Block) (ban : Option JumpBan) (b : Block) :
    Prop where
  placed : b.Scoped root outer
  captures : b.footprint.captures = []
  ban : b.ban = ban

namespace Block

variable {root : Content} {outer : List Block} {ban : Option JumpBan} {b : Block}
  {u : ClassicalUse}

theorem fresh_empty (root : Content) (outer : List Block) (ban : Option JumpBan) :
    (Block.empty ban).Fresh root outer ban where
  placed := {
    captured := fun _ hi => absurd hi List.not_mem_nil
    passed := fun _ _ _ hi => absurd hi List.not_mem_nil
    kept := ⟨IdentifierTable.listed_empty, .nil, fun _ hr => absurd hr List.not_mem_nil,
      fun _ hitem => absurd hitem List.not_mem_nil, fun _ ht => absurd ht List.not_mem_nil⟩
    free := fun _ hname => absurd hname Bool.false_ne_true
    waiting := fun _ ht => absurd ht List.not_mem_nil
    ban := fun _ _ hitem => absurd hitem List.not_mem_nil }
  captures := rfl
  ban := rfl

theorem fresh_seeded (hregisters : ∀ r ∈ u.registers, root.clbits.register? r.name ≠ none)
    (h : Block.seeded root u ban = .ok b) : b.Fresh root outer ban := by
  obtain ⟨positions, -, h⟩ := Checking.bind_eq_ok_iff.1 h
  cases h
  have hempty := fresh_empty root outer ban
  refine ⟨hempty.placed.touch hregisters ?_ ?_, rfl, rfl⟩
  · exact fun i hi => absurd hi List.not_mem_nil
  · exact fun next _ i hi => absurd hi List.not_mem_nil

end Block

namespace Construct

/-- What forbids jumps in the bodies of a builder. -/
def ban (c : Circuit) : Construct → Option JumpBan
  | ifTest _ _ | ifElse _ _ _ | switch _ _ => c.branchBan
  | whileLoop _ _ | forLoop _ _ _ => none
  | box _ _ => some .insideBox

/-- A builder whose head has been run: its bodies start from a block of their own, and what
it reads has been noted. -/
structure Opened (b : Construct) (template : Block) (c : Circuit) : Prop where
  fresh : template.Fresh c.content c.blocks (b.ban c)
  declared : ∀ i ∈ b.identifiers, Declares c.content c.blocks i
  resolves : ∀ i ∈ b.identifiers, ∀ top ∈ c.blocks.head?, top.resolves i

theorem useInScope_eq_ok {u : ClassicalUse} {is : List Identifier} (hc : c.WellScoped)
    (h : Circuit.useInScope u is c = .ok () d) :
    Proceeds (· ∈ is) c d ∧ (∀ i ∈ is, Declares d.content d.blocks i) ∧
      (∀ i ∈ is, ∀ top ∈ d.blocks.head?, top.resolves i) ∧
      ∀ r ∈ u.registers, d.content.clbits.register? r.name ≠ none := by
  obtain ⟨_, v, hclassical, h⟩ := Edit.bind_eq_ok_iff.1 h
  have hfirst := Circuit.useClassical_proceeds hc hclassical
  obtain ⟨hsame, hregisters⟩ := Circuit.useClassical_eq_ok hclassical
  obtain ⟨hrest, hresolves⟩ := Circuit.each_useIdentifier_proceeds hfirst.wellScoped h
  obtain ⟨hsame', hdeclares⟩ := Circuit.each_useIdentifier_declares hfirst.wellScoped h
  refine ⟨(hfirst.trans hrest).congr fun i _ => false_or _ ▸ Iff.rfl, hdeclares, hresolves, ?_⟩
  rw [hsame', hsame]
  exact hregisters

theorem head_opened {b : Construct} {template : Block} (hc : c.WellScoped)
    (h : b.head c = .ok template d) :
    Proceeds (· ∈ b.identifiers) c d ∧ b.Opened template d := by
  have hnone : Proceeds (· ∈ []) c c := (Proceeds.refl hc).congr fun _ _ => by simp
  cases b with
  | ifTest condition _ | ifElse condition _ _ | whileLoop condition _ | switch target _ =>
    -- the heads that read an expression check it, use what it names and open a block with its bits
    obtain ⟨huse, hseeded⟩ := Circuit.opening_eq_ok h
    obtain ⟨hproceeds, hdeclares, hresolves, hregisters⟩ := useInScope_eq_ok hc huse
    exact ⟨hproceeds, Block.fresh_seeded hregisters hseeded, hdeclares, hresolves⟩
  | forLoop indices parameter body =>
    cases h
    exact ⟨hnone, Block.fresh_empty _ _ _, fun i hi => absurd hi List.not_mem_nil,
      fun i hi => absurd hi List.not_mem_nil⟩
  | box duration body =>
    obtain ⟨rfl, ⟨rfl, rfl⟩ | ⟨t, rfl, huse⟩⟩ := Circuit.openBox_eq_ok h
    · exact ⟨hnone, Block.fresh_empty _ _ _, fun i hi => absurd hi List.not_mem_nil,
        fun i hi => absurd hi List.not_mem_nil⟩
    · obtain ⟨hproceeds, hdeclares, hresolves, -⟩ := useInScope_eq_ok hc huse
      exact ⟨hproceeds, Block.fresh_empty _ _ _, hdeclares, hresolves⟩

end Construct

/-! ## Where a run comes by -/

/-- That the run of `bodies` from `c` starts `body` in the state `d`. -/
inductive Construct.BodyStarts (template : Block) :
    List (Except CircuitError Unit × List Step) → Circuit → List Step → Circuit → Prop
  | first {body : List Step} {rest : List (Except CircuitError Unit × List Step)} {c : Circuit} :
      BodyStarts template ((.ok (), body) :: rest) c body { c with blocks := template :: c.blocks }
  | next {before body : List Step} {rest : List (Except CircuitError Unit × List Step)}
      {c d e : Circuit} {b : Block} :
      Builder.runBlock .whole template (Step.runAll before) c = .ok b d →
        BodyStarts template rest d body e → BodyStarts template ((.ok (), before) :: rest) c body e

/-- That the run of a builder from `c` starts `body` in the state `d`. -/
def Construct.Starts (b : Construct) (c : Circuit) (body : List Step) (d : Circuit) : Prop :=
  ∃ template u, b.head c = .ok template u ∧ BodyStarts template b.bodies u body d

/-- That the run of a program from `c` comes to the step `s` in the state `d`, in the program
itself or in a body at any depth. -/
inductive Arrives : List Step → Circuit → Step → Circuit → Prop
  | here {s : Step} {rest : List Step} {c : Circuit} : Arrives (s :: rest) c s c
  | later {s t : Step} {rest : List Step} {c d e : Circuit} :
      s.run c = .ok () d → Arrives rest d t e → Arrives (s :: rest) c t e
  | inside {b : Construct} {s : Step} {body rest : List Step} {c d e : Circuit} :
      b.Starts c body d → Arrives body d s e → Arrives (.build b :: rest) c s e

/-- That the step itself names the identifier: a call by its records, a builder by what it
reads. -/
def Step.Uses (c : Circuit) (i : Identifier) : Step → Prop
  | .call k _ => k.Uses c i
  | .build b => i ∈ b.identifiers

/-- That some step at any depth names the identifier, in the run of a program from `c`. -/
def UsedIn (steps : List Step) (c : Circuit) (i : Identifier) : Prop :=
  ∃ s d, Arrives steps c s d ∧ s.Uses d i

/-- That some step in the bodies names the identifier, in the run of a builder from `c`. -/
def Construct.UsedIn (b : Construct) (c : Circuit) (i : Identifier) : Prop :=
  ∃ body d, b.Starts c body d ∧ QuantumCircuit.UsedIn body d i

theorem usedIn_nil : ¬ UsedIn [] c i := fun ⟨_, _, h, _⟩ => nomatch h

theorem usedIn_call_iff {k : Call} {hk : k.OnScope} {rest : List Step} (h : k.run c = .ok () d) :
    UsedIn (.call k hk :: rest) c i ↔ k.Uses c i ∨ UsedIn rest d i := by
  constructor
  · rintro ⟨s, e, harrives, huses⟩
    cases harrives with
    | here => exact .inl huses
    | later hrun hrest =>
      cases h.symm.trans hrun
      exact .inr ⟨s, e, hrest, huses⟩
  · rintro (huses | ⟨s, e, hrest, huses⟩)
    · exact ⟨_, c, .here, huses⟩
    · exact ⟨s, e, .later h hrest, huses⟩

theorem usedIn_build_iff {b : Construct} {rest : List Step} (h : b.run c = .ok () d) :
    UsedIn (.build b :: rest) c i ↔ (i ∈ b.identifiers ∨ b.UsedIn c i) ∨ UsedIn rest d i := by
  constructor
  · rintro ⟨s, e, harrives, huses⟩
    cases harrives with
    | here => exact .inl (.inl huses)
    | later hrun hrest =>
      cases h.symm.trans hrun
      exact .inr ⟨s, e, hrest, huses⟩
    | inside hstarts hinside => exact .inl (.inr ⟨_, _, hstarts, s, e, hinside, huses⟩)
  · rintro ((huses | ⟨body, u, hstarts, s, e, hinside, huses⟩) | ⟨s, e, hrest, huses⟩)
    · exact ⟨_, c, .here, huses⟩
    · exact ⟨s, e, .inside hstarts hinside, huses⟩
    · exact ⟨s, e, .later h hrest, huses⟩

/-! ## Bodies -/

/-- What bodies come to in the blocks around them. -/
structure Circuit.Widens (U : Identifier → Prop) (c d : Circuit) : Prop where
  wellScoped : d.WellScoped
  content : d.content = c.content
  outer : Outer c.content U c.blocks d.blocks

namespace Circuit.Widens

variable {U V : Identifier → Prop}

theorem refl (hc : c.WellScoped) : Widens (fun _ => False) c c := ⟨hc, rfl, .refl _ _⟩

theorem trans (h : Widens U c d) (h' : Widens V d e) : Widens (fun i => U i ∨ V i) c e :=
  ⟨h'.wellScoped, h'.content.trans h.content, h.outer.trans (h.content ▸ h'.outer)⟩

theorem congr (h : Widens U c d) (hUV : ∀ i, U i ↔ V i) : Widens V c d :=
  ⟨h.wellScoped, h.content, h.outer.congr fun i _ => hUV i⟩

theorem proceeds (h : Widens U c d) : Proceeds U c d :=
  ⟨h.wellScoped, fun _ => h.content, h.outer.onward⟩

theorem declares_iff (h : Widens U c d) :
    Declares d.content d.blocks i ↔ Declares c.content c.blocks i := by
  rw [h.content]
  exact h.outer.declares_iff

theorem placed {b : Block} (h : Widens U c d) (hb : b.Scoped c.content c.blocks) :
    b.Scoped d.content d.blocks := by
  rw [h.content]
  exact hb.moved h.outer

theorem ban_eq (h : Widens U c d) (b : Construct) : b.ban d = b.ban c := by
  have hbranch : d.branchBan = c.branchBan := by
    have houter := h.outer
    unfold branchBan
    generalize c.blocks = blocks at houter
    generalize d.blocks = blocks' at houter
    cases houter with
    | nil => rfl
    | cons hb _ _ => exact hb.ban
  cases b <;> first | exact hbranch | rfl

end Circuit.Widens

theorem Builder.runBlock_eq_ok {template b : Block} {body : Edit Circuit Unit}
    (h : runBlock .whole template body c = .ok b d) :
    ∃ u, body { c with blocks := template :: c.blocks } = .ok () u ∧
      u.blocks = b :: d.blocks ∧ d = { u with blocks := d.blocks } := by
  cases hbody : body (Focus.whole.set { Focus.whole.get c with
      blocks := template :: (Focus.whole.get c).blocks } c) with
  | error cause u => simp only [runBlock, hbody, reduceCtorEq] at h
  | ok a u =>
    simp only [runBlock, hbody] at h
    split at h
    · split at h
      · rename_i top outer hblocks
        cases h
        exact ⟨u, hbody, hblocks, rfl⟩
      · cases h
    · cases h

/-- That the run of a program puts down what is used in it. -/
def Tracked (steps : List Step) : Prop :=
  ∀ c d, c.WellScoped → Step.runAll steps c = .ok () d → Proceeds (UsedIn steps c) c d

section Bodies

variable {template b : Block} {body : List Step} {ban : Option JumpBan}

/-- One body: its block captures what is used in the body and declared around it, and so do
the blocks around it. -/
theorem Tracked.runBlock (hbody : Tracked body) (hc : c.WellScoped)
    (hfresh : template.Fresh c.content c.blocks ban)
    (h : Builder.runBlock .whole template (Step.runAll body) c = .ok b d) :
    Circuit.Widens (UsedIn body { c with blocks := template :: c.blocks }) c d ∧
      b.Scoped d.content d.blocks ∧ b.ban = ban ∧
      ∀ i, i ∈ b.footprint.captures ↔
        UsedIn body { c with blocks := template :: c.blocks } i ∧
          Declares d.content d.blocks i := by
  obtain ⟨u, hrun, hblocks, hd⟩ := Builder.runBlock_eq_ok h
  have hproceeds := hbody { c with blocks := template :: c.blocks } u
    ⟨hc.names, hfresh.placed, hc.stacked⟩ hrun
  have hcontent : u.content = c.content := hproceeds.content (List.cons_ne_nil _ _)
  have hsame : d.content = u.content := congrArg (·.content) hd
  have hstacked := hproceeds.wellScoped.stacked
  have honward := hproceeds.onward
  rw [hblocks] at hstacked honward
  cases honward with
  | cons hextended hcaptured houter =>
    have hwidens : Circuit.Widens (UsedIn body { c with blocks := template :: c.blocks }) c d :=
      ⟨⟨hsame ▸ hproceeds.wellScoped.names, hsame ▸ hstacked.2⟩, hsame.trans hcontent, houter⟩
    refine ⟨hwidens, hsame ▸ hstacked.1, hextended.ban.trans hfresh.ban, fun i => ?_⟩
    rw [hwidens.declares_iff]
    -- the new block captures only by the steps run in it: it was opened without captures
    constructor
    · intro hi
      have hdeclared : Declares c.content c.blocks i := by
        rw [← hwidens.declares_iff, hsame]
        exact hstacked.1.captured i hi
      refine ⟨?_, hdeclared⟩
      simpa [hfresh.captures] using (hcaptured i hdeclared).1 hi
    · exact fun hi => (hcaptured i hi.2).2 (.inr hi.1)

/-- That some step in the bodies names the identifier, in their run from `c`. -/
def UsedInBodies (template : Block) (bodies : List (Except CircuitError Unit × List Step))
    (c : Circuit) (i : Identifier) : Prop :=
  ∃ body d, Construct.BodyStarts template bodies c body d ∧ UsedIn body d i

theorem usedInBodies_cons_iff {rest : List (Except CircuitError Unit × List Step)}
    (h : Builder.runBlock .whole template (Step.runAll body) c = .ok b d) :
    UsedInBodies template ((.ok (), body) :: rest) c i ↔
      UsedIn body { c with blocks := template :: c.blocks } i ∨ UsedInBodies template rest d i := by
  constructor
  · rintro ⟨body', u, hstarts, huses⟩
    cases hstarts with
    | first => exact .inl huses
    | next hrun hrest =>
      cases h.symm.trans hrun
      exact .inr ⟨body', u, hrest, huses⟩
  · rintro (huses | ⟨body', u, hrest, huses⟩)
    · exact ⟨body, _, .first, huses⟩
    · exact ⟨body', u, .next h hrest, huses⟩

/-- Bodies one after another: their blocks capture what is used in some body and declared
around them. -/
theorem runBodies_tracked {bodies : List (Except CircuitError Unit × List Step)}
    {blocks : List Block} (hall : ∀ p ∈ bodies, Tracked p.2) (hc : c.WellScoped)
    (hfresh : template.Fresh c.content c.blocks ban)
    (h : Construct.runBodies template bodies c = .ok blocks d) :
    Circuit.Widens (UsedInBodies template bodies c) c d ∧
      (∀ b ∈ blocks, b.Scoped d.content d.blocks ∧ b.ban = ban) ∧
      ∀ i, (∃ b ∈ blocks, i ∈ b.footprint.captures) ↔
        UsedInBodies template bodies c i ∧ Declares d.content d.blocks i := by
  induction bodies generalizing c blocks with
  | nil =>
    obtain ⟨rfl, rfl⟩ := Construct.runBodies_nil_iff.1 h
    have hnone : ∀ i, ¬ UsedInBodies template [] d i := fun i ⟨_, _, hstarts, _⟩ => nomatch hstarts
    refine ⟨(Circuit.Widens.refl hc).congr fun i => (iff_of_false id (hnone i)), ?_, ?_⟩
    · exact fun b hb => absurd hb List.not_mem_nil
    · simp [hnone]
  | cons first rest ih =>
    obtain ⟨check, body⟩ := first
    obtain ⟨hbody, hrest⟩ := List.forall_mem_cons.1 hall
    -- later bodies start around the circuit the first one leaves, which declares the same
    obtain ⟨b, u, others, rfl, hb, hothers, rfl⟩ := Construct.runBodies_cons_iff.1 h
    obtain ⟨hfirst, hplaced, hban, hcaptures⟩ := hbody.runBlock hc hfresh hb
    obtain ⟨hwidens, hblocks, hall'⟩ := ih hrest hfirst.wellScoped
      ⟨hfirst.placed hfresh.placed, hfresh.captures, hfresh.ban⟩ hothers
    refine ⟨(hfirst.trans hwidens).congr fun i => (usedInBodies_cons_iff hb).symm, ?_, fun i => ?_⟩
    · refine List.forall_mem_cons.2 ⟨⟨hwidens.placed hplaced, hban⟩, hblocks⟩
    · rw [usedInBodies_cons_iff hb, or_and_right, ← hall' i, hwidens.declares_iff, ← hcaptures i]
      simp

end Bodies

/-! ## Builders and programs -/

namespace Construct

variable {b : Construct} {k : Closing} {blocks : List Block} {template : Block}

theorem Closes.blocks_eq (h : b.Closes blocks k) : k.blocks = blocks := by
  cases h <;> rfl

theorem Closes.identifiers_eq (h : b.Closes blocks k) : k.identifiers = b.identifiers := by
  cases h with
  | box duration body block => cases duration <;> rfl
  | _ => rfl

theorem Closes.ban_eq (h : b.Closes blocks k) : k.ban c = b.ban c := by
  cases h <;> rfl

theorem usedIn_iff (h : b.head c = .ok template d) :
    b.UsedIn c i ↔ UsedInBodies template b.bodies d i := by
  constructor
  · rintro ⟨body, u, ⟨template', d', hhead, hstarts⟩, huses⟩
    cases h.symm.trans hhead
    exact ⟨body, u, hstarts, huses⟩
  · rintro ⟨body, u, hstarts, huses⟩
    exact ⟨body, u, ⟨template, d, h, hstarts⟩, huses⟩

/-- A builder comes to its end in order, and the blocks of its bodies have captured what is
used in them and declared around it. -/
theorem Ends.ready (hall : ∀ p ∈ b.bodies, Tracked p.2) (hc : c.WellScoped) (h : b.Ends c k d) :
    Proceeds (fun i => i ∈ b.identifiers ∨ b.UsedIn c i) c d ∧ k.Ready d ∧
      ∀ i, (∃ x ∈ k.blocks, i ∈ x.footprint.captures) ↔
        b.UsedIn c i ∧ Declares d.content d.blocks i := by
  obtain ⟨template, u, blocks, hhead, hbodies, hcloses⟩ := h
  obtain ⟨hproceeds, hfresh, hdeclared, hresolves⟩ := head_opened hc hhead
  obtain ⟨hwidens, hplaced, hcaptures⟩ := runBodies_tracked hall hproceeds.wellScoped hfresh hbodies
  refine ⟨(hproceeds.trans hwidens.proceeds).congr fun i _ => ?_, ⟨?_, ?_, ?_, ?_⟩, fun i => ?_⟩
  · rw [usedIn_iff hhead]
  · rw [hcloses.blocks_eq]
    exact fun x hx => (hplaced x hx).1
  · rw [hcloses.identifiers_eq]
    exact fun i hi => hwidens.declares_iff.2 (hdeclared i hi)
  · rw [hcloses.identifiers_eq]
    exact fun i hi => hwidens.proceeds.onward.resolves (hresolves i hi)
  · rw [hcloses.blocks_eq, hcloses.ban_eq, hwidens.ban_eq]
    exact fun x hx => (hplaced x hx).2
  · rw [hcloses.blocks_eq, usedIn_iff hhead]
    exact hcaptures i

/-- A builder puts down what it reads and what is used in its bodies. -/
theorem run_proceeds (hall : ∀ p ∈ b.bodies, Tracked p.2) (hc : c.WellScoped)
    (h : b.run c = .ok () e) : Proceeds (fun i => i ∈ b.identifiers ∨ b.UsedIn c i) c e := by
  obtain ⟨k, d, hends, hrun⟩ := run_eq_ok h
  obtain ⟨hproceeds, hready, hcaptures⟩ := hends.ready hall hc
  have hidentifiers : k.identifiers = b.identifiers := by
    obtain ⟨_, _, _, _, _, hcloses⟩ := hends
    exact hcloses.identifiers_eq
  refine (hproceeds.trans (hready.proceeds hproceeds.wellScoped hrun)).congr fun i _ => ?_
  rw [hcaptures i, hidentifiers]
  exact ⟨fun hi => hi.elim id fun hi => hi.imp id And.left, .inl⟩

theorem sizeOf_caseBodies {taken : List CaseLabel} {cases : List (List CaseLabel × List Step)}
    {p : Except CircuitError Unit × List Step} (hp : p ∈ caseBodies taken cases) :
    sizeOf p.2 < sizeOf cases := by
  induction cases generalizing taken with
  | nil => exact absurd hp List.not_mem_nil
  | cons first rest ih =>
    obtain ⟨labels, body⟩ := first
    rcases List.mem_cons.1 hp with rfl | hp
    · simp
      omega
    · have := ih hp
      simp
      omega

theorem sizeOf_bodies {p : Except CircuitError Unit × List Step} (hp : p ∈ b.bodies) :
    sizeOf p.2 < sizeOf b := by
  cases b with
  | ifTest condition body =>
    rw [List.mem_singleton.1 hp, ifTest.sizeOf_spec]
    show sizeOf body < _
    omega
  | whileLoop condition body =>
    rw [List.mem_singleton.1 hp, whileLoop.sizeOf_spec]
    show sizeOf body < _
    omega
  | box duration body =>
    rw [List.mem_singleton.1 hp, box.sizeOf_spec]
    show sizeOf body < _
    omega
  | forLoop indices parameter body =>
    rw [List.mem_singleton.1 hp, forLoop.sizeOf_spec]
    show sizeOf body < _
    omega
  | ifElse condition t f =>
    rw [ifElse.sizeOf_spec]
    rcases List.mem_cons.1 hp with rfl | hp
    · show sizeOf t < _
      omega
    · rw [List.mem_singleton.1 hp]
      show sizeOf f < _
      omega
  | switch target cases =>
    have := sizeOf_caseBodies hp
    rw [switch.sizeOf_spec]
    omega

end Construct

namespace Tracked

variable {rest : List Step}

theorem nil : Tracked [] := by
  intro c d hc h
  cases h
  exact (Proceeds.refl hc).congr fun i _ => iff_of_false id usedIn_nil

theorem call {k : Call} (hk : k.OnScope) (hrest : Tracked rest) : Tracked (.call k hk :: rest) := by
  intro c d hc h
  obtain ⟨_, u, hu, h⟩ := Edit.bind_eq_ok_iff.1 h
  have hfirst := Call.proceeds hk hc hu
  refine (hfirst.trans (hrest u d hfirst.wellScoped h)).congr fun i _ => ?_
  exact (usedIn_call_iff hu).symm

theorem build {b : Construct} (hall : ∀ p ∈ b.bodies, Tracked p.2) (hrest : Tracked rest) :
    Tracked (.build b :: rest) := by
  intro c d hc h
  obtain ⟨_, u, hu, h⟩ := Edit.bind_eq_ok_iff.1 h
  have hfirst := Construct.run_proceeds hall hc hu
  refine (hfirst.trans (hrest u d hfirst.wellScoped h)).congr fun i _ => ?_
  exact (usedIn_build_iff hu).symm

end Tracked

/-- The run of a program puts down what is used in it: each identifier is captured by the
blocks inside the scope that declares it. -/
theorem Step.runAll_proceeds : ∀ steps : List Step, Tracked steps
  | [] => .nil
  | .call _ hk :: rest => .call hk (Step.runAll_proceeds rest)
  | .build _ :: rest =>
    .build (fun p _ => Step.runAll_proceeds p.2) (Step.runAll_proceeds rest)
termination_by steps => sizeOf steps
decreasing_by
  · rw [List.cons.sizeOf_spec]
    omega
  · have := Construct.sizeOf_bodies ‹_›
    rw [List.cons.sizeOf_spec, Step.build.sizeOf_spec]
    omega
  · rw [List.cons.sizeOf_spec]
    omega

/-! ## Every builder that a run comes by -/

theorem Construct.BodyStarts.wellScoped {template : Block} {ban : Option JumpBan}
    {bodies : List (Except CircuitError Unit × List Step)} {body : List Step}
    (h : Construct.BodyStarts template bodies c body d) (hc : c.WellScoped)
    (hfresh : template.Fresh c.content c.blocks ban) : d.WellScoped := by
  induction h with
  | first => exact ⟨hc.names, hfresh.placed, hc.stacked⟩
  | next hrun _ ih =>
    obtain ⟨hwidens, -⟩ := (Step.runAll_proceeds _).runBlock hc hfresh hrun
    exact ih hwidens.wellScoped ⟨hwidens.placed hfresh.placed, hfresh.captures, hfresh.ban⟩

theorem Step.wellScoped {s : Step} (hc : c.WellScoped) (h : s.run c = .ok () d) :
    d.WellScoped := by
  cases s with
  | call k hk => exact (Call.proceeds hk hc h).wellScoped
  | build b =>
    exact (Construct.run_proceeds (fun p _ => Step.runAll_proceeds p.2) hc h).wellScoped

/-- The scopes are in order wherever a run comes by. -/
theorem Arrives.wellScoped {steps : List Step} {s : Step} (h : Arrives steps c s d)
    (hc : c.WellScoped) : d.WellScoped := by
  induction h with
  | here => exact hc
  | later hrun _ ih => exact ih (Step.wellScoped hc hrun)
  | inside hstarts _ ih =>
    obtain ⟨template, u, hhead, hstarts⟩ := hstarts
    obtain ⟨hproceeds, hopened⟩ := Construct.head_opened hc hhead
    exact ih (hstarts.wellScoped hproceeds.wellScoped hopened.fresh)

namespace Circuit

/-- A circuit without open blocks is well scoped. -/
theorem Reachable.wellScoped {A : Policy} (hc : c.Reachable A) (hopen : c.blocks = []) :
    c.WellScoped := by
  refine ⟨(hc.built.everywhere_any Content.namesFree_invariant).here, ?_⟩
  rw [hopen]
  trivial

/-- The end of any builder at any depth of a program, run from a reached circuit with no
block open. A builder is refused there for an identifier only if it is a loop whose block is
tangled, and then it is always refused. A loop or a box that is not refused becomes the last
record of its scope, and its body captures exactly what is used in it at any depth and
declared around it. -/
theorem Reachable.builder_ends {A : Policy} {program : List Step} {b : Construct} {k : Closing}
    (hc : c.Reachable A) (hopen : c.blocks = []) (harrives : Arrives program c (.build b) d)
    (hends : b.Ends d k e) :
    ((∀ block ∈ k.loop?, block.Untangled) → k.run.SparingAt e) ∧
      ∀ f, k.run e = .ok () f → (∀ block ∈ k.loop?, block.Untangled) ∧
        (k.body?.isSome → ∃ r body, f.last? = some r ∧ r.operation.bodies = [body] ∧
          ∀ i, i ∈ body.content.identifiers.ofKind .capture ↔
            b.UsedIn d i ∧ Declares e.content e.blocks i) := by
  have hd := harrives.wellScoped (hc.wellScoped hopen)
  obtain ⟨hproceeds, hready, hcaptures⟩ :=
    hends.ready (fun p _ => Step.runAll_proceeds p.2) hd
  have he := hproceeds.wellScoped
  refine ⟨hready.sparingAt_run he, fun f hrun => ⟨hready.untangled_of_ok he hrun, fun hbody => ?_⟩⟩
  obtain ⟨block, hblock⟩ := Option.isSome_iff_exists.1 hbody
  obtain ⟨r, body, hlast, hbodies, hsame⟩ := hready.captures_of_ok hblock he hrun
  refine ⟨r, body, hlast, hbodies, fun i => ?_⟩
  rw [hsame i, ← hcaptures i, (Closing.body?_eq_some hblock).1]
  simp

/-! ### A loop around a branch with a variable of its own -/

/-- The condition that always holds. -/
def always : Condition := .expr (.literal (.bool true))

/-- A loop around a branch that declares `v`, sets it and goes on with `rest`. -/
def loopAround (v : Var) (rest : List Step) : Construct :=
  .whileLoop always [.build (.ifTest always
    (.call (.addVar v (.literal (.bool true))) trivial :: rest))]

/-- Set `v`, and leave the loop. -/
def setAndLeave (v : Var) : List Step :=
  [.call (.write (.var v) (.literal (.bool true))) trivial, .call (.jump .leave) trivial]

/-- A circuit that declares `v`. -/
def declaring (v : Var) : Circuit :=
  ⟨"c", Content.empty.after [.addIdentifier (.var v) .declare], []⟩

theorem declaring_reachable (v : Var) : (declaring v).Reachable .any := by
  refine .ofStore "c" (Content.Built.empty.after fun k hk i hi => ?_)
  rw [List.mem_singleton.1 hk] at hi
  exact absurd hi List.not_mem_nil

/-- Run the loop up to its end. -/
def beforeEnd (b : Construct) : Edit Circuit (List Block) := do
  Construct.runBodies (← b.head) b.bodies

theorem loopAround_ends {v : Var} {rest : List Step} {blocks : List Block}
    (h : beforeEnd (loopAround v rest) c = .ok blocks d) :
    ∃ block, (loopAround v rest).Ends c (.whileLoop always block) d := by
  obtain ⟨template, u, hhead, hbodies⟩ := Edit.bind_eq_ok_iff.1 h
  obtain ⟨block, -, rfl⟩ := Construct.runBodies_singleton_iff.1 hbodies
  exact ⟨block, template, u, [block], hhead, hbodies, .whileLoop _ _ block⟩

theorem whileLoop_of_ends {v : Var} {rest : List Step} {k : Closing}
    (h : (loopAround v rest).Ends c k d) : ∃ block, k = .whileLoop always block := by
  obtain ⟨_, _, _, _, _, hcloses⟩ := h
  cases hcloses
  exact ⟨_, rfl⟩

/-- Where the branch only sets a variable of the store, the loop ends, and captures that one. -/
theorem builder_ends_around_branch :
    let v : Var := ⟨"v", .bool, ⟨0, 0⟩⟩
    let x : Var := ⟨"x", .bool, ⟨1, 0⟩⟩
    let b := loopAround v (setAndLeave x)
    ∃ block e f, (declaring x).Reachable .any ∧ (declaring x).blocks = [] ∧
      Arrives [.build b] (declaring x) (.build b) (declaring x) ∧
      b.Ends (declaring x) (.whileLoop always block) e ∧
      (Closing.whileLoop always block).run e = .ok () f ∧ ∃ r body, f.last? = some r ∧
        r.operation.bodies = [body] ∧ ∀ i, i ∈ body.content.identifiers.ofKind .capture ↔
          b.UsedIn (declaring x) i ∧ Declares e.content e.blocks i := by
  intro v x b
  let answers : Bool :=
    match b.run (declaring x) with
    | .ok _ _ => true
    | .error _ _ => false
  have hanswers : answers = true := by decide +kernel
  cases hrun : b.run (declaring x) with
  | error cause f => simp [answers, hrun] at hanswers
  | ok a f =>
    obtain ⟨k, e, hends, hrun⟩ := Construct.run_eq_ok hrun
    have hreach := declaring_reachable x
    have harrives : Arrives [.build b] (declaring x) (.build b) (declaring x) := .here
    obtain ⟨block, rfl⟩ := whileLoop_of_ends hends
    have hend := (hreach.builder_ends rfl harrives hends).2 f hrun
    exact ⟨block, e, f, hreach, rfl, harrives, hends, hrun, hend.2 rfl⟩

/-- Where a branch inside the branch sets the variable of the outer one and leaves, the loop
is refused at its end: the variable is not declared around it. -/
theorem builder_not_always_ends :
    ¬ ∀ (c d e : Circuit) (program : List Step) (b : Construct) (k : Closing),
      c.Reachable .any → c.blocks = [] → Arrives program c (.build b) d → b.Ends d k e →
        k.run.SparingAt e := by
  intro hspares
  let v : Var := ⟨"v", .bool, ⟨0, 0⟩⟩
  let b := loopAround v [.build (.ifTest always (setAndLeave v))]
  let comesToEnd : Bool :=
    match beforeEnd b (Circuit.empty "c") with
    | .ok _ _ => true
    | .error _ _ => false
  let refused : Bool :=
    match b.run (Circuit.empty "c") with
    | .error (.undeclaredIdentifier _) _ => true
    | _ => false
  have hcomes : comesToEnd = true := by decide +kernel
  have hrefused : refused = true := by decide +kernel
  cases hend : beforeEnd b (Circuit.empty "c") with
  | error cause f => simp [comesToEnd, hend] at hcomes
  | ok blocks e =>
    cases hrun : b.run (Circuit.empty "c") with
    | ok a f => simp [refused, hrun] at hrefused
    | error cause f =>
      obtain ⟨block, hends⟩ := loopAround_ends hend
      have hspared := hspares _ _ e [.build b] b _ (Reachable.empty "c") rfl .here hends cause f
        (hends.run.symm.trans hrun)
      cases cause with
      | undeclaredIdentifier name => exact hspared trivial
      | _ => simp [refused, hrun] at hrefused

end Circuit

end QuantumCircuit
