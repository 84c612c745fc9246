import QuantumCircuit.Proofs.Finishing

/-!
# Programs that build circuits

A program is a list of calls on the active scope and of builders, whose bodies are
programs again (`Step`, `Construct`). A builder notes what it reads, runs its bodies, and
comes to its end with their blocks (`Construct.Ends`): it runs on as its end does
(`Construct.Ends.run`), and if it is not refused it came to an end
(`Construct.run_eq_ok`).

A call on the active scope puts down what its records name (`Circuit.Call.proceeds`).
-/

namespace QuantumCircuit

open Circuit (Call Closing Proceeds)

variable {c d e : Circuit} {i : Identifier}

/-! ## Calls on the active scope -/

namespace Circuit.Call

variable {k : Call}

/-- That a record which the call adds names the identifier. -/
def Uses (k : Call) (c : Circuit) (i : Identifier) : Prop :=
  ∃ rs, k.records c = .ok rs ∧ ∃ r ∈ rs, i ∈ r.operation.identifiers

/-- A call on the scope puts down what its records name. -/
theorem proceeds (hk : k.OnScope) (hc : c.WellScoped) (h : k.run c = .ok () d) :
    Proceeds (k.Uses c) c d := by
  obtain ⟨rs, u, hrs, hfirst, hadd⟩ := run_eq_ok hk h
  have hu : Proceeds (fun _ => False) c u := by
    cases k with
    | addVar v initial => exact declare_proceeds hc hfirst
    | declare i => exact declare_proceeds hc hfirst
    | jump j => exact jump_proceeds hc hfirst
    | _ =>
      cases hfirst
      exact .refl hc
  refine (hu.trans (each_append_proceeds hu.wellScoped hadd)).congr fun i _ => ?_
  rw [false_or, List.mem_flatMap]
  refine ⟨fun hi => ⟨rs, hrs, hi⟩, ?_⟩
  rintro ⟨rs', hrs', hi⟩
  cases hrs.symm.trans hrs'
  exact hi

end Circuit.Call

/-! ## Programs -/

mutual

/-- A step of a program: a call on the active scope, or a builder with its bodies. -/
inductive Step where
  | call (k : Call) (onScope : k.OnScope)
  | build (b : Construct)

/-- A builder, with programs for its bodies. -/
inductive Construct where
  | ifTest (condition : Condition) (body : List Step)
  | ifElse (condition : Condition) (trueBody falseBody : List Step)
  | whileLoop (condition : Condition) (body : List Step)
  | forLoop (indices : LoopIndices) (parameter : Option Parameter) (body : List Step)
  | switch (target : SwitchTarget) (cases : List (List CaseLabel × List Step))
  | box (duration : Option Duration) (body : List Step)

end

mutual

/-- Run one step. -/
def Step.run : Step → Edit Circuit Unit
  | .call k _ => k.run
  | .build b => b.run

/-- Run a builder with its bodies. -/
def Construct.run : Construct → Edit Circuit Unit
  | .ifTest condition body => Builder.ifTest .whole condition (Step.runAll body)
  | .ifElse condition t f => Builder.ifElse .whole condition (Step.runAll t) (Step.runAll f)
  | .whileLoop condition body => Builder.whileLoop .whole condition (Step.runAll body)
  | .forLoop indices parameter body => Builder.forLoop .whole indices parameter (Step.runAll body)
  | .switch target cases => Builder.switch .whole target (Construct.runCases cases)
  | .box duration body => Builder.box .whole duration (Step.runAll body)

/-- Run a program. -/
def Step.runAll : List Step → Edit Circuit Unit
  | [] => pure ()
  | s :: rest => do
    s.run
    Step.runAll rest

/-- Add the cases of a switch. -/
def Construct.runCases : List (List CaseLabel × List Step) → SwitchCases → Edit Circuit SwitchCases
  | [], sofar => pure sofar
  | (labels, body) :: rest, sofar => do
    Construct.runCases rest (← Builder.switchCase .whole labels (Step.runAll body) sofar)

end

namespace Construct

/-- Run bodies one after another, each in a block like `template` and after a check of its
own, and answer the blocks. -/
def runBodies (template : Block) :
    List (Except CircuitError Unit × List Step) → Edit Circuit (List Block)
  | [] => pure []
  | (check, body) :: rest => do
    Edit.ofExcept check
    let block ← Builder.runBlock .whole template (Step.runAll body)
    return block :: (← runBodies template rest)

/-- Note what the builder reads, and answer the block that its bodies start from. -/
def head : Construct → Edit Circuit Block
  | ifTest condition _ | ifElse condition _ _ => Circuit.openBranch condition
  | whileLoop condition _ => Circuit.openLoop condition
  | forLoop _ _ _ => pure (Block.empty none)
  | switch target _ => Circuit.openSwitch target
  | box duration _ => Circuit.openBox duration

/-- The identifiers that the builder reads itself. -/
def identifiers : Construct → List Identifier
  | ifTest condition _ | ifElse condition _ _ | whileLoop condition _ => condition.identifiers
  | forLoop _ _ _ | box none _ => []
  | switch target _ => target.identifiers
  | box (some duration) _ => duration.identifiers

/-- Refuse a case without a label, and labels that are taken. -/
def checkLabels (taken labels : List CaseLabel) : Except CircuitError Unit := do
  refuseIf labels.isEmpty .caseWithoutLabel
  refuseFound (Distinct.firstRepeatAfter? taken labels) .duplicateCaseLabel

/-- The cases of a switch, each with the check of its labels. -/
def caseBodies (taken : List CaseLabel) :
    List (List CaseLabel × List Step) → List (Except CircuitError Unit × List Step)
  | [] => []
  | (labels, body) :: rest =>
    (checkLabels taken labels, body) :: caseBodies (taken ++ labels) rest

/-- The bodies, in the order in which they are run. -/
def bodies : Construct → List (Except CircuitError Unit × List Step)
  | ifTest _ body | whileLoop _ body | forLoop _ _ body | box _ body => [(.ok (), body)]
  | ifElse _ t f => [(.ok (), t), (.ok (), f)]
  | switch _ cases => caseBodies [] cases

/-- The end that the builder comes to with the blocks of its bodies. -/
inductive Closes : Construct → List Block → Closing → Prop
  | ifTest (condition : Condition) (body : List Step) (b : Block) :
      Closes (.ifTest condition body) [b] (.ifElse condition b none)
  | ifElse (condition : Condition) (trueBody falseBody : List Step) (t f : Block) :
      Closes (.ifElse condition trueBody falseBody) [t, f] (.ifElse condition t (some f))
  | whileLoop (condition : Condition) (body : List Step) (b : Block) :
      Closes (.whileLoop condition body) [b] (.whileLoop condition b)
  | forLoop (indices : LoopIndices) (parameter : Option Parameter) (body : List Step) (b : Block) :
      Closes (.forLoop indices parameter body) [b] (.forLoop indices parameter b)
  | switch (target : SwitchTarget) (cases : List (List CaseLabel × List Step))
      (arms : List BlockArm) :
      arms.map (·.labels) = cases.map (·.1) →
        Closes (.switch target cases) (arms.map (·.block)) (.switch target arms)
  | box (duration : Option Duration) (body : List Step) (b : Block) :
      Closes (.box duration body) [b] (.box duration b)

/-- That the builder, run from `c`, comes to the end `k` in the state `d`. -/
def Ends (b : Construct) (c : Circuit) (k : Closing) (d : Circuit) : Prop :=
  ∃ template u blocks, b.head c = .ok template u ∧
    runBodies template b.bodies u = .ok blocks d ∧ b.Closes blocks k

section

variable {template : Block} {check : Except CircuitError Unit} {body : List Step}
  {rest : List (Except CircuitError Unit × List Step)} {blocks : List Block}

theorem runBodies_nil_iff : runBodies template [] c = .ok blocks d ↔ blocks = [] ∧ d = c := by
  constructor
  · intro h
    cases h
    exact ⟨rfl, rfl⟩
  · rintro ⟨rfl, rfl⟩
    rfl

theorem runBodies_cons_iff : runBodies template ((check, body) :: rest) c = .ok blocks d ↔
    ∃ b u others, check = .ok () ∧
      Builder.runBlock .whole template (Step.runAll body) c = .ok b u ∧
      runBodies template rest u = .ok others d ∧ blocks = b :: others := by
  constructor
  · intro h
    obtain ⟨_, hok, h⟩ := Edit.ofExcept_bind_eq_ok_iff.1 h
    obtain ⟨b, u, hb, h⟩ := Edit.bind_eq_ok_iff.1 h
    obtain ⟨others, v, hothers, h⟩ := Edit.bind_eq_ok_iff.1 h
    cases h
    exact ⟨b, u, others, hok, hb, hothers, rfl⟩
  · rintro ⟨b, u, others, rfl, hb, hothers, rfl⟩
    refine Edit.bind_eq_ok_iff.2 ⟨(), c, rfl, Edit.bind_eq_ok_iff.2 ⟨b, u, hb, ?_⟩⟩
    exact Edit.bind_eq_ok_iff.2 ⟨others, d, hothers, rfl⟩

theorem runBodies_singleton_iff : runBodies template [(.ok (), body)] c = .ok blocks d ↔
    ∃ b, Builder.runBlock .whole template (Step.runAll body) c = .ok b d ∧ blocks = [b] := by
  rw [runBodies_cons_iff]
  constructor
  · rintro ⟨b, u, others, -, hb, hothers, rfl⟩
    obtain ⟨rfl, rfl⟩ := runBodies_nil_iff.1 hothers
    exact ⟨b, hb, rfl⟩
  · rintro ⟨b, hb, rfl⟩
    exact ⟨b, d, [], rfl, hb, rfl, rfl⟩

end

theorem switchCase_eq_ok_iff {labels : List CaseLabel} {body : Edit Circuit Unit}
    {sofar done : SwitchCases} : Builder.switchCase .whole labels body sofar c = .ok done d ↔
      ∃ b, checkLabels (sofar.arms.flatMap (·.labels)) labels = .ok () ∧
        Builder.runBlock .whole sofar.template body c = .ok b d ∧
        done = ⟨sofar.template, sofar.arms ++ [⟨labels, b⟩]⟩ := by
  constructor
  · intro h
    obtain ⟨_, hempty, h⟩ := Edit.ofExcept_bind_eq_ok_iff.1 h
    obtain ⟨_, htaken, h⟩ := Edit.ofExcept_bind_eq_ok_iff.1 h
    obtain ⟨b, u, hb, h⟩ := Edit.bind_eq_ok_iff.1 h
    cases h
    exact ⟨b, Checking.seq_eq_ok_iff.2 ⟨hempty, htaken⟩, hb, rfl⟩
  · rintro ⟨b, hcheck, hb, rfl⟩
    obtain ⟨hempty, htaken⟩ := Checking.seq_eq_ok_iff.1 hcheck
    refine Edit.bind_eq_ok_iff.2 ⟨(), c, Edit.ofExcept_eq_ok_iff.2 ⟨hempty, rfl⟩, ?_⟩
    refine Edit.bind_eq_ok_iff.2 ⟨(), c, Edit.ofExcept_eq_ok_iff.2 ⟨htaken, rfl⟩, ?_⟩
    exact Edit.bind_eq_ok_iff.2 ⟨b, d, hb, rfl⟩

theorem runCases_eq_ok_iff {cases : List (List CaseLabel × List Step)} {sofar done : SwitchCases} :
    runCases cases sofar c = .ok done d ↔
      ∃ arms, runBodies sofar.template (caseBodies (sofar.arms.flatMap (·.labels)) cases) c =
          .ok (arms.map (·.block)) d ∧
        arms.map (·.labels) = cases.map (·.1) ∧ done = ⟨sofar.template, sofar.arms ++ arms⟩ := by
  -- each case adds its arm to those so far, whose labels the next case is checked against
  induction cases generalizing sofar c with
  | nil =>
    constructor
    · intro h
      cases h
      exact ⟨[], rfl, rfl, by rw [List.append_nil]⟩
    · rintro ⟨arms, h, -, rfl⟩
      obtain ⟨hnil, rfl⟩ := runBodies_nil_iff.1 h
      obtain rfl := List.map_eq_nil_iff.1 hnil
      rw [List.append_nil]
      rfl
  | cons first rest ih =>
    obtain ⟨labels, body⟩ := first
    show (Builder.switchCase .whole labels (Step.runAll body) sofar >>= runCases rest) c = _ ↔ _
    rw [Edit.bind_eq_ok_iff]
    constructor
    · rintro ⟨next, u, hcase, h⟩
      obtain ⟨b, hcheck, hb, rfl⟩ := switchCase_eq_ok_iff.1 hcase
      obtain ⟨arms, hrest, hlabels, rfl⟩ := ih.1 h
      refine ⟨⟨labels, b⟩ :: arms, ?_, by rw [List.map_cons, hlabels]; rfl, ?_⟩
      · refine runBodies_cons_iff.2 ⟨b, u, _, hcheck, hb, ?_, rfl⟩
        simpa only [List.flatMap_append, List.flatMap_singleton] using hrest
      · simp only [List.append_assoc, List.singleton_append]
    · rintro ⟨arms, h, hall, rfl⟩
      obtain ⟨b, u, others, hcheck, hb, hrest, hblocks⟩ := runBodies_cons_iff.1 h
      obtain _ | ⟨⟨labels', b'⟩, arms⟩ := arms
      · cases hblocks
      cases hblocks
      obtain ⟨rfl, hlabels⟩ := List.cons_eq_cons.1 hall
      refine ⟨_, u, switchCase_eq_ok_iff.2 ⟨b', hcheck, hb, rfl⟩, ih.2 ⟨arms, ?_, hlabels, ?_⟩⟩
      · simpa only [List.flatMap_append, List.flatMap_singleton] using hrest
      · simp only [List.append_assoc, List.singleton_append]

theorem within_whole {α : Type} (edit : Edit Circuit α) : Edit.within .whole edit = edit := by
  funext s
  unfold Edit.within
  rw [show Focus.whole.get s = s from rfl]
  cases edit s <;> rfl

/-- A builder with one body: its head, its body, its end. -/
def oneBody (head : Edit Circuit Block) (body : List Step) (k : Block → Closing) :
    Edit Circuit Unit := do
  let template ← Edit.within .whole head
  let block ← Builder.runBlock .whole template (Step.runAll body)
  Edit.within .whole (k block).run

section

variable {head : Edit Circuit Block} {body : List Step} {k : Block → Closing} {b template : Block}

theorem oneBody_apply (hhead : head c = .ok template d)
    (hbody : Builder.runBlock .whole template (Step.runAll body) d = .ok b e) :
    oneBody head body k c = (k b).run e := by
  unfold oneBody
  rw [Edit.bind_apply_of_ok ((congrFun (within_whole head) c).trans hhead),
    Edit.bind_apply_of_ok hbody, within_whole]

theorem oneBody_eq_ok (h : oneBody head body k c = .ok () e) : ∃ template u b d,
    head c = .ok template u ∧ runBodies template [(.ok (), body)] u = .ok [b] d ∧
      (k b).run d = .ok () e := by
  obtain ⟨template, u, hhead, h⟩ := Edit.bind_eq_ok_iff.1 h
  obtain ⟨b, d, hbody, h⟩ := Edit.bind_eq_ok_iff.1 h
  rw [within_whole] at hhead h
  exact ⟨template, u, b, d, hhead, runBodies_singleton_iff.2 ⟨b, hbody, rfl⟩, h⟩

end

/-- A builder that comes to its end runs on as its end does. -/
theorem Ends.run {b : Construct} {k : Closing} (h : b.Ends c k d) : b.run c = k.run d := by
  obtain ⟨template, u, blocks, hhead, hbodies, hcloses⟩ := h
  have hwithin := (congrFun (within_whole b.head) c).trans hhead
  have hone : ∀ {body block}, runBodies template [(.ok (), body)] u = .ok [block] d →
      Builder.runBlock .whole template (Step.runAll body) u = .ok block d := by
    intro body block h
    obtain ⟨_, hblock, heq⟩ := runBodies_singleton_iff.1 h
    cases heq
    exact hblock
  cases hcloses with
  | ifTest condition body block =>
    exact oneBody_apply (k := fun b => .ifElse condition b none) hhead (hone hbodies)
  | whileLoop condition body block =>
    exact oneBody_apply (k := .whileLoop condition) hhead (hone hbodies)
  | box duration body block => exact oneBody_apply (k := .box duration) hhead (hone hbodies)
  | forLoop indices parameter body block =>
    cases hhead
    refine (Edit.bind_apply_of_ok (hone hbodies)).trans ?_
    rw [within_whole]
    rfl
  | ifElse condition trueBody falseBody t f =>
    obtain ⟨_, v, others, -, ht, hrest, hblocks⟩ := runBodies_cons_iff.1 hbodies
    obtain ⟨_, hf, hothers⟩ := runBodies_singleton_iff.1 hrest
    cases hothers
    cases hblocks
    refine (Edit.bind_apply_of_ok hwithin).trans ((Edit.bind_apply_of_ok ht).trans ?_)
    refine (Edit.bind_apply_of_ok hf).trans ?_
    rw [within_whole]
    rfl
  | switch target cases arms hlabels =>
    have hcases : runCases cases ⟨template, []⟩ u = .ok ⟨template, arms⟩ d :=
      runCases_eq_ok_iff.2 ⟨arms, hbodies, hlabels, rfl⟩
    refine (Edit.bind_apply_of_ok hwithin).trans ((Edit.bind_apply_of_ok hcases).trans ?_)
    rw [within_whole]
    rfl

/-- A builder that is not refused comes to its end. -/
theorem run_eq_ok {b : Construct} (h : b.run c = .ok () e) :
    ∃ k d, b.Ends c k d ∧ k.run d = .ok () e := by
  cases b with
  | ifTest condition body =>
    obtain ⟨template, u, b, d, hhead, hbodies, hrun⟩ :=
      oneBody_eq_ok (k := fun b => .ifElse condition b none) h
    exact ⟨_, d, ⟨template, u, _, hhead, hbodies, .ifTest condition body b⟩, hrun⟩
  | whileLoop condition body =>
    obtain ⟨template, u, b, d, hhead, hbodies, hrun⟩ := oneBody_eq_ok (k := .whileLoop condition) h
    exact ⟨_, d, ⟨template, u, _, hhead, hbodies, .whileLoop condition body b⟩, hrun⟩
  | box duration body =>
    obtain ⟨template, u, b, d, hhead, hbodies, hrun⟩ := oneBody_eq_ok (k := .box duration) h
    exact ⟨_, d, ⟨template, u, _, hhead, hbodies, .box duration body b⟩, hrun⟩
  | forLoop indices parameter body =>
    obtain ⟨b, d, hbody, h⟩ := Edit.bind_eq_ok_iff.1 h
    rw [within_whole] at h
    have hbodies := runBodies_singleton_iff.2 ⟨b, hbody, rfl⟩
    exact ⟨_, d, ⟨_, c, _, rfl, hbodies, .forLoop indices parameter body b⟩, h⟩
  | ifElse condition trueBody falseBody =>
    obtain ⟨template, u, hhead, h⟩ := Edit.bind_eq_ok_iff.1 h
    obtain ⟨t, v, ht, h⟩ := Edit.bind_eq_ok_iff.1 h
    obtain ⟨f, d, hf, h⟩ := Edit.bind_eq_ok_iff.1 h
    rw [within_whole] at hhead h
    have hrest := runBodies_singleton_iff.2 ⟨f, hf, rfl⟩
    have hbodies := runBodies_cons_iff.2 ⟨t, v, [f], rfl, ht, hrest, rfl⟩
    exact ⟨_, d, ⟨template, u, _, hhead, hbodies, .ifElse condition trueBody falseBody t f⟩, h⟩
  | switch target cases =>
    obtain ⟨template, u, hhead, h⟩ := Edit.bind_eq_ok_iff.1 h
    obtain ⟨done, d, hcases, h⟩ := Edit.bind_eq_ok_iff.1 h
    rw [within_whole] at hhead h
    obtain ⟨arms, hbodies, hlabels, rfl⟩ := runCases_eq_ok_iff.1 hcases
    exact ⟨_, d, ⟨template, u, _, hhead, hbodies, .switch target cases arms hlabels⟩, h⟩

end Construct

end QuantumCircuit
