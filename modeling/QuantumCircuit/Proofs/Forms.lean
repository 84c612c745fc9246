import QuantumCircuit.Proofs.Finishing

/-!
# Builders as forms

All builders go the same way: they note what they read, run their bodies one after another,
each in a block of its own, and come to an end with the blocks. A form is a builder with its
bodies (`Builder.Form`); what a form that answers has come by is said once for all builders
(`Builder.Form.run_eq_ok`).

The bodies of a form edit any state that holds the circuit. The cases of a switch may be
tried: a case that is refused is then left out, and the switch goes on.
-/

namespace QuantumCircuit

open Circuit (Closing)

namespace Builder

variable {σ α : Type}

/-- A builder with its bodies. -/
inductive Form (σ : Type) where
  | ifTest (condition : Condition) (body : Edit σ Unit)
  | ifElse (condition : Condition) (trueBody falseBody : Edit σ Unit)
  | whileLoop (condition : Condition) (body : Edit σ Unit)
  | forLoop (indices : LoopIndices) (parameter : Option Parameter) (body : Edit σ Unit)
  | switch (target : SwitchTarget) (cases : List (List CaseLabel × Edit σ Unit))
  | box (duration : Option Duration) (body : Edit σ Unit)

/-- Make the edit. Where it is refused answer `a` in its place; then of all that it did to
the state only what it did to the circuit stays. -/
def attempt (at_ : Focus σ Circuit) (a : α) (edit : Edit σ α) : Edit σ α := fun s =>
  match edit s with
  | .ok b t => .ok b t
  | .error _ t => .ok a (at_.set (at_.get t) s)

namespace Form

/-- Note what the builder reads, and answer the block that its bodies start from. -/
def head : Form σ → Edit Circuit Block
  | ifTest condition _ | ifElse condition _ _ => Circuit.openBranch condition
  | whileLoop condition _ => Circuit.openLoop condition
  | forLoop _ _ _ => pure (Block.empty none)
  | switch target _ => Circuit.openSwitch target
  | box duration _ => Circuit.openBox duration

/-- The clbits and registers that the builder reads itself. -/
def classicalUse : Form σ → ClassicalUse
  | ifTest condition _ | ifElse condition _ _ | whileLoop condition _ => condition.classicalUse
  | switch target _ => target.classicalUse
  | forLoop _ _ _ | box _ _ => .none

/-- The bodies, in the order in which they are run. -/
def bodies : Form σ → List (Edit σ Unit)
  | ifTest _ body | whileLoop _ body | forLoop _ _ body | box _ body => [body]
  | ifElse _ t f => [t, f]
  | switch _ cases => cases.map (·.2)

variable (at_ : Focus σ Circuit) (tried : Bool)

/-- Add a case of a switch, or try to. -/
def addCase (labels : List CaseLabel) (body : Edit σ Unit) (sofar : SwitchCases) :
    Edit σ SwitchCases :=
  if tried then attempt at_ sofar (switchCase at_ labels body sofar)
  else switchCase at_ labels body sofar

/-- Add the cases of a switch, or try to. -/
def runCases : List (List CaseLabel × Edit σ Unit) → SwitchCases → Edit σ SwitchCases
  | [], sofar => pure sofar
  | (labels, body) :: rest, sofar => do
    runCases rest (← addCase at_ tried labels body sofar)

/-- Run the builder. -/
def run : Form σ → Edit σ Unit
  | ifTest condition body => Builder.ifTest at_ condition body
  | ifElse condition t f => Builder.ifElse at_ condition t f
  | whileLoop condition body => Builder.whileLoop at_ condition body
  | forLoop indices parameter body => Builder.forLoop at_ indices parameter body
  | switch target cases => Builder.switch at_ target (runCases at_ tried cases)
  | box duration body => Builder.box at_ duration body

/-- That bodies, run one after another in blocks like `template`, left these blocks. A body
that is refused leaves no block, and is passed over if cases are tried. -/
inductive Ran (template : Block) : List (Edit σ Unit) → σ → List Block → σ → Prop
  | nil (s : σ) : Ran template [] s [] s
  | run {body : Edit σ Unit} {rest : List (Edit σ Unit)} {b : Block} {blocks : List Block}
      {s t u : σ} : runBlock at_ template body s = .ok b t → Ran template rest t blocks u →
        Ran template (body :: rest) s (b :: blocks) u
  | skip {body : Edit σ Unit} {rest : List (Edit σ Unit)} {blocks : List Block} {s t u : σ} :
      tried = true → (t = s ∨ ∃ e, runBlock at_ template body s = .error e t) →
        Ran template rest (at_.set (at_.get t) s) blocks u →
        Ran template (body :: rest) s blocks u

/-- The end that the builder comes to with the blocks of its bodies. -/
inductive Closes : Form σ → List Block → Closing → Prop
  | ifTest (condition : Condition) (body : Edit σ Unit) (b : Block) :
      Closes (.ifTest condition body) [b] (.ifElse condition b none)
  | ifElse (condition : Condition) (trueBody falseBody : Edit σ Unit) (t f : Block) :
      Closes (.ifElse condition trueBody falseBody) [t, f] (.ifElse condition t (some f))
  | whileLoop (condition : Condition) (body : Edit σ Unit) (b : Block) :
      Closes (.whileLoop condition body) [b] (.whileLoop condition b)
  | forLoop (indices : LoopIndices) (parameter : Option Parameter)
      (body : Edit σ Unit) (b : Block) :
      Closes (.forLoop indices parameter body) [b] (.forLoop indices parameter b)
  | switch (target : SwitchTarget) (cases : List (List CaseLabel × Edit σ Unit))
      (arms : List BlockArm) : (tried = false → arms.map (·.labels) = cases.map (·.1)) →
        Closes (.switch target cases) (arms.map (·.block)) (.switch target arms)
  | box (duration : Option Duration) (body : Edit σ Unit) (b : Block) :
      Closes (.box duration body) [b] (.box duration b)

variable {at_ tried} {s t : σ}

/-- The block of a builder comes to an end with its blocks. -/
theorem Closes.blocks {form : Form σ} {blocks : List Block} {k : Closing}
    (h : Closes tried form blocks k) : k.blocks = blocks := by
  cases h <;> rfl

theorem switchCase_eq_ok {labels : List CaseLabel} {body : Edit σ Unit}
    {sofar done : SwitchCases} (h : switchCase at_ labels body sofar s = .ok done t) :
    ∃ b, runBlock at_ sofar.template body s = .ok b t ∧
      done = ⟨sofar.template, sofar.arms ++ [⟨labels, b⟩]⟩ := by
  obtain ⟨_, -, h⟩ := Edit.ofExcept_bind_eq_ok_iff.1 h
  obtain ⟨_, -, h⟩ := Edit.ofExcept_bind_eq_ok_iff.1 h
  obtain ⟨b, u, hb, h⟩ := Edit.bind_eq_ok_iff.1 h
  cases h
  exact ⟨b, hb, rfl⟩

/-- A case is refused for its labels, or with its body. -/
theorem switchCase_eq_error {labels : List CaseLabel} {body : Edit σ Unit} {sofar : SwitchCases}
    {e : CircuitError} (h : switchCase at_ labels body sofar s = .error e t) :
    t = s ∨ ∃ e, runBlock at_ sofar.template body s = .error e t := by
  rcases Edit.bind_eq_error_iff.1 h with h | ⟨_, u, hcheck, h⟩
  · exact .inl (Edit.ofExcept_eq_error_iff.1 h).2.symm
  obtain ⟨-, rfl⟩ := Edit.ofExcept_eq_ok_iff.1 hcheck
  rcases Edit.bind_eq_error_iff.1 h with h | ⟨_, u, hcheck, h⟩
  · exact .inl (Edit.ofExcept_eq_error_iff.1 h).2.symm
  obtain ⟨-, rfl⟩ := Edit.ofExcept_eq_ok_iff.1 hcheck
  rcases Edit.bind_eq_error_iff.1 h with h | ⟨b, u, -, h⟩
  · exact .inr ⟨e, h⟩
  · cases h

theorem attempt_eq_ok {a b : α} {edit : Edit σ α} (h : attempt at_ a edit s = .ok b t) :
    edit s = .ok b t ∨ b = a ∧ ∃ e u, edit s = .error e u ∧ t = at_.set (at_.get u) s := by
  unfold attempt at h
  cases hedit : edit s with
  | ok b' t' =>
    rw [hedit] at h
    exact .inl h
  | error e u =>
    rw [hedit] at h
    cases h
    exact .inr ⟨rfl, e, u, rfl, rfl⟩

/-- The cases of a switch leave arms, with all labels unless some case was passed over. -/
theorem runCases_eq_ok {cases : List (List CaseLabel × Edit σ Unit)} {sofar done : SwitchCases}
    (h : runCases at_ tried cases sofar s = .ok done t) :
    ∃ arms, Ran at_ tried sofar.template (cases.map (·.2)) s (arms.map (·.block)) t ∧
      (tried = false → arms.map (·.labels) = cases.map (·.1)) ∧
      done = ⟨sofar.template, sofar.arms ++ arms⟩ := by
  induction cases generalizing sofar s with
  | nil =>
    cases h
    exact ⟨[], .nil _, fun _ => rfl, by rw [List.append_nil]⟩
  | cons first rest ih =>
    obtain ⟨labels, body⟩ := first
    obtain ⟨next, u, hcase, hrest⟩ := Edit.bind_eq_ok_iff.1 h
    -- the case was added, or it was tried, refused and passed over
    have hcases : switchCase at_ labels body sofar s = .ok next u ∨ tried = true ∧ next = sofar ∧
        ∃ e v, switchCase at_ labels body sofar s = .error e v ∧ u = at_.set (at_.get v) s := by
      cases tried with
      | false => exact .inl hcase
      | true => exact (attempt_eq_ok hcase).imp_right fun h => ⟨rfl, h⟩
    rcases hcases with hadded | ⟨htried, rfl, e, v, hrefused, rfl⟩
    · obtain ⟨b, hb, rfl⟩ := switchCase_eq_ok hadded
      obtain ⟨arms, hran, hlabels, rfl⟩ := ih hrest
      refine ⟨⟨labels, b⟩ :: arms, .run hb hran, fun hall => ?_, ?_⟩
      · rw [List.map_cons, List.map_cons, hlabels hall]
      · simp only [List.append_assoc, List.singleton_append]
    · obtain ⟨arms, hran, -, rfl⟩ := ih hrest
      refine ⟨arms, .skip htried (switchCase_eq_error hrefused) hran, fun hall => ?_, rfl⟩
      cases htried.symm.trans hall

theorem ran_singleton {template : Block} {body : Edit σ Unit} {b : Block}
    (h : runBlock at_ template body s = .ok b t) : Ran at_ tried template [body] s [b] t :=
  .run h (.nil t)

/-- A form that answers has run its head and its bodies, and has come to its end. -/
theorem run_eq_ok {form : Form σ} (hset : ∀ s, at_.set (at_.get s) s = s)
    (h : form.run at_ tried s = .ok () t) : ∃ template blocks k u v,
      Edit.within at_ form.head s = .ok template u ∧
      Ran at_ tried template form.bodies u blocks v ∧ Closes tried form blocks k ∧
      Edit.within at_ k.run v = .ok () t := by
  cases form with
  | ifTest condition body =>
    obtain ⟨template, u, hhead, h⟩ := Edit.bind_eq_ok_iff.1 h
    obtain ⟨b, v, hb, h⟩ := Edit.bind_eq_ok_iff.1 h
    exact ⟨template, [b], _, u, v, hhead, ran_singleton hb, .ifTest condition body b, h⟩
  | ifElse condition trueBody falseBody =>
    obtain ⟨template, u, hhead, h⟩ := Edit.bind_eq_ok_iff.1 h
    obtain ⟨b, v, hb, h⟩ := Edit.bind_eq_ok_iff.1 h
    obtain ⟨b', w, hb', h⟩ := Edit.bind_eq_ok_iff.1 h
    exact ⟨template, [b, b'], _, u, w, hhead, .run hb (ran_singleton hb'),
      .ifElse condition trueBody falseBody b b', h⟩
  | whileLoop condition body =>
    obtain ⟨template, u, hhead, h⟩ := Edit.bind_eq_ok_iff.1 h
    obtain ⟨b, v, hb, h⟩ := Edit.bind_eq_ok_iff.1 h
    exact ⟨template, [b], _, u, v, hhead, ran_singleton hb, .whileLoop condition body b, h⟩
  | forLoop indices parameter body =>
    -- this builder reads nothing, so that it has no head
    obtain ⟨b, v, hb, h⟩ := Edit.bind_eq_ok_iff.1 h
    have hhead : Edit.within at_ (pure (Block.empty none) : Edit Circuit Block) s =
        .ok (Block.empty none) s :=
      congrArg (EStateM.Result.ok _) (hset s)
    exact ⟨_, [b], _, s, v, hhead, ran_singleton hb, .forLoop indices parameter body b, h⟩
  | switch target cases =>
    obtain ⟨template, u, hhead, h⟩ := Edit.bind_eq_ok_iff.1 h
    obtain ⟨done, v, hcases, h⟩ := Edit.bind_eq_ok_iff.1 h
    obtain ⟨arms, hran, hlabels, rfl⟩ := runCases_eq_ok hcases
    exact ⟨template, _, _, u, v, hhead, hran, .switch target cases arms hlabels, h⟩
  | box duration body =>
    obtain ⟨template, u, hhead, h⟩ := Edit.bind_eq_ok_iff.1 h
    obtain ⟨b, v, hb, h⟩ := Edit.bind_eq_ok_iff.1 h
    exact ⟨template, [b], _, u, v, hhead, ran_singleton hb, .box duration body b, h⟩

/-- A body that left a block left it on top of the blocks that were open before. -/
theorem runBlock_eq_ok {template b : Block} {body : Edit σ Unit}
    (h : runBlock at_ template body s = .ok b t) : ∃ u outer,
      body (entered at_ template s) = .ok () u ∧ (at_.get u).blocks = b :: outer ∧
        t = at_.set { at_.get u with blocks := outer } u := by
  unfold runBlock at h
  simp only at h
  split at h
  · cases h
  · rename_i u hbody
    split at h
    · split at h
      · rename_i top outer hblocks
        cases h
        exact ⟨u, outer, hbody, hblocks, rfl⟩
      · cases h
    · cases h

/-- Where a body closes all that it opens, only its own block is taken away, however it
ends. -/
theorem runBlock_leaves_outer {template : Block} {body : Edit σ Unit}
    (hbalanced : ∀ u, body.Leaves (entered at_ template s) u → ∃ top outer,
      (at_.get u).blocks = top :: outer ∧ outer.length = (at_.get s).blocks.length)
    (h : (runBlock at_ template body).Leaves s t) : ∃ u top outer,
      body.Leaves (entered at_ template s) u ∧ (at_.get u).blocks = top :: outer ∧
        t = at_.set { at_.get u with blocks := outer } u := by
  cases hbody : body (entered at_ template s) with
  | error e u =>
    obtain ⟨top, outer, hblocks, hlength⟩ := hbalanced u (.of_error hbody)
    refine ⟨u, top, outer, .of_error hbody, hblocks, ?_⟩
    -- what is left of a refused body is cut off at the depth where it began
    have htruncate : (at_.get u).truncate (at_.get s).blocks.length =
        { at_.get u with blocks := outer } := by
      rw [Circuit.truncate, hblocks, List.length_cons, hlength, Nat.add_sub_cancel_left]
      rfl
    unfold entered at hbody
    rw [← htruncate]
    rcases h with ⟨a, h⟩ | ⟨e, h⟩ <;> simp only [runBlock, hbody] at h <;> cases h
    rfl
  | ok a u =>
    obtain ⟨top, outer, hblocks, hlength⟩ := hbalanced u (.of_ok hbody)
    refine ⟨u, top, outer, .of_ok hbody, hblocks, ?_⟩
    unfold entered at hbody
    -- a body that answers has the right depth, so that its block is handed over
    have hdepth : (at_.get u).blocks.length = (at_.get s).blocks.length + 1 := by
      rw [hblocks, List.length_cons, hlength]
    rw [hblocks] at hdepth
    rcases h with ⟨b, h⟩ | ⟨e, h⟩ <;> simp only [runBlock, hbody, hblocks, if_pos hdepth] at h <;>
      cases h
    rfl

/-! ## What builders keep -/

section Keeping

variable {P : σ → Prop}

theorem attempt_keeps {a : α} {edit : Edit σ α}
    (hback : ∀ s t, P s → P t → P (at_.set (at_.get t) s))
    (h : edit.Keeps P) : (attempt at_ a edit).Keeps P := by
  intro s t hs ht
  rcases ht with ⟨b, ht⟩ | ⟨e, ht⟩
  · rcases attempt_eq_ok ht with hok | ⟨-, e, u, hrefused, rfl⟩
    · exact h s t hs (.of_ok hok)
    · exact hback s u hs (h s u hs (.of_error hrefused))
  · unfold attempt at ht
    split at ht <;> cases ht

theorem runCases_keeps {cases : List (List CaseLabel × Edit σ Unit)} {sofar : SwitchCases}
    (hback : ∀ s t, P s → P t → P (at_.set (at_.get t) s))
    (hbodies : ∀ body ∈ cases.map (·.2), ∀ template, (runBlock at_ template body).Keeps P) :
    (runCases at_ tried cases sofar).Keeps P := by
  induction cases generalizing sofar with
  | nil => exact .pure sofar
  | cons first rest ih =>
    obtain ⟨labels, body⟩ := first
    obtain ⟨hbody, hrest⟩ := List.forall_mem_cons.1 hbodies
    have hcase : (switchCase at_ labels body sofar).Keeps P :=
      (Edit.Keeps.ofExcept _).bind fun _ => (Edit.Keeps.ofExcept _).bind fun _ =>
        (hbody _).bind fun _ => .pure _
    refine Edit.Keeps.bind ?_ fun _ => ih hrest
    unfold addCase
    split
    · exact attempt_keeps hback hcase
    · exact hcase

/-- What its head, its end and its bodies in their blocks keep, a builder keeps. -/
theorem run_keeps {form : Form σ} (hback : ∀ s t, P s → P t → P (at_.set (at_.get t) s))
    (hhead : (Edit.within at_ form.head).Keeps P)
    (hbodies : ∀ body ∈ form.bodies, ∀ template, (runBlock at_ template body).Keeps P)
    (hend : ∀ k : Closing, (Edit.within at_ k.run).Keeps P) :
    (form.run at_ tried).Keeps P := by
  cases form with
  | ifTest condition body =>
    exact hhead.bind fun _ => (hbodies body List.mem_cons_self _).bind fun b =>
      hend (.ifElse condition b none)
  | ifElse condition trueBody falseBody =>
    obtain ⟨ht, hf⟩ := List.forall_mem_cons.1 hbodies
    exact hhead.bind fun _ => (ht _).bind fun t => (hf _ List.mem_cons_self _).bind fun f =>
      hend (.ifElse condition t (some f))
  | whileLoop condition body =>
    exact hhead.bind fun _ => (hbodies body List.mem_cons_self _).bind fun b =>
      hend (.whileLoop condition b)
  | forLoop indices parameter body =>
    exact (hbodies body List.mem_cons_self _).bind fun b => hend (.forLoop indices parameter b)
  | switch target cases =>
    exact hhead.bind fun _ => (runCases_keeps hback hbodies).bind fun done =>
      hend (.switch target done.arms)
  | box duration body =>
    exact hhead.bind fun _ => (hbodies body List.mem_cons_self _).bind fun b =>
      hend (.box duration b)

end Keeping

end Form

end Builder

end QuantumCircuit
