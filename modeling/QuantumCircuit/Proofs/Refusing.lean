import QuantumCircuit.Proofs.Mirroring
import Mathlib.Data.List.TakeWhile

/-!
# Refused calls in a scope

A call on the active scope that is refused where a block is open leaves the circuit as it was
(`Circuit.Call.eq_of_refused`), and so does the end of a builder
(`Circuit.Closing.eq_of_refused`).

Calls check before they note what they use. A use puts down captures, and these are in nobody's
way: what could be used before can be used after (`known_captureAll_iff`). So nothing that a call
has checked is refused later.
-/

namespace QuantumCircuit

/-- A check that refuses changes nothing; then it is for the rest to change nothing. -/
theorem Edit.eq_of_check_refused {σ α β : Type} {r : Except CircuitError α} {f : α → Edit σ β}
    {s t : σ} {e : CircuitError} (h : (Edit.ofExcept r >>= f) s = .error e t)
    (hrest : ∀ a, r = .ok a → f a s = .error e t → t = s) : t = s := by
  rcases Edit.bind_eq_error_iff.1 h with h | ⟨a, u, hcheck, h⟩
  · exact (Edit.ofExcept_eq_error_iff.1 h).2.symm
  · obtain ⟨ha, rfl⟩ := Edit.ofExcept_eq_ok_iff.1 hcheck
    exact hrest a ha h

/-! ## Identifiers that can be used -/

/-- That the identifier is found from the innermost block outward, so that it can be used. -/
def Known (root : Content) (blocks : List Block) (i : Identifier) : Prop :=
  checkResolves root i blocks = .ok ()

/-- Note uses of the identifiers, one after another. -/
def captureAll (is : List Identifier) (blocks : List Block) : List Block :=
  is.foldl (fun blocks i => captureThrough i blocks) blocks

section Known

variable {root : Content} {blocks outer : List Block} {b b' : Block} {i j : Identifier}
  {is js : List Identifier} {f : Footprint}

theorem known_nil_iff : Known root [] i ↔ root.identifiers.contains i := by
  unfold Known checkResolves
  split <;> simp [*]

theorem known_cons_iff : Known root (b :: outer) i ↔
    b.resolves i ∨ ¬ b.locals.hasName i.name ∧ Known root outer i := by
  unfold Known
  rw [checkResolves]
  split
  · simp [*]
  · split <;> simp [*]

/-- Of the store it only counts which identifiers it has. -/
theorem known_congr {root' : Content} (h : root'.identifiers = root.identifiers) :
    Known root' blocks i ↔ Known root blocks i := by
  induction blocks with
  | nil => rw [known_nil_iff, known_nil_iff, h]
  | cons b outer ih => rw [known_cons_iff, known_cons_iff, ih]

/-- Of a block it only counts what resolves in it and which names its locals have. -/
theorem known_cons_congr (hresolves : ∀ j, b'.resolves j = b.resolves j)
    (hlocals : b'.locals = b.locals) : Known root (b' :: outer) i ↔ Known root (b :: outer) i := by
  rw [known_cons_iff, known_cons_iff, hresolves, hlocals]

theorem Block.mem_captures_touch :
    i ∈ (b.touch f).footprint.captures ↔ i ∈ b.footprint.captures ∨ i ∈ f.captures :=
  Distinct.mem_union i _ _

/-- What comes without captures changes nothing for identifiers. -/
theorem Block.resolves_touch (h : f.captures = []) : (b.touch f).resolves i = b.resolves i := by
  unfold Block.resolves Block.touch Footprint.union
  rw [h]
  rfl

theorem captureAll_append : captureAll (is ++ js) blocks = captureAll js (captureAll is blocks) :=
  List.foldl_append

/-- A use is in nobody's way. -/
theorem known_captureThrough_iff (h : Known root blocks i) :
    Known root (captureThrough i blocks) j ↔ Known root blocks j := by
  induction blocks with
  | nil => rfl
  | cons b outer ih =>
    by_cases hresolves : b.resolves i
    · rw [captureThrough_of_resolves hresolves]
    · have houter : Known root outer i := ((known_cons_iff.1 h).resolve_left hresolves).2
      rw [captureThrough_of_not_resolves hresolves, known_cons_iff, ih houter]
      have htouched : (b.touch ⟨[], [], [], [i]⟩).resolves j ↔ b.resolves j ∨ j = i := by
        rw [Block.resolves_iff, Block.mem_captures_touch, Block.resolves_iff, List.mem_singleton,
          or_assoc]
        rfl
      rw [htouched]
      -- the one that is captured can be used anyway, and for others nothing has changed
      by_cases hj : j = i
      · subst hj
        exact iff_of_true (.inl (.inr rfl)) h
      · rw [or_iff_left hj, known_cons_iff]
        rfl

theorem known_captureAll_iff (h : ∀ i ∈ is, Known root blocks i) :
    Known root (captureAll is blocks) j ↔ Known root blocks j := by
  induction is generalizing blocks with
  | nil => rfl
  | cons i rest ih =>
    obtain ⟨hi, hrest⟩ := List.forall_mem_cons.1 h
    show Known root (captureAll rest (captureThrough i blocks)) j ↔ _
    rw [ih fun j hj => (known_captureThrough_iff hi).2 (hrest j hj), known_captureThrough_iff hi]

theorem captureAll_length (is : List Identifier) (blocks : List Block) :
    (captureAll is blocks).length = blocks.length := by
  induction is generalizing blocks with
  | nil => rfl
  | cons i rest ih =>
    have hlength : (captureThrough i blocks).length = blocks.length := by
      simpa using congrArg List.length (map_captureThrough (f := Block.ban) (fun _ => rfl) blocks)
    exact (ih (captureThrough i blocks)).trans hlength

/-- Under no block nothing is captured. -/
theorem captureAll_nil (is : List Identifier) : captureAll is [] = [] :=
  List.length_eq_zero_iff.1 (captureAll_length is [])

end Known

namespace Circuit

variable {c d : Circuit} {i : Instruction} {is : List Identifier} {e : CircuitError}
  {u : ClassicalUse} {k : Call}

/-- Note uses of the identifiers. -/
def capture (is : List Identifier) (c : Circuit) : Circuit :=
  { c with blocks := captureAll is c.blocks }

theorem capture_nil (c : Circuit) : c.capture [] = c := by
  cases c
  rfl

/-- The identifiers up to the first one that cannot be used. -/
def usable (c : Circuit) (is : List Identifier) : List Identifier :=
  is.takeWhile fun i => (checkResolves c.content i c.blocks).isOk

theorem isOk_eq_true_iff {r : Except CircuitError Unit} : r.isOk = true ↔ r = .ok () := by
  cases r <;> simp [Except.isOk, Except.toBool]

theorem known_of_mem_usable {j : Identifier} (h : j ∈ c.usable is) :
    Known c.content c.blocks j :=
  isOk_eq_true_iff.1
    (List.mem_takeWhile_imp (p := fun i => (checkResolves c.content i c.blocks).isOk) h)

theorem useIdentifier_of_known {j : Identifier} (h : Known c.content c.blocks j) :
    useIdentifier j c = .ok () (c.capture [j]) :=
  useIdentifier_eq_ok_iff.2 ⟨h, rfl⟩

/-- Identifiers are used up to the first one that cannot be. -/
theorem each_useIdentifier_leaves_usable (h : (Edit.each useIdentifier is).Leaves c d) :
    d = c.capture (c.usable is) := by
  induction is generalizing c with
  | nil => exact (Edit.leaves_pure_iff.1 h).trans (capture_nil c).symm
  | cons j rest ih =>
    by_cases hj : Known c.content c.blocks j
    · have hrest : (c.capture [j]).usable rest = c.usable rest := by
        refine congrArg (List.takeWhile · rest) (funext fun i => ?_)
        exact Bool.eq_iff_iff.2 (isOk_eq_true_iff.trans
          ((known_captureThrough_iff hj).trans isOk_eq_true_iff.symm))
      have hused : c.usable (j :: rest) = j :: c.usable rest :=
        List.takeWhile_cons_of_pos (isOk_eq_true_iff.2 hj)
      rcases Edit.leaves_bind_iff.1 h with ⟨e, he⟩ | ⟨a, u, hu, h⟩
      · cases (useIdentifier_of_known hj).symm.trans he
      · cases (useIdentifier_of_known hj).symm.trans hu
        rw [ih h, hrest, hused]
        rfl
    · have hused : c.usable (j :: rest) = [] :=
        List.takeWhile_cons_of_neg fun hok => hj (isOk_eq_true_iff.1 hok)
      rw [hused]
      rcases Edit.leaves_bind_iff.1 h with ⟨e, he⟩ | ⟨a, u, hu, h⟩
      · exact (Edit.update_eq_error_iff.1 he).2.symm.trans (capture_nil c).symm
      · exact absurd (useIdentifier_eq_ok_iff.1 hu).1 hj

theorem each_useIdentifier_of_known (h : ∀ j ∈ is, Known c.content c.blocks j) :
    Edit.each useIdentifier is c = .ok () (c.capture is) := by
  induction is generalizing c with
  | nil => exact congrArg (EStateM.Result.ok ()) (capture_nil c).symm
  | cons j rest ih =>
    obtain ⟨hj, hrest⟩ := List.forall_mem_cons.1 h
    refine (Edit.bind_apply_of_ok (useIdentifier_of_known hj)).trans ?_
    exact ih fun i hi => (known_captureThrough_iff hj).2 (hrest i hi)

theorem known_of_each_useIdentifier (h : Edit.each useIdentifier is c = .ok () d) :
    ∀ j ∈ is, Known c.content c.blocks j := by
  induction is generalizing c with
  | nil => exact fun j hj => absurd hj List.not_mem_nil
  | cons j rest ih =>
    obtain ⟨_, u, hu, h⟩ := Edit.bind_eq_ok_iff.1 h
    obtain ⟨hj, rfl⟩ := useIdentifier_eq_ok_iff.1 hu
    refine List.forall_mem_cons.2 ⟨hj, fun i hi => ?_⟩
    exact (known_captureThrough_iff hj).1 (ih h i hi)

/-! ## Records -/

/-- That the open block has all that the operation of the record names. -/
structure Takes (c : Circuit) (i : Instruction) : Prop where
  identifiers : ∀ j ∈ i.operation.identifiers, Known c.content c.blocks j
  positions : ∃ ns, c.content.classicalPositions i.classicalFootprint = .ok ns

/-- The same identifiers can be used in the same store, where a block is open as well. -/
structure Alike (c d : Circuit) : Prop where
  content : d.content = c.content
  blocks : d.blocks ≠ []
  known : ∀ j, Known d.content d.blocks j ↔ Known c.content c.blocks j

theorem Takes.alike {r : Instruction} (h : c.Takes i) (hr : r.operation = i.operation)
    (hcd : c.Alike d) : d.Takes r := by
  have hfootprint : r.classicalFootprint = i.classicalFootprint := by
    unfold Instruction.classicalFootprint
    rw [hr]
  refine ⟨fun j hj => (hcd.known j).2 (h.identifiers j (hr ▸ hj)), ?_⟩
  rw [hfootprint, hcd.content]
  exact h.positions

/-- The circuit with a record in the innermost block, which has taken note of `f` and `g`. -/
def withRecord (i : Instruction) (f g : Footprint) (c : Circuit) : Circuit :=
  ((c.capture i.operation.identifiers).onTop (·.touch f)).onTop
    fun top => (top.touch g).snoc (.record i)

theorem checkAppend_eq_ok_iff {pending : List Identifier} (hopen : c.blocks ≠ []) :
    c.checkAppend i pending = .ok () ↔ c.content.checkOperands i = .ok () ∧
      (∀ j ∈ i.operation.identifiers, j ∈ pending ∨ Known c.content c.blocks j) ∧
        ∃ ns, c.content.classicalPositions i.classicalFootprint = .ok ns := by
  have hidentifiers : ∀ j, (if pending.contains j then .ok () else
      checkResolves c.content j c.blocks : Except CircuitError Unit) = .ok () ↔
        j ∈ pending ∨ Known c.content c.blocks j := by
    intro j
    split <;> simp_all [Known]
  unfold checkAppend
  split
  · exact absurd ‹_› hopen
  rw [Checking.seq_eq_ok_iff, Checking.seq_eq_ok_iff, checkEach_eq_ok_iff]
  simp only [hidentifiers]
  refine and_congr_right fun _ => and_congr_right fun _ => ?_
  rw [Checking.bind_eq_ok_iff]
  simp [pure, Except.pure]

theorem captureAll_ne_nil {is : List Identifier} {blocks : List Block} (h : blocks ≠ []) :
    captureAll is blocks ≠ [] := fun hnil => h (List.length_eq_zero_iff.1
  ((captureAll_length is blocks).symm.trans (congrArg List.length hnil)))

/-- A record whose operands are there and whose operation has all that it names is added. -/
theorem append_of_takes (hopen : c.blocks ≠ []) (hoperands : c.content.checkOperands i = .ok ())
    (h : c.Takes i) : ∃ f g, f.captures = [] ∧ g.captures = [] ∧
      append i c = .ok () (c.withRecord i f g) := by
  obtain ⟨ns, hns⟩ := h.positions
  have hcheck : c.checkAppend i [] = .ok () := (checkAppend_eq_ok_iff hopen).2
    ⟨hoperands, fun j hj => .inr (h.identifiers j hj), ns, hns⟩
  have hcaptured : (c.capture i.operation.identifiers).blocks ≠ [] := captureAll_ne_nil hopen
  have hclassical : useClassical i.classicalFootprint (c.capture i.operation.identifiers) =
      .ok () ((c.capture i.operation.identifiers).onTop
        (·.touch ⟨[], ns, i.classicalFootprint.registers, []⟩)) :=
    (useClassical_eq_ok_iff_of_open hcaptured).2 ⟨ns, hns, rfl⟩
  refine ⟨⟨[], ns, i.classicalFootprint.registers, []⟩, ⟨i.qubits, i.clbits, [], []⟩, rfl, rfl, ?_⟩
  rw [append_of_open hopen, hcheck]
  refine (Edit.bind_apply_of_ok (each_useIdentifier_of_known h.identifiers)).trans ?_
  exact (Edit.bind_apply_of_ok hclassical).trans rfl

/-- Where a block is open, a record is added with all that goes with it, or nothing happens. -/
theorem append_cases (hopen : c.blocks ≠ []) (i : Instruction) :
    (∃ e, append i c = .error e c) ∨
      c.content.checkOperands i = .ok () ∧ c.Takes i ∧ ∃ f g, f.captures = [] ∧ g.captures = [] ∧
        append i c = .ok () (c.withRecord i f g) := by
  cases hcheck : c.checkAppend i [] with
  | error e =>
    refine .inl ⟨e, ?_⟩
    rw [append_of_open hopen, hcheck]
    rfl
  | ok _ =>
    obtain ⟨hoperands, hidentifiers, hpositions⟩ := (checkAppend_eq_ok_iff hopen).1 hcheck
    have htakes : c.Takes i :=
      ⟨fun j hj => (hidentifiers j hj).resolve_left List.not_mem_nil, hpositions⟩
    exact .inr ⟨hoperands, htakes, append_of_takes hopen hoperands htakes⟩

/-- A record goes to the top block, once its captures have been put down. -/
theorem withRecord_eq_of_open (hopen : c.blocks ≠ []) (i : Instruction) (f g : Footprint) :
    ∃ top outer, captureAll i.operation.identifiers c.blocks = top :: outer ∧
      c.withRecord i f g =
        ⟨c.name, c.content, ((top.touch f).touch g).snoc (.record i) :: outer⟩ := by
  have hcaptured : captureAll i.operation.identifiers c.blocks ≠ [] := captureAll_ne_nil hopen
  obtain ⟨top, outer, hblocks⟩ := List.exists_cons_of_ne_nil hcaptured
  refine ⟨top, outer, hblocks, ?_⟩
  unfold withRecord capture onTop
  rw [hblocks]

theorem alike_withRecord (hopen : c.blocks ≠ []) (h : c.Takes i) {f g : Footprint}
    (hf : f.captures = []) (hg : g.captures = []) : c.Alike (c.withRecord i f g) := by
  obtain ⟨top, outer, hblocks, hd⟩ := withRecord_eq_of_open hopen i f g
  rw [hd]
  refine ⟨rfl, List.cons_ne_nil _ _, fun j => ?_⟩
  rw [← known_captureAll_iff h.identifiers, hblocks]
  refine known_cons_congr (fun j => ?_) rfl
  have hresolves : ((top.touch f).touch g).resolves j = top.resolves j :=
    (Block.resolves_touch hg).trans (Block.resolves_touch hf)
  exact hresolves

/-- A record that is refused changes nothing, in a block or outside every block. -/
theorem append_refused (h : append i c = .error e d) : d = c := by
  by_cases hopen : c.blocks = []
  · rw [append_of_closed hopen] at h
    obtain ⟨content, hpush, rfl⟩ := Edit.within_eq_error_iff.1 h
    obtain ⟨-, rfl⟩ := Edit.update_eq_error_iff.1 hpush
    cases c
    rfl
  · rcases append_cases hopen i with ⟨_, hrefused⟩ | ⟨-, -, f, g, -, -, hadded⟩
    · cases hrefused.symm.trans h
      rfl
    · cases hadded.symm.trans h

/-- Records of one operation are all taken where it is taken once. -/
theorem each_append_of_takes {rs : List Instruction} (hopen : c.blocks ≠ []) (h : c.Takes i)
    (hrs : ∀ r ∈ rs, r.operation = i.operation ∧ c.content.checkOperands r = .ok ()) :
    ∃ d, Edit.each append rs c = .ok () d := by
  induction rs generalizing c with
  | nil => exact ⟨c, rfl⟩
  | cons r rest ih =>
    obtain ⟨⟨hr, hoperands⟩, hrest⟩ := List.forall_mem_cons.1 hrs
    have hsame : c.Takes r := h.alike hr ⟨rfl, hopen, fun _ => Iff.rfl⟩
    obtain ⟨f, g, hf, hg, hadded⟩ := append_of_takes hopen hoperands hsame
    have halike := alike_withRecord hopen hsame hf hg
    obtain ⟨d, hd⟩ := ih halike.blocks (h.alike rfl halike)
      fun r' hr' => ⟨(hrest r' hr').1, halike.content ▸ (hrest r' hr').2⟩
    exact ⟨d, (Edit.bind_apply_of_ok hadded).trans hd⟩

/-- So if one of them is refused, it is the first. -/
theorem each_append_refused {op : Operation} {rs : List Instruction} (hopen : c.blocks ≠ [])
    (hrs : ∀ r ∈ rs, r.operation = op ∧ c.content.checkOperands r = .ok ())
    (h : Edit.each append rs c = .error e d) : d = c := by
  cases rs with
  | nil => cases h
  | cons r rest =>
    rcases append_cases hopen r with ⟨_, hrefused⟩ | ⟨-, htakes, -⟩
    · rcases Edit.bind_eq_error_iff.1 h with h | ⟨_, u, hu, -⟩
      · exact append_refused h
      · cases hrefused.symm.trans hu
    · obtain ⟨d', hd'⟩ : ∃ d', Edit.each append (r :: rest) c = .ok () d' :=
        each_append_of_takes hopen htakes
        fun r' hr' => ⟨(hrs r' hr').1.trans (hrs r List.mem_cons_self).1.symm, (hrs r' hr').2⟩
      cases hd'.symm.trans h

/-! ## Calls -/

theorem appendOperation_refused {op : Operation} {qubits : List (BitSpec .quantum)}
    {clbits : List (BitSpec .classical)} (hopen : c.blocks ≠ [])
    (h : appendOperation op qubits clbits c = .error e d) : d = c := by
  rcases Call.appendOperation_cases op qubits clbits c with
    ⟨_, hrefused⟩ | ⟨rs, hrs, hoperands, hrun⟩
  · cases hrefused.symm.trans h
    rfl
  · rw [if_pos (show c.inScope = true by simpa [inScope] using hopen)] at hoperands
    exact each_append_refused hopen (fun r hr => ⟨operation_of_expand hrs r hr, hoperands r hr⟩)
      (hrun.symm.trans h)

/-- What can be used is visible. -/
theorem nameVisible_of_known {j : Identifier} (h : Known c.content c.blocks j) :
    c.nameVisible j.name = true := by
  unfold nameVisible
  generalize c.blocks = blocks at h
  induction blocks with
  | nil => simp [IdentifierTable.hasName_of_contains (known_nil_iff.1 h)]
  | cons b outer ih =>
    rcases known_cons_iff.1 h with hresolves | ⟨-, houter⟩
    · rcases Block.resolves_iff.1 hresolves with hlocal | hcaptured
      · simp [IdentifierTable.hasName_of_contains hlocal]
      · have hany : b.footprint.captures.any (·.name == j.name) = true :=
          List.any_eq_true.2 ⟨j, hcaptured, beq_self_eq_true _⟩
        simp [hany]
    · have hrest := ih houter
      simp only [Bool.or_eq_true, List.any_cons] at hrest ⊢
      exact hrest.imp_right .inr

/-- What can be used can still be used after a declaration, and what is declared as well. -/
theorem known_of_declared {j i : Identifier} {top : Block} {outer : List Block}
    (hblocks : c.blocks = top :: outer) (hvisible : c.nameVisible j.name = false)
    (hnone : top.locals.get? j.name = none) (hi : i = j ∨ Known c.content c.blocks i) :
    Known c.content ({ top with locals := top.locals.insert j .declare } :: outer) i := by
  rcases hi with rfl | hi
  · refine known_cons_iff.2 (.inl (Block.resolves_iff.2 (.inl ?_)))
    exact (IdentifierTable.contains_insert_iff hnone).2 (.inr rfl)
  · have hname : i.name ≠ j.name := fun hname => by
      rw [← hname, nameVisible_of_known hi] at hvisible
      cases hvisible
    rw [hblocks] at hi
    rcases known_cons_iff.1 hi with hresolves | ⟨hfree, houter⟩
    · refine known_cons_iff.2 (.inl (Block.resolves_iff.2 ?_))
      refine (Block.resolves_iff.1 hresolves).imp_left fun hlocal => ?_
      exact (IdentifierTable.contains_insert_iff hnone).2 (.inl hlocal)
    · refine known_cons_iff.2 (.inr ⟨fun hhas => ?_, houter⟩)
      exact ((IdentifierTable.hasName_insert_iff hnone).1 hhas).elim hfree hname

theorem addVar_refused {v : Var} {initial : Expr} (hopen : c.blocks ≠ [])
    (h : addVar v initial c = .error e d) : d = c := by
  rcases Call.addVar_cases v initial c with
    ⟨_, hrefused⟩ | ⟨s, -, hdeclarable, hchecked, hrun⟩
  · cases hrefused.symm.trans h
    rfl
  -- all is checked by now: the declaration goes through, and then the store
  replace h := hrun.symm.trans h
  obtain ⟨top, outer, hblocks⟩ := List.exists_cons_of_ne_nil hopen
  obtain ⟨hvisible, hnone⟩ := checkDeclaration_eq_ok hblocks hdeclarable
  have hdeclare := (declare_eq_ok_iff_of_open hblocks).2 ⟨hdeclarable, rfl⟩
  obtain ⟨hoperands, hidentifiers, hpositions⟩ := (checkAppend_eq_ok_iff hopen).1 hchecked
  rcases Edit.bind_eq_error_iff.1 h with h | ⟨_, u, hu, h⟩
  · exact declare_refused hopen h
  cases hdeclare.symm.trans hu
  let declared : Circuit :=
    ⟨c.name, c.content, { top with locals := top.locals.insert (.var v) .declare } :: outer⟩
  have hknown : ∀ j ∈ (Operation.store s).identifiers, Known declared.content declared.blocks j :=
    fun j hj => known_of_declared (c := c) hblocks hvisible hnone
      ((hidentifiers j hj).imp_left List.mem_singleton.1)
  obtain ⟨f, g, -, -, hadded⟩ := append_of_takes (c := declared) (List.cons_ne_nil _ _) hoperands
    ⟨hknown, hpositions⟩
  cases hadded.symm.trans h

/-! ## Compositions -/

/-- The same store under the same name, and an open block. -/
def InScopeOf (c d : Circuit) : Prop := d.name = c.name ∧ d.content = c.content ∧ d.blocks ≠ []

theorem keeps_inScopeOf {e : Edit Circuit Unit}
    (h : ∀ c d, c.blocks ≠ [] → e.Leaves c d → c.InScopeOf d) (base : Circuit) :
    e.Keeps base.InScopeOf := by
  intro c d hc hd
  obtain ⟨hname, hcontent, hopen⟩ := h c d hc.2.2 hd
  exact ⟨hname.trans hc.1, hcontent.trans hc.2.1, hopen⟩

theorem each_keeps_inScopeOf {α : Type} {edit : α → Edit Circuit Unit} {l : List α}
    (h : ∀ a c d, c.blocks ≠ [] → (edit a).Leaves c d → c.InScopeOf d) (base : Circuit) :
    (Edit.each edit l).Keeps base.InScopeOf :=
  .each fun a _ => keeps_inScopeOf (h a) base

theorem useIdentifier_inScopeOf (j : Identifier) (c d : Circuit) (hopen : c.blocks ≠ [])
    (h : (useIdentifier j).Leaves c d) : c.InScopeOf d := by
  rcases useIdentifier_leaves h with rfl | rfl
  · exact ⟨rfl, rfl, hopen⟩
  · exact ⟨rfl, rfl, show captureAll [j] c.blocks ≠ [] from captureAll_ne_nil hopen⟩

theorem declare_inScopeOf (j : Identifier) (c d : Circuit) (hopen : c.blocks ≠ [])
    (h : (declare j).Leaves c d) : c.InScopeOf d := by
  obtain ⟨top, outer, hblocks⟩ := List.exists_cons_of_ne_nil hopen
  rcases declare_leaves_of_open hblocks h with rfl | rfl
  · exact ⟨rfl, rfl, hopen⟩
  · exact ⟨rfl, rfl, List.cons_ne_nil _ _⟩

theorem append_inScopeOf (i : Instruction) (c d : Circuit) (hopen : c.blocks ≠ [])
    (h : (append i).Leaves c d) : c.InScopeOf d := by
  rcases append_cases hopen i with ⟨e, hrefused⟩ | ⟨-, htakes, f, g, hf, hg, hadded⟩
  · rcases h with ⟨_, h⟩ | ⟨_, h⟩ <;> cases hrefused.symm.trans h
    exact ⟨rfl, rfl, hopen⟩
  · rcases h with ⟨_, h⟩ | ⟨_, h⟩ <;> cases hadded.symm.trans h
    have hdone := alike_withRecord hopen htakes hf hg
    exact ⟨(onTop_name _ _).trans (onTop_name _ _), hdone.content, hdone.blocks⟩

/-- What a composition does in a block stays in the scope. -/
theorem splicing_keeps_inScopeOf (s : Splice) (base : Circuit) : (do
    Edit.each useIdentifier s.identifiers.uses
    Edit.each declare s.identifiers.declarations
    Edit.each append s.records : Edit Circuit Unit).Keeps base.InScopeOf :=
  (each_keeps_inScopeOf useIdentifier_inScopeOf base).bind fun _ =>
    (each_keeps_inScopeOf declare_inScopeOf base).bind fun _ =>
      each_keeps_inScopeOf append_inScopeOf base

theorem composeInScope_refused {s : Splice} (hopen : c.blocks ≠ [])
    (h : addSpliceInScope s c = .error e d) : d = c := by
  refine Edit.eq_of_check_refused h fun _ _ h => ?_
  obtain ⟨u, hedit, rfl⟩ := keepingBlocks_eq_error_iff.1 h
  -- the blocks are put back, and nothing else was touched
  obtain ⟨hname, hcontent, -⟩ :=
    splicing_keeps_inScopeOf s c c u ⟨rfl, rfl, hopen⟩ (.of_error hedit)
  obtain ⟨name, content, blocks⟩ := c
  obtain ⟨name', content', blocks'⟩ := u
  obtain rfl : name' = name := hname
  obtain rfl : content' = content := hcontent
  rfl

/-- A composition in a block brings no clbits, and puts nothing at the front. -/
theorem compose_of_open {source : Circuit} {o : ComposeOptions} {p : Placement}
    (hopen : c.blocks ≠ []) (hp : c.place source o = .ok p) : compose source o c =
      (if o.wrap then (do
        let op ← Edit.ofExcept source.toOperation
        append (.make (.custom op) p.qubits p.clbits))
      else (do
        let s ← Edit.ofExcept (c.splice source o p)
        addSpliceInScope s) : Edit Circuit Unit) c := by
  have hscope : c.inScope = true := by simpa [inScope] using hopen
  have hchecked := place_eq_ok_iff.1 hp
  have hbring : p.bringClbits = false := by simpa [hscope] using hchecked.brings
  have hfront : o.front = false := by simpa [hscope] using hchecked.front
  rw [compose_apply_of_place hp]
  cases hwrap : o.wrap with
  | true =>
    simp only [if_true, composeWrapped, hbring, hfront]
    rfl
  | false => simp only [Bool.false_eq_true, if_false, if_pos hscope]

theorem compose_refused {source : Circuit} {o : ComposeOptions} (hopen : c.blocks ≠ [])
    (h : compose source o c = .error e d) : d = c := by
  refine Edit.eq_of_check_refused (r := c.place source o) h fun p hp _ => ?_
  rw [compose_of_open hopen hp] at h
  split at h
  · exact Edit.eq_of_check_refused h fun op _ h => append_refused h
  · exact Edit.eq_of_check_refused h fun s _ h => composeInScope_refused hopen h

/-- A composition in a block adds the source as one operation, or else a splice of it. -/
theorem compose_eq_ok_of_open {source : Circuit} {o : ComposeOptions} (hopen : c.blocks ≠ [])
    (h : compose source o c = .ok () d) : ∃ p, c.place source o = .ok p ∧
      ((o.wrap = true ∧ ∃ op, source.toOperation = .ok op ∧
          append (.make (.custom op) p.qubits p.clbits) c = .ok () d) ∨
        (o.wrap = false ∧ ∃ s, c.splice source o p = .ok s ∧ addSpliceInScope s c = .ok () d)) := by
  obtain ⟨p, hp⟩ := place_of_ok h
  refine ⟨p, hp, ?_⟩
  rw [compose_of_open hopen hp] at h
  split at h
  · rename_i hwrap
    obtain ⟨op, hop, h⟩ := Edit.ofExcept_bind_eq_ok_iff.1 h
    exact .inl ⟨hwrap, op, hop, h⟩
  · rename_i hwrap
    obtain ⟨s, hs, h⟩ := Edit.ofExcept_bind_eq_ok_iff.1 h
    exact .inr ⟨Bool.eq_false_iff.2 hwrap, s, hs, h⟩

theorem compose_inScopeOf {source : Circuit} {o : ComposeOptions} (hopen : c.blocks ≠ [])
    (h : (compose source o).Leaves c d) : c.InScopeOf d := by
  rcases h with ⟨_, h⟩ | ⟨_, h⟩
  · obtain ⟨p, -, ⟨-, op, -, hadd⟩ | ⟨-, s, -, hadd⟩⟩ := compose_eq_ok_of_open hopen h
    · exact append_inScopeOf _ _ _ hopen (.of_ok hadd)
    · obtain ⟨_, -, hadd⟩ := Edit.ofExcept_bind_eq_ok_iff.1 hadd
      exact splicing_keeps_inScopeOf s _ _ _ ⟨rfl, rfl, hopen⟩
        (.of_ok (keepingBlocks_eq_ok_iff.1 hadd))
  · obtain rfl := compose_refused hopen h
    exact ⟨rfl, rfl, hopen⟩

/-! ## All calls on the scope, and the ends of builders -/

/-- Whether the call goes to the active scope, compositions included. -/
def Call.ToScope : Call → Prop
  | .compose _ _ => True
  | k => k.OnScope

/-- The calls on the scope come down to a few, and an append that is refused changes nothing
anyway. -/
theorem Call.eq_of_refused_of_onScope (hk : k.OnScope)
    (hoperation : ∀ op qubits clbits,
      Circuit.appendOperation op qubits clbits c = .error e d → d = c)
    (hvar : ∀ v initial, Circuit.addVar v initial c = .error e d → d = c)
    (hdeclare : ∀ i, Circuit.declare i c = .error e d → d = c)
    (hjump : ∀ j, Circuit.jump j c = .error e d → d = c) (h : k.run c = .error e d) : d = c := by
  cases k with
  | append i => exact append_refused h
  | appendHandles i =>
    exact Edit.eq_of_check_refused (r := c.content.instructionOf i) h fun _ _ h =>
      append_refused h
  | appendOperation op qubits clbits => exact hoperation op qubits clbits h
  | barrier qubits =>
    exact Edit.eq_of_check_refused (r := qubits.mapM c.content.resolveSpec) h fun _ _ h =>
      append_refused h
  | barrierAll => exact append_refused (i := .barrier (List.range c.numQubits)) h
  | delay t qubit => exact Edit.eq_of_check_refused h fun _ _ h => hoperation _ _ _ h
  | write target value => exact Edit.eq_of_check_refused h fun s _ h => append_refused h
  | addVar v initial => exact hvar v initial h
  | declare i => exact hdeclare i h
  | jump j => exact hjump j h
  | store _ | rename _ | addOuter _ _ | addLoose _ _ _ | measureAll _ | compose _ _ => cases hk

/-- A call on the scope that is refused where a block is open changes nothing. -/
theorem Call.eq_of_refused (hk : k.ToScope) (hopen : c.blocks ≠ []) (h : k.run c = .error e d) :
    d = c := by
  have honScope : k.OnScope → d = c := fun hk =>
    eq_of_refused_of_onScope hk (fun _ _ _ => appendOperation_refused hopen)
      (fun _ _ => addVar_refused hopen) (fun _ => declare_refused hopen)
      (fun _ => jump_refused hopen) h
  cases k with
  | compose source o => exact compose_refused hopen h
  | _ => exact honScope hk

/-- The end of a builder that is refused changes nothing, in a block or outside every block. -/
theorem Closing.eq_of_refused {k : Closing} (h : k.run c = .error e d) : d = c := by
  rcases k.run_cases c with hrun | hrun
  · cases hrun.symm.trans h
    rfl
  rw [hrun] at h
  split at h
  · exact appendWaiting_refused h
  · exact Edit.eq_of_check_refused (r := k.make c.content k.span.sorted) h fun flow _ h =>
      append_refused h

end Circuit

end QuantumCircuit
