import QuantumCircuit.Proofs.Admitting
import QuantumCircuit.Proofs.Expanding
import QuantumCircuit.Proofs.Stacking
import Mathlib.Data.List.Nodup
import Mathlib.Tactic.MkIffOfInductiveProp

/-!
# Compositions that answer

A composition on given targets has little left to be refused for. The records of a source that
names only clbits and registers of its own can always be moved (`LeafMap.records_answer`): what is
missing on the way is made. Its identifiers come in if they go together with those that are there.
So all that is left is a name: such a composition answers, or an identifier of the source has the
name of a classical register of the destination, and it is refused for that
(`Circuit.compose_onto_cases`).
-/

namespace QuantumCircuit

/-! ## Edits that answer -/

/-- From every state with `I` the edit answers, and `I` holds still. -/
def Edit.Answers {σ α : Type} (I : σ → Prop) (e : Edit σ α) : Prop :=
  ∀ s, I s → ∃ a t, e s = .ok a t ∧ I t

namespace Edit.Answers

variable {σ α β : Type} {I : σ → Prop}

theorem pure (a : α) : Answers I (Pure.pure a : Edit σ α) := fun s hs => ⟨a, s, rfl, hs⟩

theorem bind {e : Edit σ α} {k : α → Edit σ β} (he : Answers I e) (hk : ∀ a, Answers I (k a)) :
    Answers I (e >>= k) := by
  intro s hs
  obtain ⟨a, u, ha, hu⟩ := he s hs
  obtain ⟨b, t, hb, ht⟩ := hk a u hu
  exact ⟨b, t, Edit.bind_eq_ok_iff.2 ⟨a, u, ha, hb⟩, ht⟩

theorem sequencing : Sequencing fun (α : Type) (_ : Unit → Except CircuitError α) (e : Edit σ α) =>
    Answers I e :=
  ⟨pure, bind⟩

end Edit.Answers

/-! ## Moving records -/

namespace LeafMap

variable {m : LeafMap} {r : ClassicalRegister} {bits : List Clbit} {I : RegisterChoice → Prop}

/-- A register over mapped bits is chosen, or one is made: it is enough that both keep `I`. -/
theorem register_answers (hall : r.bits.mapM m.clbit = .ok bits)
    (hchosen : ∀ s e, I s → I { s with chosen := s.chosen ++ [e] })
    (hmade : ∀ s, I s → (m.registers ++ s.aliases).find? (·.bits == bits) = none → bits.Nodup ∧
      I ⟨s.chosen ++ [(r, ⟨(s.names.fresh s.taken).1, bits, false⟩)],
        s.aliases ++ [⟨(s.names.fresh s.taken).1, bits, false⟩],
        (s.names.fresh s.taken).2, s.taken ++ [(s.names.fresh s.taken).1]⟩) :
    Edit.Answers I (m.register r) := by
  intro s hs
  rw [register, Edit.get_bind_apply]
  cases s.chosen.find? (·.1 == r) with
  | some found => exact ⟨found.2, s, rfl, hs⟩
  | none =>
    simp only
    rw [Edit.bind_apply_of_ok (Edit.ofExcept_eq_ok_iff.2 ⟨hall, rfl⟩)]
    cases hequal : (m.registers ++ s.aliases).find? (·.bits == bits) with
    | some image => exact ⟨image, _, rfl, hchosen s (r, image) hs⟩
    | none =>
      obtain ⟨hnodup, hnext⟩ := hmade s hs hequal
      have hregister : Register.ofBits (s.names.fresh s.taken).1 bits =
          .ok ⟨(s.names.fresh s.taken).1, bits, false⟩ := by
        rw [Register.ofBits, (Distinct.firstRepeat?_eq_none_iff bits).2 hnodup]
      refine ⟨⟨(s.names.fresh s.taken).1, bits, false⟩, _, ?_, hnext⟩
      exact (Edit.bind_apply_of_ok (Edit.ofExcept_eq_ok_iff.2 ⟨hregister, rfl⟩)).trans rfl

/-- Where a register over the mapped bits is there already, no alias is made. -/
theorem register_answers_there (hall : r.bits.mapM m.clbit = .ok bits)
    (hthere : ∃ q ∈ m.registers, q.bits = bits) :
    Edit.Answers (fun s : RegisterChoice => s.aliases = []) (m.register r) := by
  refine register_answers hall (fun _ _ hs => hs) fun s _ hnone => ?_
  obtain ⟨q, hq, hbits⟩ := hthere
  have hdiffers := List.find?_eq_none.1 hnone q (List.mem_append_left _ hq)
  simp [hbits] at hdiffers

/-- That aliases made so far are called by the stem and a number. -/
structure NamesMade (stem : String) (s : RegisterChoice) : Prop where
  sequence : s.names.stem = stem
  names : ∀ a ∈ s.aliases, ∃ n : Nat, a.name = stem ++ toString n

/-- Different bits are always stood for, by an alias with a made-up name if need be. -/
theorem register_answers_named {stem : String} (hall : r.bits.mapM m.clbit = .ok bits)
    (hnodup : bits.Nodup) : Edit.Answers (NamesMade stem) (m.register r) := by
  refine register_answers hall (fun s e hs => ⟨hs.sequence, hs.names⟩)
    fun s hs _ => ⟨hnodup, hs.sequence, ?_⟩
  refine List.forall_mem_append.2 ⟨hs.names, List.forall_mem_singleton.2 ?_⟩
  exact ⟨_, congrArg (· ++ _) hs.sequence⟩

theorem leaf_answers {x : Expr} (hclbit : ∀ b, x.ownClbit? = some b → ∃ b', m.clbit b = .ok b')
    (hregister : ∀ r, x.ownRegister? = some r → Edit.Answers I (m.register r)) :
    Edit.Answers I (m.leaf x) := by
  cases x with
  | clbit b =>
    obtain ⟨b', hb⟩ := hclbit b rfl
    refine Edit.Answers.bind (fun s hs => ?_) fun image => .pure _
    exact ⟨b', s, Edit.ofExcept_eq_ok_iff.2 ⟨hb, rfl⟩, hs⟩
  | register r => exact (hregister r rfl).bind fun image => .pure _
  | var | stretch | value | unary | binary | cast | index => exact .pure _

/-- As long as no identifier is renamed, records can be moved if their leaves can. -/
theorem records_answer (hnone : m.identifiers.changesAny = false) (p : Placement)
    {records : List Instruction}
    (hleaf : ∀ i ∈ records, ∀ x ∈ i.operation.nodes, Edit.Answers I (m.leaf x)) :
    Edit.Answers I (m.records p records) :=
  @records_related m Unit (fun _ _ e => Edit.Answers I e) Edit.Answers.sequencing
    (fun hsome => absurd (hnone.symm.trans hsome) Bool.false_ne_true) m rfl (fun _ => []) p records
    hleaf

end LeafMap

/-! ## Clbits of the source -/

theorem BitList.length_filterMap_get? {k : BitKind} {l : BitList k} {positions : List Nat}
    (h : ∀ t ∈ positions, t < l.size) : (positions.filterMap l.get?).length = positions.length := by
  induction positions with
  | nil => rfl
  | cons t rest ih =>
    obtain ⟨ht, hrest⟩ := List.forall_mem_cons.1 h
    obtain ⟨bit, hsome⟩ : ∃ bit, l.get? t = some bit := ⟨_, List.getElem?_eq_getElem ht⟩
    rw [List.filterMap_cons_some hsome, List.length_cons, List.length_cons, ih hrest]

namespace Circuit

variable {A : Policy} {c source : Circuit} {o : ComposeOptions} {p : Placement} {images : Renaming}

/-- What the records name at the top, in conditions, targets, stores and durations, is there; and no
register lists a clbit twice. -/
@[mk_iff]
structure NamesOwn (source : Circuit) : Prop where
  clbits : ∀ i ∈ source.content.records, ∀ b ∈ i.operation.nodes.filterMap Expr.ownClbit?,
    b ∈ source.content.clbits.bits
  registers : ∀ i ∈ source.content.records, ∀ r ∈ i.operation.nodes.filterMap Expr.ownRegister?,
    source.content.clbits.hasRegister r
  distinct : ∀ r ∈ source.content.clbits.registers, r.bits.Nodup

instance (source : Circuit) : Decidable source.NamesOwn :=
  decidable_of_iff _ (namesOwn_iff source).symm

section Clbits

variable (images) (hp : c.Placed source o p)
include hp

theorem keys_spliceMap :
    Assoc.keys (c.spliceMap source p images).clbits = source.content.clbits.bits := by
  refine List.map_fst_zip (Nat.le_of_eq ?_)
  have hclbits := hp.clbits
  cases hbring : p.bringClbits with
  | true => rfl
  | false =>
    rw [hbring, if_neg Bool.false_ne_true] at hclbits
    rw [if_neg Bool.false_ne_true, BitList.length_filterMap_get? hclbits.range, hclbits.length]
    rfl

theorem clbit_ok {b : Clbit} (hb : b ∈ source.content.clbits.bits) :
    ∃ b', (c.spliceMap source p images).clbit b = .ok b' := by
  rw [← keys_spliceMap images hp] at hb
  unfold LeafMap.clbit
  cases hfind : Assoc.find? b (c.spliceMap source p images).clbits with
  | some image => exact ⟨image, rfl⟩
  | none => exact absurd hb ((Assoc.find?_eq_none_iff _ _).1 hfind)

variable (hplace : c.place source o = .ok p) (hc : c.content.Orderly)
  (hsource : source.content.Orderly)
include hplace hc hsource

/-- Different clbits go to different clbits. -/
theorem clbit_biUnique :
    Relator.BiUnique fun b b' => (c.spliceMap source p images).clbit b = .ok b' := by
  refine ⟨fun a b x ha hb => ?_, fun a x y hx hy => Except.ok.inj (hx.symm.trans hy)⟩
  obtain ⟨k, t, hk, ht, hx⟩ := clbitGoes_of_clbit (d := p.host c source) hp hplace rfl ha
  obtain ⟨k', t', hk', ht', hx'⟩ := clbitGoes_of_clbit (d := p.host c source) hp hplace rfl hb
  have hhost : (p.host c source).content.clbits.bits.Nodup := by
    unfold Placement.host
    split
    · exact hsource.clbits.bits
    · exact hc.clbits.bits
  rw [← (place_targets hplace).2] at ht ht'
  have hnodup := hp.clbits.nodup
  -- the positions are the same, one after another: of the image, of the target, of the clbit
  obtain rfl : t = t' :=
    (List.getElem?_inj (List.getElem?_eq_some_iff.1 hx).1 hhost).1 (hx.trans hx'.symm)
  obtain rfl : k = k' :=
    (List.getElem?_inj (List.getElem?_eq_some_iff.1 ht).1 hnodup).1 (ht.trans ht'.symm)
  exact Option.some.inj (hk.symm.trans hk')

/-- The bits of a register of the source go to as many different ones. -/
theorem mapM_clbit_ok {r : ClassicalRegister} (hown : source.NamesOwn)
    (hr : source.content.clbits.hasRegister r) :
    ∃ bits, r.bits.mapM (c.spliceMap source p images).clbit = .ok bits ∧ bits.Nodup := by
  obtain ⟨q, hq, -, hbits⟩ := BitList.exists_mem_of_hasRegister hr
  have hnodup := hown.distinct q hq
  have hlisted := hsource.clbits.members q hq
  rw [hbits] at hnodup hlisted
  cases hall : r.bits.mapM (c.spliceMap source p images).clbit with
  | error e =>
    obtain ⟨b, hb, hrefused⟩ := Checking.exists_of_mapM_eq_error hall
    obtain ⟨b', hok⟩ := clbit_ok images hp (hlisted b hb)
    rw [hok] at hrefused
    cases hrefused
  | ok bits =>
    exact ⟨bits, rfl, (List.rel_nodup (clbit_biUnique images hp hplace hc hsource)
      (Checking.mapM_eq_ok_iff.1 hall)).1 hnodup⟩

/-- The leaves of a source that names its own can all be moved. -/
theorem NamesOwn.leaf_answers {I : RegisterChoice → Prop} (hown : source.NamesOwn)
    {i : Instruction} (hi : i ∈ source.content.records)
    (hregister : ∀ r bits, source.content.clbits.hasRegister r →
      r.bits.mapM (c.spliceMap source p images).clbit = .ok bits → bits.Nodup →
      Edit.Answers I ((c.spliceMap source p images).register r)) :
    ∀ x ∈ i.operation.nodes, Edit.Answers I ((c.spliceMap source p images).leaf x) := by
  intro x hx
  refine LeafMap.leaf_answers (fun b hb => ?_) fun r hr => ?_
  · exact clbit_ok images hp (hown.clbits i hi b (List.mem_filterMap.2 ⟨x, hx, hb⟩))
  · have hthere := hown.registers i hi r (List.mem_filterMap.2 ⟨x, hx, hr⟩)
    obtain ⟨bits, hall, hnodup⟩ := mapM_clbit_ok images hp hplace hc hsource hown hthere
    exact hregister r bits hthere hall hnodup

/-- So can its records, if no identifier is renamed. Aliases on the way get made-up names. -/
theorem NamesOwn.records_answer (hown : source.NamesOwn) (hsame : images.changesAny = false) :
    Edit.Answers (LeafMap.NamesMade BitKind.classical.letter)
      ((c.spliceMap source p images).records p source.content.records) :=
  LeafMap.records_answer (m := c.spliceMap source p images) hsame p fun _ hi =>
    hown.leaf_answers images hp hplace hc hsource hi fun _ _ _ hall hnodup =>
      LeafMap.register_answers_named hall hnodup

end Clbits

end Circuit

/-! ## Identifiers of the source -/

namespace IdentifierPlan

variable {c source : Circuit} {o : ComposeOptions} {p : Placement} {m : Renaming}
  {plan : IdentifierPlan} {planned : IdentifierTable}

section

variable (hclosed : c.blocks = []) (hinline : o.inlineCaptures = false)
  (hbring : p.bringClbits = false)
include hclosed hinline hbring

/-- Outside blocks an identifier is refused for the name of a register, or by its table. -/
theorem step_eq (i : Identifier) (kind : IdentifierKind) : plan.step c source o p i kind =
    if (c.content.clbits.register? i.name).isSome then .error (.identifierShadowing i.name)
    else do
      let planned ← plan.planned.added i kind
      return { plan with planned, additions := plan.additions ++ [(i, kind)] } := by
  simp [step, Circuit.inScope, hclosed, hinline, hbring]

/-- Identifiers that the table takes are planned for, or one is refused for the name of a
register. -/
theorem make_cases (hall : c.content.identifiers.addedAll
      (source.content.identifiers.toList.map fun e => (m.apply e.1, e.2)) = .ok planned) :
    (∃ plan, make c source o p m = .ok plan) ∨
      ∃ e ∈ source.content.identifiers.toList,
        (c.content.clbits.register? (m.apply e.1).name).isSome ∧
        make c source o p m = .error (.identifierShadowing (m.apply e.1).name) := by
  -- the table of the plan is the one to which the identifiers so far have been added
  have hfold : ∀ (l : List (Identifier × IdentifierKind)) (start : IdentifierPlan),
      start.planned.addedAll (l.map fun e => (m.apply e.1, e.2)) = .ok planned →
      (∃ plan, l.foldlM (fun plan e => plan.step c source o p (m.apply e.1) e.2) start =
          .ok plan) ∨
        ∃ e ∈ l, (c.content.clbits.register? (m.apply e.1).name).isSome ∧
          l.foldlM (fun plan e => plan.step c source o p (m.apply e.1) e.2) start =
            .error (.identifierShadowing (m.apply e.1).name) := by
    intro l
    induction l with
    | nil => exact fun start _ => .inl ⟨start, rfl⟩
    | cons e rest ih =>
      intro start hall
      obtain ⟨next, hnext, hall⟩ := Checking.bind_eq_ok_iff.1 hall
      by_cases hname : (c.content.clbits.register? (m.apply e.1).name).isSome
      · have hstep : start.step c source o p (m.apply e.1) e.2 =
            .error (.identifierShadowing (m.apply e.1).name) := by
          rw [step_eq hclosed hinline hbring, if_pos hname]
        exact .inr ⟨e, List.mem_cons_self, hname, Checking.bind_eq_error_iff.2 (.inl hstep)⟩
      · let plan : IdentifierPlan := { start with
          planned := next, additions := start.additions ++ [(m.apply e.1, e.2)] }
        have hstep : start.step c source o p (m.apply e.1) e.2 = .ok plan := by
          rw [step_eq hclosed hinline hbring, if_neg hname]
          exact Checking.bind_eq_ok_iff.2 ⟨next, hnext, rfl⟩
        rcases ih plan hall with ⟨plan, hplan⟩ | ⟨e', he', hname', hrefused⟩
        · exact .inl ⟨plan, Checking.bind_eq_ok_iff.2 ⟨_, hstep, hplan⟩⟩
        · exact .inr ⟨e', List.mem_cons_of_mem e he', hname',
            Checking.bind_eq_error_iff.2 (.inr ⟨_, hstep, hrefused⟩)⟩
  exact hfold _ ⟨c.content.identifiers, [], [], []⟩ hall

end

end IdentifierPlan

/-! ## The whole composition -/

namespace Circuit

section Answers

variable {A : Policy} {c d source : Circuit} {o : ComposeOptions} {p : Placement} {s : Splice}
  {images : Renaming} {u : Content} {I : RegisterChoice → Prop} {qubits clbits : List Nat}

/-- What holds when the records have been moved holds of the aliases. -/
theorem Outcome.aliases_of_answers (h : Outcome c source o d p s images u)
    (hrecords : Edit.Answers I ((c.spliceMap source p images).records p source.content.records))
    (hstart : ∀ taken, I ⟨[], [], .ofStem BitKind.classical.letter, taken⟩) :
    ∃ choice, I choice ∧ choice.aliases = s.aliases := by
  obtain ⟨-, images', choice, himages, -, hrun, haliases⟩ := splice_worked h.splice
  obtain rfl : images = images' := Except.ok.inj (h.settled.resolved.symm.trans himages)
  obtain ⟨records, choice', hrun', hI⟩ := hrecords _ (hstart _)
  rw [hrun] at hrun'
  cases hrun'
  exact ⟨choice, hI, haliases.symm⟩

variable (hc : c.Ready A) (hsource : source.Reachable A) (hown : source.NamesOwn)
include hc hsource hown

theorem splice_cases (hplace : c.place source (.onto qubits clbits) = .ok p)
    (hgo : Admissible (c.content.identifiers.toList ++ source.content.identifiers.toList)) :
    (∃ s, c.splice source (.onto qubits clbits) p = .ok s) ∨
      ∃ e ∈ source.content.identifiers.toList, (c.content.clbits.register? e.1.name).isSome ∧
        c.splice source (.onto qubits clbits) p = .error (.identifierShadowing e.1.name) := by
  have hp := place_eq_ok hc.closed hplace
  have hbring : p.bringClbits = false := hp.brings
  obtain ⟨images, himages, hsame⟩ : ∃ images : Renaming, IdentifierRemap.empty.images 0
      (source.content.identifiers.toList.map (·.1)) = .ok images ∧ images.changesAny = false :=
    ⟨_, IdentifierRemap.images_empty 0 _, Renaming.changesAny_same _⟩
  have happly : images.apply = id := funext (LeafMap.apply_of_not_changesAny hsame)
  have haccounted := (hc.reachable.built.everywhere_any Content.accounted_invariant).here
  have hplanned := (haccounted.addedAll_ok hgo).1
  rcases IdentifierPlan.make_cases (o := .onto qubits clbits) (m := images) hc.closed rfl hbring
      (by simpa [happly] using hplanned) with ⟨plan, hplan⟩ | ⟨e, he, hname, hrefused⟩
  · left
    obtain ⟨records, choice, hrecords, -⟩ := hown.records_answer images hp hplace
      hc.reachable.built.orderly hsource.built.orderly hsame
      ⟨[], [], .ofStem BitKind.classical.letter,
        (p.host c source).content.clbits.registers.map (·.name) ++ plan.planned.names⟩
      ⟨rfl, fun _ ha => absurd ha List.not_mem_nil⟩
    exact ⟨_, splice_of_worked himages hplan hrecords⟩
  · rw [happly] at hname hrefused
    exact .inr ⟨e, he, hname, Checking.bind_eq_error_iff.2 (.inr ⟨images, himages,
      Checking.bind_eq_error_iff.2 (.inl hrefused)⟩)⟩

/-- On given targets a source that names its own, with parameters and identifiers that go together
with those that are there, is spliced in; or an identifier of it has the name of a classical
register, and it is refused for that. -/
theorem compose_onto_cases (hqubits : GoodTargets source.numQubits c.numQubits qubits)
    (hclbits : GoodTargets source.numClbits c.numClbits clbits)
    (hcheck : c.content.table.check source.parameters = .ok ())
    (hgo : Admissible (c.content.identifiers.toList ++ source.content.identifiers.toList)) :
    (∃ d, compose source (.onto qubits clbits) c = .ok () d) ∨
      ∃ i, source.content.identifiers.contains i ∧
        (∃ r ∈ c.content.clbits.registers, r.name = i.name) ∧
        compose source (.onto qubits clbits) c = .error (.identifierShadowing i.name) c := by
  have hplace := place_at hc.closed hqubits hclbits hcheck
  have hlisted := hsource.listed
  rcases splice_cases hc hsource hown hplace hgo with ⟨s, hsplice⟩ | ⟨e, he, hname, hrefused⟩
  · exact .inl (compose_answers hc hsource Bool.false_ne_true hplace hsplice rfl)
  · refine .inr ⟨e.1, hlisted.contains_iff.2 (List.mem_map_of_mem he), ?_, ?_⟩
    · obtain ⟨r, hr⟩ := Option.isSome_iff_exists.1 hname
      exact ⟨r, List.mem_of_find?_eq_some hr, by simpa using List.find?_some hr⟩
    · rw [compose_apply_of_place hplace]
      exact Edit.bind_eq_error_iff.2 (.inl (Edit.ofExcept_eq_error_iff.2 ⟨hrefused, rfl⟩))

omit hc in
/-- Aliases are called `c0`, `c1` and so on. -/
theorem Outcome.alias_named (hout : Outcome c source o d p s images u)
    (hc : c.content.Orderly) (hsame : images.changesAny = false) :
    ∀ a ∈ s.aliases, ∃ n : Nat, a.name = "c" ++ toString n := by
  obtain ⟨choice, hnamed, haliases⟩ := hout.aliases_of_answers
    (hown.records_answer images hout.placed hout.place hc hsource.built.orderly hsame)
    fun _ => ⟨rfl, fun _ ha => absurd ha List.not_mem_nil⟩
  exact haliases ▸ hnamed.names

omit hc in
/-- Where every register of the source has one over the clbits that its own go to, there are no
aliases. -/
theorem Outcome.aliases_eq_nil_of_there (hout : Outcome c source o d p s images u)
    (hc : c.content.Orderly) (hsame : images.changesAny = false)
    (hthere : ∀ r bits, source.content.clbits.hasRegister r →
      r.bits.mapM (c.spliceMap source p images).clbit = .ok bits →
      ∃ q ∈ (p.host c source).content.clbits.registers, q.bits = bits) : s.aliases = [] := by
  have hleaf := fun i hi => hown.leaf_answers images hout.placed hout.place hc
    hsource.built.orderly (i := i) hi fun r bits hr hall _ =>
      LeafMap.register_answers_there hall (hthere r bits hr hall)
  obtain ⟨choice, hnone, haliases⟩ := hout.aliases_of_answers
    (LeafMap.records_answer (m := c.spliceMap source p images) hsame p hleaf) fun _ => rfl
  exact haliases.symm.trans hnone

end Answers

/-! ## What has come in -/

section Came

variable {c d source : Circuit} {o : ComposeOptions} {p : Placement} {s : Splice}
  {images : Renaming} {u : Content}

section Additions

variable (hout : Outcome c source o d p s images u) (hclosed : c.blocks = [])
  (hinline : o.inlineCaptures = false) (hsame : images.changesAny = false)
include hout hclosed hinline hsame

/-- If none is inlined or renamed, the identifiers of the source have come in as they are. -/
theorem Outcome.additions_eq : s.identifiers.additions = source.content.identifiers.toList := by
  rw [IdentifierPlan.additions_of_make hclosed hout.settled.plan]
  simp [ComposeOptions.inlines, hinline, LeafMap.apply_of_not_changesAny hsame]

theorem Outcome.toList_identifiers : d.content.identifiers.toList =
    c.content.identifiers.toList ++ source.content.identifiers.toList := by
  obtain ⟨m, hplan⟩ := hout.sound.plan
  rw [hout.frame.2.2.1, hout.made.identifiers, IdentifierTable.toList_addedAll hplan.planned,
    hout.additions_eq hclosed hinline hsame]

/-- So none of them had the name of a classical register. -/
theorem Outcome.names_apart (hlisted : source.content.identifiers.Listed) {i : Identifier}
    (hi : source.content.identifiers.contains i) :
    ∀ r ∈ c.content.clbits.registers, r.name ≠ i.name := by
  obtain ⟨m, hplan⟩ := hout.sound.plan
  obtain ⟨e, he, rfl⟩ := List.mem_map.1 (hlisted.contains_iff.1 hi)
  have hfree := (hplan.free e (hout.additions_eq hclosed hinline hsame ▸ he)).1
  intro r hr hname
  exact BitList.register?_eq_none_iff.1 hfree (hname ▸ List.mem_map_of_mem hr)

end Additions

end Came

end Circuit

end QuantumCircuit
