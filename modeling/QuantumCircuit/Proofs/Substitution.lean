import QuantumCircuit.Proofs.Occurrence

/-!
# What occurs after an assignment

`Content.OccursAfter s p c site` reads off the circuit before the assignment whether
`p` occurs at the site afterwards: through every body, with the binding that reaches
it, and not past a loop that binds `p`. The records that an assignment passes over
hold no key (`Operation.freeAfter_iff_freeAt`), so this is what the assignment leaves
(`Content.Everywhere.occursAt_assign_iff`).
-/

namespace QuantumCircuit

namespace ParamExpr

variable {R : Type} {p : Parameter} {s : Binding R} {e : ParamExpr R}

/-- What stands for `q` under the replacements. -/
def image (s : Binding R) (q : Parameter) : ParamExpr R := (Assoc.find? q s).getD (.sym q)

theorem mem_symbols_replace_iff :
    p ∈ (e.replace s).symbols ↔ ∃ q ∈ e.symbols, p ∈ (image s q).symbols := by
  induction e with
  | const x | pi => simp [replace, symbols]
  | sym q => simp [replace, symbols, image]
  | neg a ih => simpa [replace, symbols] using ih
  | add a b iha ihb | sub a b iha ihb | mul a b iha ihb | div a b iha ihb =>
    simp only [replace, symbols, List.mem_append, iha, ihb]
    constructor
    · rintro (⟨q, hq, hp⟩ | ⟨q, hq, hp⟩)
      · exact ⟨q, .inl hq, hp⟩
      · exact ⟨q, .inr hq, hp⟩
    · rintro ⟨q, hq | hq, hp⟩
      · exact .inl ⟨q, hq, hp⟩
      · exact .inr ⟨q, hq, hp⟩

section Arithmetic

variable [Arithmetic R]

theorem symbols_eq_nil_of_eval {x : R} (h : e.eval = some x) : e.symbols = [] := by
  induction e generalizing x with
  | const y | pi => rfl
  | sym q => simp [eval] at h
  | neg a ih =>
    obtain ⟨y, hy, -⟩ := Option.map_eq_some_iff.1 h
    exact ih hy
  | add a b iha ihb | sub a b iha ihb | mul a b iha ihb =>
    obtain ⟨y, hy, h⟩ := Option.bind_eq_some_iff.1 h
    obtain ⟨z, hz, -⟩ := Option.bind_eq_some_iff.1 h
    rw [symbols, iha hy, ihb hz]
    rfl
  | div a b iha ihb =>
    obtain ⟨z, hz, h⟩ := Option.bind_eq_some_iff.1 h
    split at h
    · cases h
    · obtain ⟨y, hy, -⟩ := Option.bind_eq_some_iff.1 h
      rw [symbols, iha hy, ihb hz]
      rfl

section Folding

variable {a b : ParamExpr R}

theorem symbols_simplifiedAdd : (simplifiedAdd a b).symbols = a.symbols ++ b.symbols := by
  unfold simplifiedAdd
  split
  · rename_i ha hb
    rw [symbols_eq_nil_of_eval ha, symbols_eq_nil_of_eval hb]
    rfl
  · rename_i ha hb
    rw [symbols_eq_nil_of_eval ha]
    split
    · rfl
    · rw [symbols, symbols_eq_nil_of_eval ha]
  · rename_i ha hb
    rw [symbols_eq_nil_of_eval hb]
    split
    · rw [List.append_nil]
    · rw [symbols, symbols_eq_nil_of_eval hb]
  · rfl

theorem symbols_simplifiedSub : (simplifiedSub a b).symbols = a.symbols ++ b.symbols := by
  unfold simplifiedSub
  split
  · rename_i ha hb
    rw [symbols_eq_nil_of_eval ha, symbols_eq_nil_of_eval hb]
    rfl
  · rename_i ha hb
    rw [symbols_eq_nil_of_eval hb]
    split
    · rw [List.append_nil]
    · rw [symbols, symbols_eq_nil_of_eval hb]
  · rfl

theorem symbols_simplifiedMul : (simplifiedMul a b).symbols = a.symbols ++ b.symbols := by
  unfold simplifiedMul
  split
  · rename_i ha hb
    rw [symbols_eq_nil_of_eval ha, symbols_eq_nil_of_eval hb]
    rfl
  · rfl

theorem symbols_simplifiedDiv : (simplifiedDiv a b).symbols = a.symbols ++ b.symbols := by
  unfold simplifiedDiv
  split
  · rename_i ha hb
    split
    · rfl
    · rw [symbols_eq_nil_of_eval ha, symbols_eq_nil_of_eval hb]
      rfl
  · rfl

end Folding

theorem simplify_of_eval {x : R} (h : e.eval = some x) : e.simplify = const x := by
  unfold simplify
  rw [h]

section Nodes

variable {a b : ParamExpr R}

theorem simplify_neg (h : (neg a).eval = none) (ha : a.simplify.eval = none) :
    (neg a).simplify = neg a.simplify := by
  rw [simplify, h]
  simp only [ha]

theorem simplify_add (h : (add a b).eval = none) :
    (add a b).simplify = simplifiedAdd a.simplify b.simplify := by
  rw [simplify, h]

theorem simplify_sub (h : (sub a b).eval = none) :
    (sub a b).simplify = simplifiedSub a.simplify b.simplify := by
  rw [simplify, h]

theorem simplify_mul (h : (mul a b).eval = none) :
    (mul a b).simplify = simplifiedMul a.simplify b.simplify := by
  rw [simplify, h]

theorem simplify_div (h : (div a b).eval = none) :
    (div a b).simplify = simplifiedDiv a.simplify b.simplify := by
  rw [simplify, h]

end Nodes

/-- What has a value is folded to it and has no parameters, so only the rest is to be looked at. -/
theorem symbols_simplify_of (h : e.eval = none → e.simplify.symbols = e.symbols) :
    e.simplify.symbols = e.symbols := by
  cases hvalue : e.eval with
  | none => exact h hvalue
  | some x =>
    rw [simplify_of_eval hvalue, symbols_eq_nil_of_eval hvalue]
    rfl

/-- Simplifying keeps the parameters, in order and as often as they occur. -/
theorem symbols_simplify (e : ParamExpr R) : e.simplify.symbols = e.symbols := by
  induction e with
  | const x | sym q | pi => rfl
  | neg a ih =>
    refine symbols_simplify_of fun h => ?_
    cases ha : a.simplify.eval with
    | none =>
      rw [simplify_neg h ha]
      exact ih
    | some x =>
      rw [simplify, h]
      simp only [ha]
      exact (symbols_eq_nil_of_eval ha).symm.trans ih
  | add a b iha ihb =>
    refine symbols_simplify_of fun h => ?_
    rw [simplify_add h, symbols_simplifiedAdd, iha, ihb, symbols]
  | sub a b iha ihb =>
    refine symbols_simplify_of fun h => ?_
    rw [simplify_sub h, symbols_simplifiedSub, iha, ihb, symbols]
  | mul a b iha ihb =>
    refine symbols_simplify_of fun h => ?_
    rw [simplify_mul h, symbols_simplifiedMul, iha, ihb, symbols]
  | div a b iha ihb =>
    refine symbols_simplify_of fun h => ?_
    rw [simplify_div h, symbols_simplifiedDiv, iha, ihb, symbols]

/-- Substitution leaves the parameters of the images, folding or not. -/
theorem mem_symbols_subst_iff :
    p ∈ (e.subst s).symbols ↔ ∃ q ∈ e.symbols, p ∈ (image s q).symbols := by
  rw [← mem_symbols_replace_iff]
  unfold subst
  simp only
  split
  · rfl
  · rw [symbols_simplify]

end Arithmetic

theorem symbols_normalizedPhase (e : Angle) : e.normalizedPhase.symbols = e.symbols := by
  unfold normalizedPhase
  split
  · rename_i x hx
    rw [symbols_eq_nil_of_eval hx]
    rfl
  · rfl

end ParamExpr

/-! ## Occurrences after an assignment -/

mutual

/-- That `p` is free in the operation, at the slot, once the binding is put in. -/
inductive Operation.FreeAfter (p : Parameter) : Binding Float → Operation → Nat → Prop
  | param {s : Binding Float} {op : Operation} {slot : Nat} {e : Angle} {q : Parameter} :
      op.params[slot]? = some e → q ∈ e.symbols → p ∈ (ParamExpr.image s q).symbols →
      Operation.FreeAfter p s op slot
  | body {s : Binding Float} {flow : ControlFlow} {slot : Nat} {b : Circuit} :
      flow.bodies[slot]? = some b → flow.loopParameter? ≠ some p →
      Content.FreeAfter p (flow.innerBinding s) b.content →
      Operation.FreeAfter p s (.control flow) slot

/-- That `p` is free in the content once the binding is put in. -/
inductive Content.FreeAfter (p : Parameter) : Binding Float → Content → Prop
  | phase {s : Binding Float} {c : Content} {q : Parameter} :
      q ∈ c.phase.symbols → p ∈ (ParamExpr.image s q).symbols → Content.FreeAfter p s c
  | record {s : Binding Float} {c : Content} {k slot : Nat} {i : Instruction} :
      c.records[k]? = some i → Operation.FreeAfter p s i.operation slot → Content.FreeAfter p s c

end

/-- That `p` occurs at the site once the binding is put in. -/
def Content.OccursAfter (s : Binding Float) (p : Parameter) (c : Content) : ParameterUse → Prop
  | .phase => ∃ q ∈ c.phase.symbols, p ∈ (ParamExpr.image s q).symbols
  | .record k slot => ∃ i, c.records[k]? = some i ∧ i.operation.FreeAfter p s slot

section Inversion

variable {s : Binding Float} {p : Parameter} {op op' : Operation} {slot : Nat}

theorem Operation.freeAt_iff :
    op.FreeAt p slot ↔ (∃ e, op.params[slot]? = some e ∧ p ∈ e.symbols) ∨
      ∃ flow b, op = .control flow ∧ flow.bodies[slot]? = some b ∧
        flow.loopParameter? ≠ some p ∧ Content.Free p b.content := by
  constructor
  · intro h
    cases h with
    | param he hp => exact .inl ⟨_, he, hp⟩
    | body hb hne hp => exact .inr ⟨_, _, rfl, hb, hne, hp⟩
  · rintro (⟨e, he, hp⟩ | ⟨flow, b, rfl, hb, hne, hp⟩)
    · exact .param he hp
    · exact .body hb hne hp

theorem Operation.freeAfter_iff :
    op.FreeAfter p s slot ↔
      (∃ e, op.params[slot]? = some e ∧ ∃ q ∈ e.symbols, p ∈ (ParamExpr.image s q).symbols) ∨
      ∃ flow b, op = .control flow ∧ flow.bodies[slot]? = some b ∧
        flow.loopParameter? ≠ some p ∧ Content.FreeAfter p (flow.innerBinding s) b.content := by
  constructor
  · intro h
    cases h with
    | param he hq hp => exact .inl ⟨_, he, _, hq, hp⟩
    | body hb hne hp => exact .inr ⟨_, _, rfl, hb, hne, hp⟩
  · rintro (⟨e, he, q, hq, hp⟩ | ⟨flow, b, rfl, hb, hne, hp⟩)
    · exact .param he hq hp
    · exact .body hb hne hp

theorem Operation.params_assign (h : op.assign s = .ok op') :
    op'.params = op.params.map (·.subst s) := by
  cases op with
  | gate g =>
    cases h
    cases g <;> rfl
  | custom o =>
    obtain ⟨o', ho, h⟩ := Checking.bind_eq_ok_iff.1 h
    cases h
    obtain ⟨definition, -, rfl⟩ := CustomOp.assign_eq_ok ho
    rfl
  | control flow =>
    obtain ⟨flow', -, h⟩ := Checking.bind_eq_ok_iff.1 h
    cases h
    rfl
  | measure | reset | barrier w | delay d | store a =>
    cases h
    rfl

/-- What an assignment leaves free in an operation, given what it leaves free in the
circuits inside. -/
theorem Operation.freeAt_assign_iff (h : op.assign s = .ok op')
    (inner : ∀ b ∈ op.innerBindings s, ∀ b', Assigned b b' →
      (Content.Free p b'.content ↔ Content.FreeAfter p b.2 b.1.content)) :
    op'.FreeAt p slot ↔ op.FreeAfter p s slot := by
  rw [freeAt_iff, freeAfter_iff]
  refine or_congr ?_ ?_
  · -- an expression at the slot is substituted into, a body at the slot is assigned to
    rw [params_assign h, List.getElem?_map]
    cases op.params[slot]? with
    | none => simp
    | some e => simp [ParamExpr.mem_symbols_subst_iff]
  · cases op with
    | control flow =>
      obtain ⟨flow', hflow, h⟩ := Checking.bind_eq_ok_iff.1 h
      cases h
      obtain ⟨hbodies, hloop, -⟩ := ControlFlow.assign_eq_ok hflow
      have hlength := hbodies.length_eq
      rw [List.length_map] at hlength
      simp only [control.injEq, exists_and_left, exists_eq_left', hloop]
      cases hb : flow.bodies[slot]? with
      | none =>
        have hb' : flow'.bodies[slot]? = none := by
          rw [List.getElem?_eq_none_iff, ← hlength]
          exact List.getElem?_eq_none_iff.1 hb
        simp [hb']
      | some b =>
        obtain ⟨hlt, rfl⟩ := List.getElem?_eq_some_iff.1 hb
        have hlt' : slot < flow'.bodies.length := hlength ▸ hlt
        have hassigned : Assigned (flow.bodies[slot], flow.innerBinding s) flow'.bodies[slot] := by
          simpa using hbodies.get (i := slot) (by simpa using hlt) hlt'
        have hinner := inner _ (List.mem_map_of_mem (List.getElem_mem hlt)) _ hassigned
        simp [List.getElem?_eq_getElem hlt', hinner]
    -- what defines a custom operation counts for nothing here
    | custom o =>
      obtain ⟨o', -, h⟩ := Checking.bind_eq_ok_iff.1 h
      cases h
      simp
    | gate g | measure | reset | barrier w | delay d | store a =>
      cases h
      simp

end Inversion

namespace Content

variable {c d : Content} {s : Binding Float} {p : Parameter}

theorem freeAfter_iff_occursAfter :
    FreeAfter p s c ↔ ∃ site, c.OccursAfter s p site := by
  constructor
  · rintro (⟨hq, hp⟩ | ⟨hk, h⟩)
    · exact ⟨.phase, _, hq, hp⟩
    · exact ⟨.record _ _, _, hk, h⟩
  · rintro ⟨site, h⟩
    cases site with
    | phase =>
      obtain ⟨q, hq, hp⟩ := h
      exact .phase hq hp
    | record k slot =>
      obtain ⟨i, hk, h⟩ := h
      exact .record hk h

theorem image_of_not_key {R : Type} {s : Binding R} {q : Parameter} (hq : q ∉ Assoc.keys s) :
    ParamExpr.image s q = .sym q := by
  rw [ParamExpr.image, (Assoc.find?_eq_none_iff q s).2 hq]
  rfl

/-- What is no key stands for itself, and a key for its replacement. -/
theorem mem_symbols_image_iff {R : Type} {s : Binding R} {p q : Parameter} :
    p ∈ (ParamExpr.image s q).symbols ↔
      p = q ∧ q ∉ Assoc.keys s ∨ ∃ r, Assoc.find? q s = some r ∧ p ∈ r.symbols := by
  rw [← Assoc.find?_eq_none_iff, ParamExpr.image]
  cases Assoc.find? q s <;> simp [ParamExpr.symbols]

/-- Where no key occurs, the same parameters do. -/
theorem exists_image_iff {qs : List Parameter} (h : ∀ q ∈ Assoc.keys s, q ∉ qs) :
    (∃ q ∈ qs, p ∈ (ParamExpr.image s q).symbols) ↔ p ∈ qs := by
  constructor
  · rintro ⟨q, hq, hp⟩
    rw [image_of_not_key fun hkey => h q hkey hq] at hp
    exact List.mem_singleton.1 hp ▸ hq
  · intro hp
    exact ⟨p, hp, mem_symbols_image_iff.2 (.inl ⟨rfl, fun hkey => h p hkey hp⟩)⟩

theorem mem_keys_innerBinding {flow : ControlFlow} {q : Parameter}
    (h : q ∈ Assoc.keys (flow.innerBinding s)) :
    q ∈ Assoc.keys s ∧ flow.loopParameter? ≠ some q := by
  unfold ControlFlow.innerBinding at h
  cases hloop : flow.loopParameter? with
  | none =>
    rw [hloop] at h
    exact ⟨h, by simp⟩
  | some r =>
    rw [hloop] at h
    simp only [Assoc.keys_erase, List.mem_filter, decide_eq_true_eq] at h
    exact ⟨h.1, fun heq => h.2 (Option.some.inj heq).symm⟩

/-- A binding without a key at the site changes nothing there. -/
theorem Everywhere.occursAfter_iff {P : Content → Prop} (h : Everywhere P c) :
    ∀ site, (∀ q ∈ Assoc.keys s, ¬ c.OccursAt q site) →
      (c.OccursAfter s p site ↔ c.OccursAt p site) := by
  -- on the nesting: the binding that goes into a body is another one
  induction h generalizing s with
  | @intro c hc hin ih =>
    intro site hkeys
    cases site with
    | phase => exact exists_image_iff hkeys
    | record k slot =>
      refine exists_congr fun i => and_congr_right fun hk => ?_
      have hfree : ∀ q ∈ Assoc.keys s, ¬ i.operation.FreeAt q slot := fun q hq hfree =>
        hkeys q hq ⟨i, hk, hfree⟩
      simp only [Operation.freeAt_iff, not_or, not_exists, not_and] at hfree
      rw [Operation.freeAfter_iff, Operation.freeAt_iff]
      refine or_congr ?_ ?_
      · exact exists_congr fun e => and_congr_right fun he =>
          exists_image_iff fun q hq => (hfree q hq).1 e he
      · refine exists_congr fun flow => exists_congr fun b => and_congr_right fun hflow =>
          and_congr_right fun hb => and_congr_right fun _ => ?_
        have hmem : b ∈ c.circuits := mem_circuits_of_body hk hflow hb
        rw [freeAfter_iff_occursAfter, free_iff_occursAt]
        refine exists_congr fun site => ih b hmem site fun q hq hoccurs => ?_
        -- a key that goes into the body is not bound by the loop, so it would be free around it
        obtain ⟨hkey, hne⟩ := mem_keys_innerBinding hq
        exact (hfree q hkey).2 flow b hflow hb hne (free_iff_occursAt.2 ⟨site, hoccurs⟩)

/-! ## Reaching all occurrences through the index -/

theorem mem_sites_of_keys_iff {site : ParameterUse} :
    site ∈ (Assoc.keys s).flatMap (fun p => (c.table.uses? p).getD []) ↔
      ∃ q ∈ Assoc.keys s, c.table.Notes site q := by
  rw [List.mem_flatMap]
  exact exists_congr fun q => and_congr_right fun _ => mem_sites_iff

/-- An assignment changes the records at which the index notes a key. -/
theorem mem_affectedBy_iff {k : Nat} :
    k ∈ c.affectedBy s ↔ ∃ q ∈ Assoc.keys s, ∃ slot, c.table.Notes (.record k slot) q := by
  unfold affectedBy ParameterTable.affected
  simp only
  rw [(Sorting.perm_sort _ _).mem_iff, Distinct.ofList, Distinct.mem_union, List.mem_filterMap]
  simp only [List.not_mem_nil, false_or, mem_sites_of_keys_iff]
  constructor
  · rintro ⟨site, ⟨q, hq, hnotes⟩, hindex⟩
    cases site with
    | phase => cases hindex
    | record m slot =>
      cases hindex
      exact ⟨q, hq, slot, hnotes⟩
  · rintro ⟨q, hq, slot, hnotes⟩
    exact ⟨.record k slot, ⟨q, hq, hnotes⟩, rfl⟩

/-- An assignment changes the phase if the index notes a key there. -/
theorem affected_phase_iff :
    (c.table.affected (Assoc.keys s)).2 = true ↔ ∃ q ∈ Assoc.keys s, c.table.Notes .phase q := by
  unfold ParameterTable.affected
  rw [List.contains_iff_mem, mem_sites_of_keys_iff]

/-- After an assignment just those parameters occur that the binding puts there. -/
theorem Everywhere.occursAt_assign_iff (h : Everywhere Indexed c) (hd : c.assign s = .ok d) :
    ∀ site, d.OccursAt p site ↔ c.OccursAfter s p site := by
  -- on the nesting: what happens to bodies is known when it comes to the records
  induction h generalizing s d with
  | @intro c hc hin ih =>
    have hall : Everywhere Indexed c := .intro hc hin
    intro site
    obtain ⟨-, assigned, hassigned, rfl⟩ := assign_eq_ok_iff.1 hd
    cases site with
    | phase =>
      by_cases hphase : (c.table.affected (Assoc.keys s)).2 = true
      · simp only [OccursAt, reassigned, hphase, if_true, ParamExpr.symbols_normalizedPhase]
        exact ParamExpr.mem_symbols_subst_iff
      · have hnone : ∀ q ∈ Assoc.keys s, ¬ c.OccursAt q .phase := fun q hq hoccurs =>
          hphase (affected_phase_iff.2 ⟨q, hq, hall.notes_iff_occursAt.2 hoccurs⟩)
        rw [hall.occursAfter_iff .phase hnone]
        simp [OccursAt, reassigned, hphase]
    | record k slot =>
      obtain ⟨hlen, hat⟩ := Instruction.assignList_eq_ok hassigned
      simp only [OccursAt, OccursAfter, reassigned_records]
      cases hi : c.records[k]? with
      | none =>
        have hi' : assigned[k]? = none := by
          rw [List.getElem?_eq_none_iff, hlen]
          exact List.getElem?_eq_none_iff.1 hi
        simp [hi']
      | some i =>
        have hlt : k < assigned.length := hlen ▸ (List.getElem?_eq_some_iff.1 hi).1
        have hi' := List.getElem?_eq_getElem hlt
        rw [hi']
        simp only [Option.some.injEq, exists_eq_left']
        obtain ⟨op, heq, ⟨-, hop⟩ | ⟨hk, rfl⟩⟩ := hat k i _ hi hi'
        · rw [heq]
          refine Operation.freeAt_assign_iff hop fun b hb b' hassign => ?_
          have hmem : b.1 ∈ c.circuits := mem_circuits_iff.2
            ⟨i, List.mem_of_getElem? hi, Operation.mem_circuits_of_innerBindings hb⟩
          rw [free_iff_occursAt, freeAfter_iff_occursAfter]
          exact exists_congr (ih b.1 hmem (Circuit.assign_eq_ok_iff.1 hassign).1)
        · -- Passed over, so no key occurs here.
          have hnone : ∀ q ∈ Assoc.keys s, ¬ c.OccursAt q (.record k slot) := by
            intro q hq hoccurs
            refine hk ?_
            rw [Nat.zero_add, mem_affectedBy_iff]
            exact ⟨q, hq, slot, hall.notes_iff_occursAt.2 hoccurs⟩
          have hsame := hall.occursAfter_iff (p := p) (.record k slot) hnone
          simp only [OccursAt, OccursAfter, hi, Option.some.injEq, exists_eq_left'] at hsame
          rw [heq, hsame]

end Content

end QuantumCircuit
