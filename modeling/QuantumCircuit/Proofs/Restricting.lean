import QuantumCircuit.Proofs.Agreeing

/-!
# Replacements that are put nowhere

A binding may have keys that the content does not read. `s.filter` keeps the pairs of
`known` keys, and where these are all that is read the two bindings agree: what one
answers the other answers.

They are not refused alike. Whatever circuit an assignment comes to, the names in all
replacements are checked there against the names in use, so the restricted binding answers
more: it escapes the clashes of the replacements left out, and no other
(`Circuit.Reachable.assign_restricted`).
-/

namespace QuantumCircuit

namespace Content

variable {c d e : Content} {s t : Binding Float} {known : Parameter → Bool}

/-- That somewhere on the way of an assignment the replacement clashes with a name. -/
def Clash (c : Content) (s : Binding Float) (u : Parameter × Angle) : Prop :=
  ∃ e t, c.Assigns s e t ∧ e.table.Clashes t u

/-- An assignment answers if nothing clashes on its way, and only then. -/
theorem Everywhere.assign_answers_iff (h : Everywhere Indexed c) :
    (∃ d, c.assign s = .ok d) ↔ ∀ u, ¬ c.Clash s u := by
  constructor
  · rintro ⟨d, hd⟩ u ⟨e, t, hassigns, hclash⟩
    exact ParameterTable.checkIncoming_eq_ok_iff.1 (hassigns.checked hd) u hclash
  · intro hnone
    cases hresult : c.assign s with
    | ok d => exact ⟨d, rfl⟩
    | error cause =>
      obtain ⟨e, t, hassigns, hrefused⟩ := h.assign_eq_error hresult
      have hpasses : e.table.checkIncoming t = .ok () :=
        ParameterTable.checkIncoming_eq_ok_iff.2 fun u hu => hnone u ⟨e, t, hassigns, hu⟩
      rw [hpasses] at hrefused
      cases hrefused

/-- What is left of a binding agrees with it if all that is read is left. -/
theorem agree_filter (h : ∀ p, c.Reads p → known p = true) :
    c.Agree s (s.filter fun u => known u.1) where
  find p hp := by
    rw [Assoc.find?_filter, if_pos (h p hp)]
  brings u hu _ := (List.mem_filter.1 hu).1

theorem innerBinding_filter (op : Operation) :
    op.innerBinding (s.filter fun u => known u.1) =
      (op.innerBinding s).filter fun u => known u.1 := by
  rw [op.innerBinding_eq, op.innerBinding_eq]
  cases op.loopParameter? with
  | none => rfl
  | some p => simp only [Assoc.erase_eq_filter, List.filter_filter, Bool.and_comm]

/-- A restricted binding is restricted wherever an assignment takes it, and agrees there. -/
theorem Assigns.restricted (h : c.Assigns s e t) (hc : Everywhere Indexed c)
    (hagree : c.Agree s (s.filter fun u => known u.1)) :
    c.Assigns (s.filter fun u => known u.1) e (t.filter fun u => known u.1) ∧
      e.Agree t (t.filter fun u => known u.1) := by
  induction h with
  | here c s => exact ⟨.here _ _, hagree⟩
  | @inside c s k i b t e u hk hi hb _ ih =>
    have hmem : i ∈ c.records := List.mem_of_getElem? hi
    rw [Operation.innerBindings_eq] at hb
    obtain ⟨d, hd, heq⟩ := List.mem_map.1 hb
    cases heq
    have hinner := (hagree.operation hmem).inside hd
    rw [innerBinding_filter] at hinner
    obtain ⟨hassigns, hlast⟩ := ih (hc.record hmem hd) hinner
    refine ⟨.inside (by rwa [hagree.affectedBy_eq hc]) hi ?_ hassigns, hlast⟩
    rw [Operation.innerBindings_eq, innerBinding_filter]
    exact List.mem_map_of_mem hd

/-- And wherever the restricted one goes, the whole one goes. -/
theorem Assigns.unrestricted {r : Binding Float} (h : c.Assigns r e t)
    (hr : r = s.filter fun u => known u.1) (hc : Everywhere Indexed c) (hagree : c.Agree s r) :
    ∃ t', t = t'.filter (fun u => known u.1) ∧ c.Assigns s e t' := by
  induction h generalizing s with
  | here c r => exact ⟨s, hr, .here _ _⟩
  | @inside c r k i b t e u hk hi hb _ ih =>
    subst hr
    have hmem : i ∈ c.records := List.mem_of_getElem? hi
    rw [Operation.innerBindings_eq] at hb
    obtain ⟨d, hd, heq⟩ := List.mem_map.1 hb
    cases heq
    obtain ⟨t', ht', hassigns⟩ := ih (innerBinding_filter _) (hc.record hmem hd)
      ((hagree.operation hmem).inside hd)
    refine ⟨t', ht', .inside (by rwa [← hagree.affectedBy_eq hc]) hi ?_ hassigns⟩
    rw [Operation.innerBindings_eq]
    exact List.mem_map_of_mem hd

theorem Assigns.everywhere {P : Content → Prop} (h : c.Assigns s e t) (hc : Everywhere P c) :
    Everywhere P e := by
  induction h with
  | here c s => exact hc
  | @inside c s k i b t e u hk hi hb _ ih =>
    exact ih (hc.record (List.mem_of_getElem? hi) (Operation.mem_circuits_of_innerBindings hb))

/-- The clashes of a restricted binding are those of what is left in it. -/
theorem clash_filter_iff (hc : Everywhere Kept c) (hknown : ∀ p, c.Reads p → known p = true)
    {u : Parameter × Angle} :
    c.Clash (s.filter fun u => known u.1) u ↔ known u.1 = true ∧ c.Clash s u := by
  have hagree : c.Agree s (s.filter fun u => known u.1) := agree_filter hknown
  constructor
  · rintro ⟨e, r, hassigns, hclash⟩
    obtain ⟨t, rfl, hwhole⟩ := hassigns.unrestricted rfl hc.indexed hagree
    obtain ⟨-, hlast⟩ := hwhole.restricted hc.indexed hagree
    have hleft : known u.1 = true := (List.mem_filter.1 hclash.1).2
    exact ⟨hleft, e, t, hwhole, hlast.clashes (hwhole.everywhere hc) hclash⟩
  · rintro ⟨hleft, e, t, hassigns, hu, p, hp, q, hq, hne, hkey⟩
    obtain ⟨hrestricted, -⟩ := hassigns.restricted hc.indexed hagree
    refine ⟨e, _, hrestricted, List.mem_filter.2 ⟨hu, hleft⟩, p, hp, q, hq, hne, fun hmem => ?_⟩
    obtain ⟨v, hv, rfl⟩ := List.mem_map.1 hmem
    exact hkey (List.mem_map_of_mem (List.mem_filter.1 hv).1)

theorem assignParameters_of_not_strict (s : Binding Float) :
    assignParameters s false = Edit.update fun c => c.assign s := by
  unfold assignParameters
  congr 1
  funext c
  have hnone : ((Assoc.keys s).find? fun p => false && !c.table.contains p) = none :=
    List.find?_eq_none.2 fun p _ => by simp
  rw [hnone]

theorem assignParameters_eq_ok_iff :
    assignParameters s false c = .ok () d ↔ c.assign s = .ok d := by
  rw [assignParameters_of_not_strict, Edit.update_eq_ok_iff]

/-- A refused assignment leaves the content as it was. -/
theorem assignParameters_eq_error {cause : CircuitError} (hc : Everywhere Kept c)
    (h : assignParameters s false c = .error cause d) :
    d = c ∧ ∃ name, cause = .parameterNameConflict name := by
  rw [assignParameters_of_not_strict, Edit.update_eq_error_iff] at h
  obtain ⟨hrefused, rfl⟩ := h
  obtain ⟨e, t, -, hcheck⟩ := hc.indexed.assign_eq_error hrefused
  exact ⟨rfl, ParameterTable.checkIncoming_eq_error hcheck⟩

end Content

/-- On a reached circuit, let all that it reads be known, and leave only the replacements of known
parameters in a binding. What the whole binding answers the rest answers too. A refusal is for a
name and leaves the circuit as it was. The whole binding is refused exactly if some replacement
clashes on the way of the assignment, and the rest exactly if one of those left does. Where custom
operations name what is free in their definitions, read are just the parameters in use. -/
theorem Circuit.Reachable.assign_restricted {A : Policy} {c : Circuit} (hc : c.Reachable A)
    (s : Binding Float) (known : Parameter → Bool)
    (hknown : ∀ p, c.content.Reads p → known p = true) :
    (∀ d, Content.assignParameters s false c.content = .ok () d →
      Content.assignParameters (s.filter fun u => known u.1) false c.content = .ok () d) ∧
    (∀ t cause d, Content.assignParameters t false c.content = .error cause d →
      d = c.content ∧ ∃ name, cause = .parameterNameConflict name) ∧
    ((∃ d, Content.assignParameters s false c.content = .ok () d) ↔
      ∀ u, ¬ c.content.Clash s u) ∧
    ((∃ d, Content.assignParameters (s.filter fun u => known u.1) false c.content = .ok () d) ↔
      ∀ u, known u.1 = true → ¬ c.content.Clash s u) ∧
    (c.content.Faithful → ∀ p, c.content.Reads p ↔ p ∈ c.parameters) := by
  have hkept : Content.Everywhere Content.Kept c.content := hc.built.kept
  refine ⟨fun d hd => ?_, fun t cause d h => Content.assignParameters_eq_error hkept h, ?_, ?_, ?_⟩
  · rw [Content.assignParameters_eq_ok_iff] at hd ⊢
    exact hkept.assign_of_agree (Content.agree_filter hknown) hd
  · simp only [Content.assignParameters_eq_ok_iff]
    exact hkept.indexed.assign_answers_iff
  · simp only [Content.assignParameters_eq_ok_iff]
    rw [hkept.indexed.assign_answers_iff]
    refine forall_congr' fun u => ?_
    rw [Content.clash_filter_iff hkept hknown, not_and]
  · intro hfaithful p
    rw [show p ∈ c.parameters ↔ c.content.Free p from hkept.indexed.mem_parameters_iff]
    exact ⟨hfaithful.free_of_reads, Content.Free.reads⟩

namespace Circuit

/-- Another parameter with the name of the one that is free in the loop. -/
def otherY : Parameter := ⟨"y", ⟨0, 3⟩, none⟩

theorem loopOverX_faithful : loopOverX.content.Faithful := by
  refine .intro (fun i hi o b heq => ?_) fun body hbody => ?_
  · rw [List.mem_singleton.1 hi] at heq
    cases heq
  · rw [List.mem_singleton.1 hbody]
    refine Content.faithful_of_gates fun i hi => ?_
    rcases List.mem_cons.1 hi with rfl | hi
    · exact ⟨_, rfl⟩
    · rw [List.mem_singleton.1 hi]
      exact ⟨_, rfl⟩

theorem reads_loopOverX {p : Parameter} (h : loopOverX.content.Reads p) : p = freeY := by
  have hfree : loopOverX.content.Free p := loopOverX_faithful.free_of_reads h
  have hlisted : p ∈ loopOverX.parameters :=
    loopOverX_reachable.built.kept.indexed.mem_parameters_iff.2 hfree
  have hall : loopOverX.parameters = [freeY] := by decide +kernel
  rw [hall] at hlisted
  exact List.mem_singleton.1 hlisted

theorem refuses_otherY :
    ¬ ∃ d, Content.assignParameters [(otherZ, .sym otherY)] false loopOverX.content = .ok () d := by
  rintro ⟨d, hd⟩
  have hanswers : ∃ d, loopOverX.content.assign [(otherZ, .sym otherY)] = .ok d :=
    ⟨d, Content.assignParameters_eq_ok_iff.1 hd⟩
  rw [loopOverX_reachable.built.kept.indexed.assign_answers_iff] at hanswers
  refine hanswers (otherZ, .sym otherY) ⟨_, _, .here _ _, List.mem_singleton.2 rfl, otherY,
    List.mem_singleton.2 rfl, freeY, ?_, by decide, by decide⟩
  decide +kernel

/-- What would be put in the place of a parameter that does not occur has the name of one that
does. The assignment is refused, and without that replacement it answers: what clashes is not
known. -/
theorem assign_restricted_loop : loopOverX.Reachable .any ∧
    (∀ p, loopOverX.content.Reads p → (p == freeY) = true) ∧
    (¬ ∃ d, Content.assignParameters [(otherZ, .sym otherY)] false
      loopOverX.content = .ok () d) ∧
    (∃ d, Content.assignParameters ([(otherZ, .sym otherY)].filter fun u => u.1 == freeY) false
      loopOverX.content = .ok () d) ∧
    ∃ u, loopOverX.content.Clash [(otherZ, .sym otherY)] u ∧ (u.1 == freeY) = false := by
  have hreads : ∀ p, loopOverX.content.Reads p → (p == freeY) = true := by
    intro p hp
    rw [reads_loopOverX hp]
    rfl
  have hrest : ∃ d, Content.assignParameters
      ([(otherZ, .sym otherY)].filter fun u => u.1 == freeY) false loopOverX.content = .ok () d :=
    ⟨_, rfl⟩
  obtain ⟨-, -, hwhole, hleft, -⟩ := loopOverX_reachable.assign_restricted
    [(otherZ, .sym otherY)] (· == freeY) hreads
  refine ⟨loopOverX_reachable, hreads, refuses_otherY, hrest, ?_⟩
  have hclash := mt hwhole.2 refuses_otherY
  push Not at hclash
  obtain ⟨u, hu⟩ := hclash
  refine ⟨u, hu, ?_⟩
  rw [Bool.eq_false_iff]
  exact fun hknown => hleft.1 hrest u hknown hu

/-- So what is in a binding for a parameter that does not occur may have it refused. -/
theorem assign_not_always_restricted : ¬ ∀ (c : Circuit) (s : Binding Float), c.Reachable .any →
    c.content.Faithful →
    ((∃ d, Content.assignParameters s false c.content = .ok () d) ↔
      ∃ d, Content.assignParameters (s.filter fun u => u.1 ∈ c.parameters) false
        c.content = .ok () d) := by
  intro hclaim
  refine refuses_otherY ((hclaim loopOverX _ loopOverX_reachable loopOverX_faithful).2 ?_)
  exact ⟨_, rfl⟩

end Circuit

end QuantumCircuit
