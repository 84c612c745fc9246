import QuantumCircuit.Proofs.Merging

/-!
# Values for all parameters

`Content.FilledBy s c d` says, site by site and through every body of control flow, that `d` is
`c` with the replacements of `s` put in. A loop hands the binding on without its own parameter,
so that one stays. Every assignment that answers does this (`Content.Everywhere.filledBy`),
records it passes over included, since they hold no key.

Values in canonical order make a binding of all free parameters, so what they leave has none
(`Circuit.Reachable.assignValues_fills`).
-/

namespace QuantumCircuit

/-! ## What an assignment puts where -/

/-- That `e'` is `e` with the replacements put in. A formula without parameters need not be folded
for that. -/
def ParamExpr.PutIn (s : Binding Float) (e e' : Angle) : Prop :=
  e' = e.subst s ∨ e.symbols = [] ∧ e' = e

/-- The same record, with the replacements put in its own expressions. The circuits in it are left
open. -/
def Instruction.FilledBy (s : Binding Float) (i i' : Instruction) : Prop :=
  ∃ f circuits, i' = { i with operation := i.operation.withParts f circuits } ∧
    circuits.length = i.operation.circuits.length ∧
    ∀ e ∈ i.operation.params, ParamExpr.PutIn s e (f e)

/-- The same content, with the replacements put in its phase, in the expressions of its records and
in the bodies of its control flow. A phase that gets a value by that is brought within one turn. -/
inductive Content.FilledBy : Binding Float → Content → Content → Prop
  | intro {s : Binding Float} {c d : Content} :
      d.phase = c.phase.phaseAfter s →
      List.Forall₂ (Instruction.FilledBy s) c.records d.records →
      (∀ (k slot : Nat) (i i' : Instruction) (b b' : Circuit), c.records[k]? = some i →
        d.records[k]? = some i' → i.operation.bodies[slot]? = some b →
        i'.operation.bodies[slot]? = some b' →
        Content.FilledBy (i.operation.innerBinding s) b.content b'.content) →
      Content.FilledBy s c d

/-- An operation that has bodies holds no other circuits. -/
theorem Operation.circuits_eq_bodies {op : Operation} {b : Circuit} {slot : Nat}
    (h : op.bodies[slot]? = some b) : op.circuits = op.bodies := by
  cases op with
  | control flow => rfl
  | gate g | custom o | measure | reset | barrier w | delay d | store a => cases h

/-- What is free in a body and not bound by the loop is free in the operation. -/
theorem Operation.freeAt_of_body {op : Operation} {b : Circuit} {slot : Nat} {p : Parameter}
    (hb : op.bodies[slot]? = some b) (hne : op.loopParameter? ≠ some p) (hp : b.content.Free p) :
    op.FreeAt p slot := by
  cases op with
  | control flow => exact .body hb hne hp
  | gate g | custom o | measure | reset | barrier w | delay d | store a => cases hb

namespace Content

variable {c d : Content} {s : Binding Float}

theorem putIn_of_not_key {e : Angle} (h : ∀ q ∈ e.symbols, q ∉ Assoc.keys s) :
    ParamExpr.PutIn s e e := by
  cases hsymbolic : e.isSymbolic with
  | true =>
    have hsame : e.replace s = e := ParamExpr.replace_of_not_key h
    left
    simp only [ParamExpr.subst, hsame, hsymbolic, if_true]
  | false => exact .inr ⟨ParamExpr.isSymbolic_eq_false_iff.1 hsymbolic, rfl⟩

theorem phaseAfter_of_not_key {e : Angle} (h : ∀ q ∈ e.symbols, q ∉ Assoc.keys s) :
    e.phaseAfter s = e := by
  refine if_neg ?_
  rintro ⟨q, hkey, hq⟩
  exact h q hq hkey

/-- A record with no key among its own parameters has the replacements in already. -/
theorem filledBy_of_not_key {i : Instruction}
    (h : ∀ e ∈ i.operation.params, ∀ q ∈ e.symbols, q ∉ Assoc.keys s) : i.FilledBy s i := by
  obtain ⟨op, qubits, clbits, label⟩ := i
  refine ⟨id, op.circuits, ?_, rfl, fun e he => putIn_of_not_key (h e he)⟩
  rw [Operation.withParts_self]

/-- And so has a content in which no key is free. -/
theorem Everywhere.filledBy_self {P : Content → Prop} (h : Everywhere P c)
    (hfree : ∀ p, c.Free p → p ∉ Assoc.keys s) : c.FilledBy s c := by
  induction h generalizing s with
  | @intro c hc hin ih =>
    refine .intro ?_ (List.forall₂_same.2 fun i hi => ?_) fun k slot i i' b b' hi hi' hb hb' => ?_
    · exact (phaseAfter_of_not_key fun q hq => hfree q (.phase hq)).symm
    · obtain ⟨k, hk⟩ := List.getElem?_of_mem hi
      refine filledBy_of_not_key fun e he q hq => ?_
      obtain ⟨slot, hslot⟩ := List.getElem?_of_mem he
      exact hfree q (.record hk (.param hslot hq))
    · rw [hi] at hi'
      cases hi'
      rw [hb] at hb'
      cases hb'
      have hmem : b ∈ i.operation.circuits :=
        Operation.circuits_eq_bodies hb ▸ List.mem_of_getElem? hb
      refine ih b (mem_circuits_iff.2 ⟨i, List.mem_of_getElem? hi, hmem⟩) fun p hp hkey => ?_
      obtain ⟨hkey, hne⟩ := Operation.mem_keys_innerBinding_iff.1 hkey
      exact hfree p (.record hi (Operation.freeAt_of_body hb hne hp)) hkey

/-- An assignment puts the replacements in, whether it passes over a record or not. -/
theorem Everywhere.filledBy (h : Everywhere Indexed c) (hd : c.assign s = .ok d) :
    c.FilledBy s d := by
  induction h generalizing s d with
  | @intro c hc hin ih =>
    have hall : Everywhere Indexed c := .intro hc hin
    obtain ⟨hrecords, hphase, -⟩ := hc.of_assign hd
    have hpassed : ∀ i ∈ c.records, ¬ i.Uses s → ∀ slot p, i.operation.FreeAt p slot →
        p ∉ Assoc.keys s := by
      intro i hi hused slot p hp hkey
      exact hused ⟨(slot, p), (hall.mem_freeParameters_iff hi).2 hp, hkey⟩
    refine .intro hphase (Checking.imp_of_mem hrecords fun i hi i' _ h => ?_) ?_
    · obtain ⟨op, -, hop, rfl⟩ | ⟨hused, rfl⟩ := Instruction.assign_cases h
      · obtain ⟨circuits, hcircuits, rfl⟩ := Operation.assign_eq_ok_iff.1 hop
        exact ⟨_, circuits, rfl, hcircuits.length_eq.symm, fun e _ => .inl rfl⟩
      · refine filledBy_of_not_key fun e he q hq => ?_
        obtain ⟨slot, hslot⟩ := List.getElem?_of_mem he
        exact hpassed i' hi hused slot q (.param hslot hq)
    · intro k slot i i' b b' hi hi' hb hb'
      have hmem : i ∈ c.records := List.mem_of_getElem? hi
      have hbody : b ∈ i.operation.circuits :=
        Operation.circuits_eq_bodies hb ▸ List.mem_of_getElem? hb
      have hassign : i.assign s = .ok i' := Checking.related_at hrecords hi hi'
      obtain ⟨op, -, hop, rfl⟩ | ⟨hused, rfl⟩ := Instruction.assign_cases hassign
      · obtain ⟨circuits, hcircuits, rfl⟩ := Operation.assign_eq_ok_iff.1 hop
        rw [← Operation.circuits_eq_bodies hb'] at hb'
        rw [Operation.circuits_withParts hcircuits.length_eq.symm] at hb'
        rw [← Operation.circuits_eq_bodies hb] at hb
        have hinner : b.assign (i.operation.innerBinding s) = .ok b' :=
          Checking.related_at hcircuits hb hb'
        exact ih b (mem_circuits_iff.2 ⟨i, hmem, hbody⟩) (Circuit.assign_eq_ok_iff.1 hinner).1
      · rw [hb] at hb'
        cases hb'
        refine Everywhere.filledBy_self (hall.record hmem hbody) fun p hp hkey => ?_
        obtain ⟨hkey, hne⟩ := Operation.mem_keys_innerBinding_iff.1 hkey
        exact hpassed i' hmem hused slot p (Operation.freeAt_of_body hb hne hp) hkey

end Content

/-! ## Values in canonical order -/

namespace Assoc

variable {α β : Type} [DecidableEq α]

/-- Pairs of different keys are the map that they describe. -/
theorem foldl_insert_eq_append {pairs m : List (α × β)} (h : (keys (m ++ pairs)).Nodup) :
    pairs.foldl (fun m p => insert p.1 p.2 m) m = m ++ pairs := by
  induction pairs generalizing m with
  | nil => rw [List.foldl_nil, List.append_nil]
  | cons p rest ih =>
    have hsplit : m ++ p :: rest = (m ++ [p]) ++ rest := by
      rw [List.append_assoc, List.singleton_append]
    have hnew : p.1 ∉ keys m := by
      rw [keys_append, List.nodup_append] at h
      intro hmem
      exact h.2.2 p.1 hmem p.1 List.mem_cons_self rfl
    rw [List.foldl_cons, insert_of_not_mem hnew, hsplit]
    exact ih (hsplit ▸ h)

theorem ofPairs_eq_self {pairs : List (α × β)} (h : (keys pairs).Nodup) : ofPairs pairs = pairs :=
  foldl_insert_eq_append (m := []) h

end Assoc

namespace Content

variable {c d : Content} {values : List Angle}

/-- The binding of the free parameters, in canonical order, to values. -/
def bindingOfValues (c : Content) (values : List Angle) : Binding Float := c.parameters.zip values

theorem keys_bindingOfValues (h : values.length = c.parameters.length) :
    Assoc.keys (c.bindingOfValues values) = c.parameters :=
  List.map_fst_zip (Nat.le_of_eq h.symm)

theorem numeric_bindingOfValues (h : ∀ v ∈ values, v.isSymbolic = false) :
    (c.bindingOfValues values).Numeric :=
  fun u hu => h u.2 (List.of_mem_zip hu).2

/-- In a well-formed content the binding has each value under its parameter. -/
theorem image_bindingOfValues (hc : c.table.WellFormed) (h : values.length = c.parameters.length)
    {k : Nat} {p : Parameter} {v : Angle} (hp : c.parameters[k]? = some p)
    (hv : values[k]? = some v) : ParamExpr.image (c.bindingOfValues values) p = v := by
  have hnodup : (Assoc.keys (c.bindingOfValues values)).Nodup := by
    rw [keys_bindingOfValues h]
    exact hc.nodup_sorted
  have hmem : (p, v) ∈ c.bindingOfValues values :=
    List.mem_of_getElem? (List.getElem?_zip_eq_some.2 ⟨hp, hv⟩)
  rw [ParamExpr.image, Assoc.find?_of_mem hnodup hmem]
  rfl

theorem assignValues_apply (values : List Angle) (c : Content) :
    assignValues values c =
      (Edit.ofExcept (refuseIf (values.length ≠ c.table.size)
        (.parameterCount c.table.size values.length)) >>= fun _ =>
          assignParameters (Assoc.ofPairs (c.parameters.zip values)) true) c := rfl

/-- Other than one value for each parameter is refused, and nothing is changed. -/
theorem assignValues_of_length_ne (h : values.length ≠ c.table.size) :
    assignValues values c = .error (.parameterCount c.table.size values.length) c := by
  rw [assignValues_apply, Edit.bind_eq_error_iff]
  left
  rw [Edit.ofExcept_eq_error_iff]
  refine ⟨?_, rfl⟩
  simp [refuseIf, h]

/-- As many values as there are parameters in use are assigned together. -/
theorem assignValues_of_length_eq (hc : c.table.WellFormed) (h : values.length = c.table.size) :
    assignValues values c = Edit.update (fun c => c.assign (c.bindingOfValues values)) c := by
  have hlength : values.length = c.parameters.length := h.trans hc.length_sorted.symm
  have hpasses : (Edit.ofExcept (refuseIf (values.length ≠ c.table.size)
      (.parameterCount c.table.size values.length)) : Edit Content Unit) c = .ok () c := by
    rw [Edit.ofExcept_eq_ok_iff]
    exact ⟨by simp [h], rfl⟩
  have hnodup : (Assoc.keys (c.bindingOfValues values)).Nodup := by
    rw [keys_bindingOfValues hlength]
    exact hc.nodup_sorted
  have hknown : ((Assoc.keys (c.bindingOfValues values)).find? fun p =>
      true && !c.table.contains p) = none := by
    rw [keys_bindingOfValues hlength]
    refine List.find?_eq_none.2 fun p hp => ?_
    simp [hc.mem_sorted_iff.1 hp]
  rw [assignValues_apply, Edit.bind_apply_of_ok hpasses,
    show c.parameters.zip values = c.bindingOfValues values from rfl, Assoc.ofPairs_eq_self hnodup]
  simp only [assignParameters, Edit.update, hknown]

end Content

/-- On a reached circuit, to assign numbers in canonical order answers exactly if there is one for
each parameter in use. Then no parameter is in use any more, and none is free: in the phase, in the
expressions of records, and in bodies at any depth but for the loops over it. The expressions that
are there are those that were, with the parameter at each position of the canonical order replaced
by the value at that position. -/
theorem Circuit.Reachable.assignValues_fills {A : Policy} {c : Circuit} (hc : c.Reachable A)
    {values : List Angle} (hvalues : ∀ v ∈ values, v.isSymbolic = false) :
    ((∃ d, Content.assignValues values c.content = .ok () d) ↔
      values.length = c.content.table.size) ∧
    ∀ d, Content.assignValues values c.content = .ok () d →
      d.table.size = 0 ∧ (∀ p, ¬ d.Free p) ∧
      c.content.FilledBy (c.content.bindingOfValues values) d ∧
      ∀ (k : Nat) (p : Parameter) (v : Angle), c.parameters[k]? = some p → values[k]? = some v →
        ParamExpr.image (c.content.bindingOfValues values) p = v := by
  have hindexed := hc.built.everywhere_any Content.indexed_invariant
  have hwf : c.content.table.WellFormed := hindexed.here.wellFormed
  have hnumeric : (c.content.bindingOfValues values).Numeric :=
    Content.numeric_bindingOfValues hvalues
  constructor
  · constructor
    · rintro ⟨d, hd⟩
      by_contra hlength
      rw [Content.assignValues_of_length_ne hlength] at hd
      cases hd
    · intro hlength
      obtain ⟨d, hd⟩ := hindexed.assign_answers hnumeric
      refine ⟨d, ?_⟩
      rw [Content.assignValues_of_length_eq hwf hlength, Edit.update_eq_ok_iff]
      exact hd
  · intro d hd
    have hlength : values.length = c.content.table.size := by
      by_contra hlength
      rw [Content.assignValues_of_length_ne hlength] at hd
      cases hd
    rw [Content.assignValues_of_length_eq hwf hlength, Edit.update_eq_ok_iff] at hd
    have hlength' : values.length = c.content.parameters.length :=
      hlength.trans hwf.length_sorted.symm
    have hleft : Content.Everywhere Content.Indexed d := hindexed.indexed_assign hd
    have hnone : ∀ p, p ∉ d.parameters := by
      intro p hp
      obtain ⟨hused, hkey⟩ := (hindexed.mem_parameters_assign_iff hnumeric hd).1 hp
      rw [Content.keys_bindingOfValues hlength'] at hkey
      exact hkey hused
    refine ⟨?_, fun p hp => ?_, hindexed.filledBy hd, fun k p v hp hv => ?_⟩
    · rw [← hleft.here.wellFormed.length_sorted]
      exact List.length_eq_zero_iff.2 (List.eq_nil_iff_forall_not_mem.2 hnone)
    · exact hnone p (hleft.mem_parameters_iff.2 hp)
    · exact Content.image_bindingOfValues hwf hlength' hp hv

namespace Circuit

/-- Numbers for `y` and `z` go into the custom operation, the loop and the last rotation. -/
theorem assignValues_fills_definesAndLoops : definesAndLoops.Reachable .any ∧
    (∀ v ∈ [(.const 1 : Angle), .const 2], v.isSymbolic = false) ∧
    ∃ d, Content.assignValues [.const 1, .const 2] definesAndLoops.content = .ok () d ∧
      d.table.size = 0 ∧ (∀ p, ¬ d.Free p) ∧
      definesAndLoops.content.FilledBy
        (definesAndLoops.content.bindingOfValues [.const 1, .const 2]) d := by
  have hvalues : ∀ v ∈ [(.const 1 : Angle), .const 2], v.isSymbolic = false := by
    intro v hv
    simp only [List.mem_cons, List.not_mem_nil, or_false] at hv
    rcases hv with rfl | rfl <;> rfl
  obtain ⟨hanswers, hfills⟩ := definesAndLoops_reachable.assignValues_fills hvalues
  obtain ⟨d, hd⟩ := hanswers.2 (by decide +kernel)
  obtain ⟨hsize, hfree, hfilled, -⟩ := hfills d hd
  exact ⟨definesAndLoops_reachable, hvalues, d, hd, hsize, hfree, hfilled⟩

end Circuit

end QuantumCircuit
