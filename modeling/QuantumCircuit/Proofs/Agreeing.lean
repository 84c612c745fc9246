import QuantumCircuit.Proofs.Assigning
import QuantumCircuit.Proofs.Binders
import QuantumCircuit.Proofs.Folding
import QuantumCircuit.Proofs.Restoring

/-!
# What an assignment looks at

A content reads the parameters that stand in its phase, in its records and in the circuits
inside them, definitions included, outside the loops over them (`Content.Reads`). Two
bindings that have the same for all of these, and of which the second brings nothing in
that the first does not, do the same (`Content.Everywhere.assign_of_agree`).

What else is in a binding can do one thing only: the check of names goes over all
replacements, so one that is put nowhere may have an assignment refused
(`Circuit.Reachable.assign_restricted`).
-/

namespace QuantumCircuit

namespace Assoc

variable {α β : Type} [DecidableEq α]

theorem erase_eq_filter (k : α) (m : List (α × β)) : erase k m = m.filter fun u => u.1 ≠ k := by
  induction m with
  | nil => rfl
  | cons e rest ih =>
    obtain ⟨a, b⟩ := e
    by_cases ha : a = k <;> simp [erase, ha, ih]

theorem mem_erase_iff {k : α} {m : List (α × β)} {u : α × β} :
    u ∈ erase k m ↔ u ∈ m ∧ u.1 ≠ k := by
  rw [erase_eq_filter, List.mem_filter, decide_eq_true_eq]

/-- A look-up among the pairs of some keys. -/
theorem find?_filter (known : α → Bool) (k : α) (m : List (α × β)) :
    find? k (m.filter fun u => known u.1) = if known k then find? k m else none := by
  induction m with
  | nil => simp [find?]
  | cons e rest ih =>
    obtain ⟨a, b⟩ := e
    rw [List.filter_cons]
    by_cases ha : a = k
    · subst ha
      by_cases hk : known a <;> simp [find?, hk, ih]
    · by_cases hk : known a <;> simp [find?, hk, ha, ih]

end Assoc

/-! ## Reading a parameter -/

/-- The parameter that the operation binds in the circuits that it holds. -/
def Operation.loopParameter? : Operation → Option Parameter
  | .control flow => flow.loopParameter?
  | _ => none

section InnerBinding

variable {op : Operation} {s : Binding Float} {p : Parameter}

theorem Operation.innerBinding_eq (op : Operation) (s : Binding Float) :
    op.innerBinding s =
      match op.loopParameter? with
      | some p => Assoc.erase p s
      | none => s := by
  cases op <;> rfl

theorem Operation.find?_innerBinding :
    Assoc.find? p (op.innerBinding s) =
      if op.loopParameter? = some p then none else Assoc.find? p s := by
  rw [op.innerBinding_eq]
  cases h : op.loopParameter? with
  | none => simp
  | some q => simp [Assoc.find?_erase]

theorem Operation.mem_innerBinding_iff {u : Parameter × Angle} :
    u ∈ op.innerBinding s ↔ u ∈ s ∧ op.loopParameter? ≠ some u.1 := by
  rw [op.innerBinding_eq]
  cases h : op.loopParameter? with
  | none => simp
  | some q =>
    rw [Assoc.mem_erase_iff]
    refine and_congr_right fun _ => not_congr ?_
    constructor
    · intro heq
      rw [heq]
    · intro heq
      exact (Option.some.inj heq).symm

end InnerBinding

mutual

/-- That `p` stands in the operation, or in a circuit in it that it does not bind `p` in. -/
inductive Operation.Reads (p : Parameter) : Operation → Prop
  | param {op : Operation} {e : Angle} : e ∈ op.params → p ∈ e.symbols → Operation.Reads p op
  | inside {op : Operation} {b : Circuit} :
      b ∈ op.circuits → op.loopParameter? ≠ some p → Content.Reads p b.content →
      Operation.Reads p op

/-- That `p` stands in the phase or in a record, definitions included. -/
inductive Content.Reads (p : Parameter) : Content → Prop
  | phase {c : Content} : p ∈ c.phase.symbols → Content.Reads p c
  | record {c : Content} {i : Instruction} :
      i ∈ c.records → Operation.Reads p i.operation → Content.Reads p c

end

mutual

theorem Operation.FreeAt.reads {p : Parameter} {op : Operation} {slot : Nat} :
    op.FreeAt p slot → op.Reads p
  | .param he hp => .param (List.mem_of_getElem? he) hp
  | .body hb hne h => .inside (List.mem_of_getElem? hb) hne h.reads

/-- What is free is read. -/
theorem Content.Free.reads {p : Parameter} {c : Content} : c.Free p → c.Reads p
  | .phase hp => .phase hp
  | .record hk h => .record (List.mem_of_getElem? hk) h.reads

end

/-- An operation that names all that is free in its definition, and circuits that hide nothing. -/
theorem Operation.NamesFree.freeAt_of_reads {op : Operation} {p : Parameter} (h : op.NamesFree)
    (inner : ∀ b ∈ op.circuits, b.content.Reads p → b.content.Free p) (hp : op.Reads p) :
    ∃ slot, op.FreeAt p slot := by
  cases hp with
  | param he hp =>
    obtain ⟨slot, hslot⟩ := List.getElem?_of_mem he
    exact ⟨slot, .param hslot hp⟩
  | @inside op b hb hne hread =>
    have hfree : b.content.Free p := inner b hb hread
    cases op with
    | custom o =>
      obtain ⟨e, he, hp⟩ := h o b rfl (Option.mem_toList.1 hb) p hfree
      obtain ⟨slot, hslot⟩ := List.getElem?_of_mem he
      exact ⟨slot, .param hslot hp⟩
    | control flow =>
      obtain ⟨slot, hslot⟩ := List.getElem?_of_mem hb
      exact ⟨slot, .body hslot hne hfree⟩
    | gate g | measure | reset | barrier w | delay d | store a =>
      exact absurd hb List.not_mem_nil

namespace Content

variable {c d : Content} {s t : Binding Float} {p : Parameter}

/-- That every custom operation, at any depth, names what is free in its definition. -/
def Faithful (c : Content) : Prop :=
  c.Everywhere fun e => ∀ i ∈ e.records, i.operation.NamesFree

/-- Where definitions hide nothing, what is read is free. -/
theorem Faithful.free_of_reads (h : c.Faithful) (hp : c.Reads p) : c.Free p := by
  induction h with
  | @intro c hnames _ ih =>
    cases hp with
    | phase hp => exact .phase hp
    | record hi hread =>
      obtain ⟨k, hk⟩ := List.getElem?_of_mem hi
      obtain ⟨slot, hslot⟩ := (hnames _ hi).freeAt_of_reads
        (fun b hb => ih b (mem_circuits_iff.2 ⟨_, hi, hb⟩)) hread
      exact .record hk hslot

theorem Faithful.freeAt_of_reads (h : c.Faithful) {i : Instruction} (hi : i ∈ c.records)
    (hp : i.operation.Reads p) : ∃ slot, i.operation.FreeAt p slot :=
  (h.here i hi).freeAt_of_reads (fun _ hb hread => Faithful.free_of_reads (h.record hi hb) hread) hp

/-- Gates hide nothing. -/
theorem faithful_of_gates (h : ∀ i ∈ c.records, ∃ g, i.operation = .gate g) : c.Faithful := by
  refine .intro (fun i hi o b heq => ?_) fun d hd => ?_
  · obtain ⟨g, hg⟩ := h i hi
    rw [hg] at heq
    cases heq
  · obtain ⟨i, hi, hd⟩ := mem_circuits_iff.1 hd
    obtain ⟨g, hg⟩ := h i hi
    rw [hg] at hd
    exact absurd hd List.not_mem_nil

end Content

/-! ## Bindings that agree -/

/-- That the binding `t` has what `s` has for whatever satisfies `reads`, and no other parameters
in its replacements. -/
structure Binding.AgreeOn (reads : Parameter → Prop) (s t : Binding Float) : Prop where
  find : ∀ p, reads p → Assoc.find? p t = Assoc.find? p s
  brings : ∀ u ∈ t, u.2.isSymbolic = true → u ∈ s

/-- That the bindings agree on what the operation reads. -/
abbrev Operation.Agree (op : Operation) (s t : Binding Float) : Prop :=
  Binding.AgreeOn (fun p => op.Reads p) s t

/-- That the bindings agree on what the content reads. -/
abbrev Content.Agree (c : Content) (s t : Binding Float) : Prop :=
  Binding.AgreeOn (fun p => c.Reads p) s t

section Agreement

variable {reads : Parameter → Prop} {s t : Binding Float} {p : Parameter}

namespace Binding.AgreeOn

theorem mem_keys_iff (h : AgreeOn reads s t) (hp : reads p) :
    p ∈ Assoc.keys t ↔ p ∈ Assoc.keys s := by
  rw [← Assoc.contains_iff_mem_keys, ← Assoc.contains_iff_mem_keys, Assoc.contains,
    Assoc.contains, h.find p hp]

theorem image_eq (h : AgreeOn reads s t) (hp : reads p) :
    ParamExpr.image t p = ParamExpr.image s p := by
  rw [ParamExpr.image, ParamExpr.image, h.find p hp]

/-- Bindings without parameters agree on what they have in common. -/
theorem of_numeric (ht : t.Numeric) (h : ∀ p, reads p → Assoc.find? p t = Assoc.find? p s) :
    AgreeOn reads s t where
  find := h
  brings u hu hsymbolic := by
    rw [ht u hu] at hsymbolic
    cases hsymbolic

end Binding.AgreeOn

theorem Content.Agree.operation {c : Content} (h : c.Agree s t) {i : Instruction}
    (hi : i ∈ c.records) : i.operation.Agree s t where
  find p hp := h.find p (.record hi hp)
  brings := h.brings

/-- They agree in every circuit inside, where a loop has taken its parameter out of both. -/
theorem Operation.Agree.inside {op : Operation} (h : op.Agree s t) {b : Circuit}
    (hb : b ∈ op.circuits) : b.content.Agree (op.innerBinding s) (op.innerBinding t) where
  find p hp := by
    rw [Operation.find?_innerBinding, Operation.find?_innerBinding]
    split
    · rfl
    · rename_i hne
      exact h.find p (.inside hb hne hp)
  brings u hu hsymbolic := by
    obtain ⟨hmem, hne⟩ := Operation.mem_innerBinding_iff.1 hu
    exact Operation.mem_innerBinding_iff.2 ⟨h.brings u hmem hsymbolic, hne⟩

/-- An operation is assigned alike if the circuits in it are. -/
theorem Operation.Agree.assign {op op' : Operation} (h : op.Agree s t)
    (inner : ∀ b ∈ op.circuits, ∀ d, b.content.assign (op.innerBinding s) = .ok d →
      b.content.assign (op.innerBinding t) = .ok d)
    (hop : op.assign s = .ok op') : op.assign t = .ok op' := by
  obtain ⟨circuits, hcircuits, rfl⟩ := Operation.assign_eq_ok_iff.1 hop
  refine Operation.assign_eq_ok_iff.2 ⟨circuits, ?_, ?_⟩
  · refine Checking.imp_of_mem hcircuits fun b hb b' _ hb' => ?_
    rw [Circuit.assign_eq_ok_iff] at hb' ⊢
    exact ⟨inner b hb _ hb'.1, hb'.2⟩
  · refine Operation.withParts_congr fun e he => ?_
    exact (ParamExpr.subst_congr fun q hq => h.image_eq (.param he hq)).symm

end Agreement

/-! ## Names that clash -/

namespace ParameterTable

variable {t : ParameterTable} {s : Binding Float}

/-- That the replacement `u` of the binding brings in a parameter with the name of another one
in use, which is not replaced. -/
def Clashes (t : ParameterTable) (s : Binding Float) (u : Parameter × Angle) : Prop :=
  u ∈ s ∧ ∃ p ∈ u.2.symbols, ∃ q, t.named? p.name = some q ∧ q ≠ p ∧ q ∉ Assoc.keys s

theorem mem_incoming_iff {p : Parameter} :
    p ∈ Binding.incoming s ↔ ∃ u ∈ s, p ∈ u.2.symbols := by
  rw [Binding.incoming, Distinct.ofList, Distinct.mem_union, List.mem_flatMap, Assoc.values]
  simp only [List.not_mem_nil, false_or, List.mem_map]
  constructor
  · rintro ⟨e, ⟨u, hu, rfl⟩, hp⟩
    exact ⟨u, hu, hp⟩
  · rintro ⟨u, hu, hp⟩
    exact ⟨u.2, ⟨u, hu, rfl⟩, hp⟩

theorem checkIncoming_eq_ok_iff : t.checkIncoming s = .ok () ↔ ∀ u, ¬ t.Clashes s u := by
  have hclashes : ∀ p : Parameter,
      ((t.named? p.name).any fun q => q != p && !Assoc.contains q s) = true ↔
        ∃ q, t.named? p.name = some q ∧ q ≠ p ∧ q ∉ Assoc.keys s := by
    intro p
    simp only [Option.any_eq_true, Bool.and_eq_true, bne_iff_ne, Bool.not_eq_true',
      Bool.eq_false_iff, ne_eq, Assoc.contains_iff_mem_keys]
  unfold checkIncoming
  simp only
  constructor
  · rintro h u ⟨hu, p, hp, hclash⟩
    split at h
    · cases h
    · rename_i hnone
      refine List.find?_eq_none.1 hnone p (mem_incoming_iff.2 ⟨u, hu, hp⟩) ?_
      exact (hclashes p).2 hclash
  · intro h
    split
    · rename_i p hfound
      obtain ⟨u, hu, hp⟩ := mem_incoming_iff.1 (List.mem_of_find?_eq_some hfound)
      have hclash := List.find?_some hfound
      exact absurd ⟨hu, p, hp, (hclashes p).1 hclash⟩ (h u)
    · rfl

theorem checkIncoming_eq_error {e : CircuitError} (h : t.checkIncoming s = .error e) :
    ∃ name, e = .parameterNameConflict name := by
  unfold checkIncoming at h
  simp only at h
  split at h
  · cases h
    exact ⟨_, rfl⟩
  · cases h

end ParameterTable

/-! ## The same assignment -/

namespace Content

variable {c d : Content} {s t : Binding Float} {p : Parameter}

theorem Everywhere.reads_of_notes (h : Everywhere Indexed c) {site : ParameterUse}
    (hp : c.table.Notes site p) : c.Reads p :=
  Free.reads (free_iff_occursAt.2 ⟨site, h.notes_iff_occursAt.1 hp⟩)

/-- A content whose index is exact at every depth, with names that are of parameters in use. -/
structure Kept (c : Content) : Prop extends Indexed c where
  honest : c.table.Honest

theorem Built.kept {A : Policy} (h : c.Built A) : Everywhere Kept c :=
  (h.everywhere_any indexed_invariant).combine (h.everywhere_any reliable_invariant)
    fun _ hindexed hreliable => ⟨hindexed, hreliable.honest⟩

theorem Everywhere.indexed (h : Everywhere Kept c) : Everywhere Indexed c :=
  h.combine h fun _ hkept _ => hkept.toIndexed

namespace Agree

theorem notes_iff (hst : c.Agree s t) (h : Everywhere Indexed c) (site : ParameterUse) :
    (∃ q ∈ Assoc.keys t, c.table.Notes site q) ↔ ∃ q ∈ Assoc.keys s, c.table.Notes site q := by
  constructor
  · rintro ⟨q, hq, hnotes⟩
    exact ⟨q, (hst.mem_keys_iff (h.reads_of_notes hnotes)).1 hq, hnotes⟩
  · rintro ⟨q, hq, hnotes⟩
    exact ⟨q, (hst.mem_keys_iff (h.reads_of_notes hnotes)).2 hq, hnotes⟩

/-- They change the same records, found in the same order. -/
theorem affectedBy_eq (hst : c.Agree s t) (h : Everywhere Indexed c) :
    c.affectedBy t = c.affectedBy s := by
  have hmem : ∀ k, k ∈ c.affectedBy t ↔ k ∈ c.affectedBy s := by
    intro k
    rw [mem_affectedBy_iff, mem_affectedBy_iff]
    constructor
    · rintro ⟨q, hq, slot, hnotes⟩
      obtain ⟨r, hr, hnotes⟩ := (hst.notes_iff h _).1 ⟨q, hq, hnotes⟩
      exact ⟨r, hr, slot, hnotes⟩
    · rintro ⟨q, hq, slot, hnotes⟩
      obtain ⟨r, hr, hnotes⟩ := (hst.notes_iff h _).2 ⟨q, hq, hnotes⟩
      exact ⟨r, hr, slot, hnotes⟩
  have hnodup : ∀ u : Binding Float, (c.affectedBy u).Nodup := by
    intro u
    exact (pairwise_affectedBy c u).imp Nat.ne_of_lt
  have hperm := (List.perm_ext_iff_of_nodup (hnodup t) (hnodup s)).2 hmem
  refine hperm.eq_of_pairwise (fun a b _ _ hab hba => ?_) (pairwise_affectedBy c t)
    (pairwise_affectedBy c s)
  exact absurd hba (Nat.lt_asymm hab)

theorem affected_phase_eq (hst : c.Agree s t) (h : Everywhere Indexed c) :
    (c.table.affected (Assoc.keys t)).2 = (c.table.affected (Assoc.keys s)).2 := by
  rw [Bool.eq_iff_iff, affected_phase_iff, affected_phase_iff]
  exact hst.notes_iff h .phase

theorem reassigned_eq (hst : c.Agree s t) (h : Everywhere Indexed c) (l : List Instruction) :
    c.reassigned t l = c.reassigned s l := by
  have hphase : c.phase.subst t = c.phase.subst s :=
    ParamExpr.subst_congr fun q hq => hst.image_eq (.phase hq)
  unfold reassigned
  rw [hst.affectedBy_eq h, hst.affected_phase_eq h, hphase]

/-- What clashes under the second binding clashes under the first. -/
theorem clashes (hst : c.Agree s t) (h : Everywhere Kept c) {u : Parameter × Angle}
    (hu : c.table.Clashes t u) : c.table.Clashes s u := by
  obtain ⟨hmem, p, hp, q, hq, hne, hkey⟩ := hu
  have hsymbolic : u.2.isSymbolic = true := by
    by_contra hplain
    rw [Bool.not_eq_true, ParamExpr.isSymbolic_eq_false_iff] at hplain
    rw [hplain] at hp
    exact absurd hp List.not_mem_nil
  refine ⟨hst.brings u hmem hsymbolic, p, hp, q, hq, hne, fun hkey' => hkey ?_⟩
  have huse : c.table.contains q := (h.here.honest _ q hq).1
  obtain ⟨site, hnotes⟩ := h.here.wellFormed.contains_iff.1 huse
  exact (hst.mem_keys_iff (h.indexed.reads_of_notes hnotes)).2 hkey'

end Agree

/-- A record lists a key of one exactly if it lists a key of the other. -/
theorem Agree.uses_iff (hst : c.Agree s t) (h : Everywhere Indexed c) {i : Instruction}
    (hi : i ∈ c.records) : i.Uses t ↔ i.Uses s := by
  have hreads : ∀ u ∈ i.operation.freeParameters, c.Reads u.2 := by
    rintro ⟨slot, q⟩ hu
    exact .record hi ((h.mem_freeParameters_iff hi).1 hu).reads
  constructor
  · rintro ⟨u, hu, hkey⟩
    exact ⟨u, hu, (hst.mem_keys_iff (hreads u hu)).1 hkey⟩
  · rintro ⟨u, hu, hkey⟩
    exact ⟨u, hu, (hst.mem_keys_iff (hreads u hu)).2 hkey⟩

/-- An assignment that answers answers the same under a binding that agrees. -/
theorem Everywhere.assign_of_agree (h : Everywhere Kept c) (hst : c.Agree s t)
    (hd : c.assign s = .ok d) : c.assign t = .ok d := by
  -- on the nesting: the bindings that go into a circuit agree there
  induction h generalizing s t d with
  | @intro c hc hin ih =>
    have hall : Everywhere Kept c := .intro hc hin
    obtain ⟨hcheck, assigned, hassigned, rfl⟩ := hc.assign_eq_ok_iff.1 hd
    have hop : ∀ i ∈ c.records, ∀ op, i.operation.assign s = .ok op →
        i.operation.assign t = .ok op := by
      intro i hi op hop
      refine (hst.operation hi).assign (fun b hb d hd => ?_) hop
      exact ih b (mem_circuits_iff.2 ⟨i, hi, hb⟩) ((hst.operation hi).inside hb) hd
    refine hc.assign_eq_ok_iff.2 ⟨?_, assigned, ?_, hst.reassigned_eq hall.indexed assigned⟩
    · rw [ParameterTable.checkIncoming_eq_ok_iff] at hcheck ⊢
      intro u hu
      exact hcheck u (hst.clashes hall hu)
    · refine Checking.imp_of_mem hassigned fun i hi i' _ hi' => ?_
      have huses := hst.uses_iff hall.indexed hi
      obtain ⟨op, hused, hassign, rfl⟩ | ⟨hused, rfl⟩ := Instruction.assign_cases hi'
      · exact (Instruction.assign_eq_ok_iff_of_uses (huses.2 hused)).2
          ⟨op, hop i hi op hassign, rfl⟩
      · exact Instruction.assign_of_not_uses (mt huses.1 hused)

/-- And so is each record by itself. -/
theorem Everywhere.assign_operation_of_agree (h : Everywhere Kept c) {i : Instruction}
    (hi : i ∈ c.records) (hst : i.operation.Agree s t) {op : Operation}
    (hop : i.operation.assign s = .ok op) : i.operation.assign t = .ok op :=
  hst.assign (fun _ hb _ hd => (h.record hi hb).assign_of_agree (hst.inside hb) hd) hop

end Content

end QuantumCircuit
