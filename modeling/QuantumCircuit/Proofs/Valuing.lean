import QuantumCircuit.Proofs.Restricting

/-!
# Assignments of numbers

Replacements without parameters bring no name in, so they clash with none and an assignment
of numbers always answers (`Content.Everywhere.assign_answers`). It takes its keys out of what
is free, at every site and in the content as a whole, and leaves the rest of it where it was
(`Content.Everywhere.free_assign_iff_of_numeric`).
-/

namespace QuantumCircuit

variable {s : Binding Float} {p : Parameter}

theorem Operation.numeric_innerBinding (op : Operation) (hs : s.Numeric) :
    (op.innerBinding s).Numeric :=
  fun u hu => hs u (Operation.mem_innerBinding_iff.1 hu).1

theorem Operation.mem_keys_innerBinding_iff {op : Operation} :
    p ∈ Assoc.keys (op.innerBinding s) ↔ p ∈ Assoc.keys s ∧ op.loopParameter? ≠ some p := by
  unfold Assoc.keys
  simp only [List.mem_map]
  constructor
  · rintro ⟨u, hu, rfl⟩
    obtain ⟨hmem, hne⟩ := Operation.mem_innerBinding_iff.1 hu
    exact ⟨⟨u, hmem, rfl⟩, hne⟩
  · rintro ⟨⟨u, hu, rfl⟩, hne⟩
    exact ⟨u, Operation.mem_innerBinding_iff.2 ⟨hu, hne⟩, rfl⟩

/-! ## Answers -/

namespace Content

variable {c d e : Content} {t : Binding Float}

theorem Assigns.numeric (h : c.Assigns s e t) (hs : s.Numeric) : t.Numeric := by
  induction h with
  | here c s => exact hs
  | @inside c s k i b t e u hk hi hb _ ih =>
    rw [Operation.innerBindings_eq] at hb
    obtain ⟨b, -, heq⟩ := List.mem_map.1 hb
    cases heq
    exact ih (i.operation.numeric_innerBinding hs)

theorem not_clashes_of_numeric {t : ParameterTable} (hs : s.Numeric) (u : Parameter × Angle) :
    ¬ t.Clashes s u := by
  rintro ⟨hu, p, hp, -⟩
  rw [ParamExpr.isSymbolic_eq_false_iff.1 (hs u hu)] at hp
  exact absurd hp List.not_mem_nil

/-- An assignment of numbers answers. -/
theorem Everywhere.assign_answers (h : Everywhere Indexed c) (hs : s.Numeric) :
    ∃ d, c.assign s = .ok d := by
  refine h.assign_answers_iff.2 fun u hclash => ?_
  obtain ⟨e, t, hassigns, hclash⟩ := hclash
  exact not_clashes_of_numeric (hassigns.numeric hs) u hclash

theorem Everywhere.indexed_assign (h : Everywhere Indexed c) (hd : c.assign s = .ok d) :
    Everywhere Indexed d :=
  h.assign hd fun _ _ _ _ hindexed hd => hindexed.assign hd

end Content

/-! ## What is free afterwards -/

/-- After an assignment of numbers free is what was free and is no key. -/
theorem Operation.freeAfter_iff_of_numeric (hs : s.Numeric) {op : Operation} {slot : Nat} :
    op.FreeAfter p s slot ↔ op.FreeAt p slot ∧ p ∉ Assoc.keys s := by
  constructor
  · intro h
    obtain ⟨q, hq, hp⟩ := h.outside
    obtain ⟨rfl, hkey⟩ := hs.mem_symbols_image_iff.1 hp
    exact ⟨hq.free, hkey⟩
  · rintro ⟨hfree, hkey⟩
    exact (hfree.outside (.inl rfl)).after (hs.mem_symbols_image_iff.2 ⟨rfl, hkey⟩)

namespace Content

variable {c d : Content}

theorem Everywhere.free_assign_iff_freeAfter (h : Everywhere Indexed c) (hd : c.assign s = .ok d) :
    d.Free p ↔ c.FreeAfter p s := by
  rw [free_iff_occursAt, freeAfter_iff_occursAfter]
  exact exists_congr fun site => h.occursAt_assign_iff hd site

theorem Everywhere.free_assign_iff_of_numeric (h : Everywhere Indexed c) (hs : s.Numeric)
    (hd : c.assign s = .ok d) : d.Free p ↔ c.Free p ∧ p ∉ Assoc.keys s := by
  rw [h.free_assign_iff hd]
  constructor
  · rintro ⟨q, hq, hp⟩
    obtain ⟨rfl, hkey⟩ := hs.mem_symbols_image_iff.1 hp
    exact ⟨hq.free, hkey⟩
  · rintro ⟨hfree, hkey⟩
    exact ⟨p, hfree.outside (.inl rfl), hs.mem_symbols_image_iff.2 ⟨rfl, hkey⟩⟩

/-- So it is for the free parameters of a record, site by site. -/
theorem Everywhere.freeAt_assign_iff_of_numeric (h : Everywhere Indexed c) (hs : s.Numeric)
    {i : Instruction} (hi : i ∈ c.records) {op : Operation} (hop : i.operation.assign s = .ok op)
    {slot : Nat} : op.FreeAt p slot ↔ i.operation.FreeAt p slot ∧ p ∉ Assoc.keys s := by
  rw [← Operation.freeAfter_iff_of_numeric hs]
  refine Operation.freeAt_assign_iff hop fun b hb b' hassign => ?_
  have hinner : Everywhere Indexed b.1.content :=
    h.record hi (Operation.mem_circuits_of_innerBindings hb)
  exact hinner.free_assign_iff_freeAfter (Circuit.assign_eq_ok_iff.1 hassign).1

/-- And of the parameters in use. -/
theorem Everywhere.mem_parameters_assign_iff (h : Everywhere Indexed c) (hs : s.Numeric)
    (hd : c.assign s = .ok d) :
    p ∈ d.parameters ↔ p ∈ c.parameters ∧ p ∉ Assoc.keys s := by
  rw [(h.indexed_assign hd).mem_parameters_iff, h.mem_parameters_iff,
    h.free_assign_iff_of_numeric hs hd]

end Content

end QuantumCircuit
