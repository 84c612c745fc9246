import QuantumCircuit.Proofs.Composed

/-!
# Which identifiers go together

A table counts its identifiers by sort and by the way they came in, and the counts say whether it
has inputs and whether it has captures (`IdentifierTable.Accounted`). So whether it takes one more
depends on its list alone: names come once, no stretch is an input, and inputs and captures do not
go together (`Admissible`). A list of identifiers comes in exactly if it is admissible behind those
that are there (`IdentifierTable.Accounted.addedAll_ok`), and the identifiers of a built store are
(`Content.accounted_invariant`).
-/

namespace QuantumCircuit

/-- Identifiers that may be in one table, each with the way it came in. -/
structure Admissible (l : List (Identifier × IdentifierKind)) : Prop where
  names : (l.map (·.1.name)).Nodup
  inputs : ∀ e ∈ l, e.2 = .input → e.1.sort = .var
  apart : ∀ e ∈ l, ∀ f ∈ l, e.2 = .input → f.2 ≠ .capture

namespace Admissible

variable {l l' : List (Identifier × IdentifierKind)} {e : Identifier × IdentifierKind}

theorem nil : Admissible [] := ⟨.nil, by simp, by simp⟩

theorem left (h : Admissible (l ++ l')) : Admissible l where
  names := (List.map_append ▸ h.names).of_append_left
  inputs e he := h.inputs e (List.mem_append_left _ he)
  apart e he f hf := h.apart e (List.mem_append_left _ he) f (List.mem_append_left _ hf)

/-- Two lists go together if no name is in both and none has inputs where the other has captures. -/
theorem append (h : Admissible l) (h' : Admissible l')
    (hnames : ∀ e ∈ l, ∀ f ∈ l', e.1.name ≠ f.1.name)
    (happart : ∀ e ∈ l, ∀ f ∈ l', e.2 = .input → f.2 ≠ .capture)
    (happart' : ∀ e ∈ l', ∀ f ∈ l, e.2 = .input → f.2 ≠ .capture) : Admissible (l ++ l') where
  names := by
    rw [List.map_append, List.nodup_append]
    refine ⟨h.names, h'.names, fun a ha b hb => ?_⟩
    obtain ⟨e, he, rfl⟩ := List.mem_map.1 ha
    obtain ⟨f, hf, rfl⟩ := List.mem_map.1 hb
    exact hnames e he f hf
  inputs := List.forall_mem_append.2 ⟨h.inputs, h'.inputs⟩
  apart := List.forall_mem_append.2
    ⟨fun e he => List.forall_mem_append.2 ⟨h.apart e he, happart e he⟩,
      fun e he => List.forall_mem_append.2 ⟨happart' e he, h'.apart e he⟩⟩

/-- What one more has to be. -/
theorem snoc_iff (h : Admissible l) : Admissible (l ++ [e]) ↔ e.1.name ∉ l.map (·.1.name) ∧
    (e.2 = .input → e.1.sort = .var ∧ ¬ ∃ f ∈ l, f.2 = .capture) ∧
    (e.2 = .capture → ¬ ∃ f ∈ l, f.2 = .input) := by
  constructor
  · intro hall
    have hlast : e ∈ l ++ [e] := List.mem_append_right _ (List.mem_singleton.2 rfl)
    refine ⟨fun hmem => ?_, fun he => ⟨hall.inputs e hlast he, ?_⟩, ?_⟩
    · have hnames := hall.names
      rw [List.map_append, List.nodup_append] at hnames
      exact hnames.2.2 _ hmem _ (List.mem_singleton.2 rfl) rfl
    · rintro ⟨f, hf, hcapture⟩
      exact hall.apart e hlast f (List.mem_append_left _ hf) he hcapture
    · rintro hcapture ⟨f, hf, hinput⟩
      exact hall.apart f (List.mem_append_left _ hf) e hlast hinput hcapture
  · rintro ⟨hname, hinput, hcapture⟩
    have hone : Admissible [e] := by
      refine ⟨by simp, List.forall_mem_singleton.2 fun he => (hinput he).1, ?_⟩
      refine List.forall_mem_singleton.2 (List.forall_mem_singleton.2 fun he hc => ?_)
      rw [he] at hc
      cases hc
    refine h.append hone (fun f hf => List.forall_mem_singleton.2 fun heq => ?_)
      (fun f hf => List.forall_mem_singleton.2 fun hin hc => hcapture hc ⟨f, hf, hin⟩)
      (List.forall_mem_singleton.2 fun f hf hin hc => (hinput hin).2 ⟨f, hf, hc⟩)
    exact hname (heq ▸ List.mem_map_of_mem hf)

end Admissible

namespace IdentifierTable

variable {t u : IdentifierTable} {i : Identifier} {kind : IdentifierKind}
  {e : Identifier × IdentifierKind} {l : List (Identifier × IdentifierKind)}

/-! ## What the counts say -/

/-- The checks of a table by its counts. -/
theorem check_eq_ok_iff : t.check i kind = .ok () ↔ t.get? i.name = none ∧
    (kind = .input → i.sort = .var ∧ ¬ 0 < t.captures) ∧
    (kind = .capture → ¬ 0 < t.inputVars) := by
  unfold check
  cases t.get? i.name with
  | some found =>
    simp only [reduceCtorEq, false_and, iff_false]
    split <;> simp
  | none => cases i <;> cases kind <;> simp [Identifier.sort]

theorem inputVars_insert : (t.insert i kind).inputVars =
    t.inputVars + if i.sort = .var ∧ kind = .input then 1 else 0 := by
  cases i <;> cases kind <;> rfl

theorem captures_insert : (t.insert i kind).captures =
    t.captures + if kind = .capture then 1 else 0 := by
  cases i <;> cases kind <;> simp only [insert, count, captures, Identifier.sort] <;>
    simp only [if_true, reduceCtorEq, if_false, Nat.add_zero, Nat.add_assoc, Nat.add_comm 1]

/-- A table of identifiers that go together, with counts that tell inputs and captures. -/
structure Accounted (t : IdentifierTable) : Prop where
  named : t.toList.map (·.1.name) = t.names
  inputs : 0 < t.inputVars ↔ ∃ e ∈ t.toList, e.2 = .input
  captures : 0 < t.captures ↔ ∃ e ∈ t.toList, e.2 = .capture
  admissible : Admissible t.toList

theorem accounted_empty : empty.Accounted := ⟨rfl, by decide, by decide, .nil⟩

namespace Accounted

/-- What may come in depends on the list only. -/
theorem check_iff (h : t.Accounted) :
    t.check e.1 e.2 = .ok () ↔ Admissible (t.toList ++ [e]) := by
  rw [check_eq_ok_iff, h.admissible.snoc_iff, not_mem_names_iff, h.named, h.inputs, h.captures]

theorem insert (h : t.Accounted) (he : Admissible (t.toList ++ [e])) :
    (t.insert e.1 e.2).Accounted := by
  obtain ⟨hname, hinput, -⟩ := h.admissible.snoc_iff.1 he
  have hnone : t.get? e.1.name = none := not_mem_names_iff.2 (h.named ▸ hname)
  have hlist : (t.insert e.1 e.2).toList = t.toList ++ [e] := toList_insert hnone
  refine ⟨?_, ?_, ?_, hlist ▸ he⟩
  · rw [hlist, List.map_append, names_insert hnone, h.named]
    rfl
  · rw [hlist, inputVars_insert]
    simp only [List.mem_append, List.mem_singleton, or_and_right, exists_or, exists_eq_left]
    rw [← h.inputs]
    by_cases hin : e.2 = .input
    · simp [hin, (hinput hin).1]
    · simp [hin]
  · rw [hlist, captures_insert]
    simp only [List.mem_append, List.mem_singleton, or_and_right, exists_or, exists_eq_left]
    rw [← h.captures]
    by_cases hc : e.2 = .capture <;> simp [hc]

/-- Identifiers that go together with those of the table come in, one after another. -/
theorem addedAll_ok (h : t.Accounted) (hl : Admissible (t.toList ++ l)) :
    t.addedAll l = .ok (l.foldl (fun t e => t.insert e.1 e.2) t) ∧
      (l.foldl (fun t e => t.insert e.1 e.2) t).Accounted := by
  induction l generalizing t with
  | nil => exact ⟨rfl, h⟩
  | cons e rest ih =>
    have hsplit : t.toList ++ e :: rest = (t.toList ++ [e]) ++ rest := by simp
    rw [hsplit] at hl
    have hcheck := h.check_iff.2 hl.left
    have hlist : (t.insert e.1 e.2).toList = t.toList ++ [e] :=
      toList_insert (get?_eq_none_of_check hcheck)
    obtain ⟨hrun, haccounted⟩ := ih (h.insert hl.left) (by rwa [hlist])
    refine ⟨Checking.bind_eq_ok_iff.2 ⟨_, added_eq_ok_iff.2 ⟨hcheck, rfl⟩, hrun⟩, haccounted⟩

end Accounted

/-! ## Turned into captures -/

theorem admissible_captures (h : (l.map (·.1.name)).Nodup) :
    Admissible (l.map fun e => (e.1, .capture)) where
  names := by rwa [List.map_map]
  inputs e he := by
    obtain ⟨e, -, rfl⟩ := List.mem_map.1 he
    exact fun hin => nomatch hin
  apart e he f _ := by
    obtain ⟨e, -, rfl⟩ := List.mem_map.1 he
    exact fun hin => nomatch hin

theorem asCaptures_eq_foldl : t.asCaptures =
    (t.toList.map fun e => (e.1, IdentifierKind.capture)).foldl
      (fun t e => t.insert e.1 e.2) empty := by
  rw [List.foldl_map]
  rfl

/-- To turn all into captures is to add them to an empty table as captures. -/
theorem addedAll_asCaptures (h : (t.toList.map (·.1.name)).Nodup) :
    empty.addedAll (t.toList.map fun e => (e.1, .capture)) = .ok t.asCaptures ∧
      t.asCaptures.Accounted := by
  rw [asCaptures_eq_foldl]
  exact accounted_empty.addedAll_ok (admissible_captures h)

end IdentifierTable

/-! ## Identifiers of built stores -/

namespace Content

/-- What holds of a table that is empty, one that takes an identifier and one turned into captures
holds of the identifiers of every built store. -/
theorem Invariant.of_identifiers {P : IdentifierTable → Prop} (hempty : P .empty)
    (hadded : ∀ t u i kind, P t → t.added i kind = .ok u → P u)
    (hcaptures : ∀ t, P t → P t.asCaptures) : Invariant .any fun c => P c.identifiers where
  empty := hempty
  addBit _ := .within fun _ _ hc _ => by simpa using hc
  addRegister {k} r := by
    intro c d hc hd
    obtain ⟨l, rfl⟩ := addRegister_leaves hd
    simpa using hc
  addIdentifier i kind := by
    intro c d hc hd
    rcases hd with ⟨_, hd⟩ | ⟨e, hd⟩
    · obtain ⟨hcheck, rfl⟩ := addIdentifier_eq_ok_iff.1 hd
      have htable := (checkIdentifier_eq_ok_iff.1 hcheck).2
      exact hadded _ _ i kind hc (IdentifierTable.added_eq_ok_iff.2 ⟨htable, rfl⟩)
    · rwa [(addIdentifier_eq_error_iff.1 hd).2]
  snoc c i hc _ := hc
  front c front hc _ _ := hc
  pop c i d hc hd := by
    obtain ⟨-, rfl⟩ := pop?_eq_some_iff.1 hd
    exact hc
  clear c hc := hc
  setPhase phase c d hc hd := by
    rcases setPhase_leaves hd with rfl | rfl <;> exact hc
  setDuration t c hc := hc
  listParameters c d hc hd := by
    obtain rfl := listParameters_leaves_iff.1 hd
    exact hc
  copyEmpty c mode hc := by
    cases mode with
    | alike => exact hc
    | captures => exact hcaptures _ hc
    | drop => exact hempty
  assign c s d hc _ hd := by
    obtain ⟨-, -, hidentifiers⟩ := assign_frame hd
    rwa [hidentifiers]

theorem accounted_invariant : Invariant .any fun c => c.identifiers.Accounted :=
  .of_identifiers IdentifierTable.accounted_empty
    (fun t u i kind ht hu => by
      obtain ⟨hcheck, rfl⟩ := IdentifierTable.added_eq_ok_iff.1 hu
      exact ht.insert (e := (i, kind)) (ht.check_iff.1 hcheck))
    fun t ht => (IdentifierTable.addedAll_asCaptures ht.admissible.names).2

end Content

end QuantumCircuit
