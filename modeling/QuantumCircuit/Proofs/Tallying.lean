import QuantumCircuit.Proofs.Admitting

/-!
# The counts of an identifier table

A table keeps its counts beside its entries. In every table that adding, turning into captures and
sending through a function make of the empty one (`IdentifierTable.Made`) they are the numbers of
entries of each sort and kind (`IdentifierTable.Tallied`), so the test that goes by them tells
whether there are inputs and whether there are captures. The main result is
`IdentifierTable.Made.counts_entries`; the identifiers of every built store are such a table
(`Content.made_invariant`).
-/

namespace QuantumCircuit

/-- How many of the identifiers are of this sort and came in this way. -/
def tally (l : List (Identifier × IdentifierKind)) (sort : IdentifierSort)
    (kind : IdentifierKind) : Nat :=
  l.countP fun e => e.1.sort = sort ∧ e.2 = kind

theorem tally_snoc (l : List (Identifier × IdentifierKind)) (e : Identifier × IdentifierKind)
    (sort : IdentifierSort) (kind : IdentifierKind) :
    tally (l ++ [e]) sort kind =
      tally l sort kind + if e.1.sort = sort ∧ e.2 = kind then 1 else 0 := by
  unfold tally
  rw [List.countP_append, List.countP_singleton]
  simp only [decide_eq_true_eq]

theorem tally_pos_iff {l : List (Identifier × IdentifierKind)} {sort : IdentifierSort}
    {kind : IdentifierKind} : 0 < tally l sort kind ↔ ∃ e ∈ l, e.1.sort = sort ∧ e.2 = kind := by
  unfold tally
  simp only [List.countP_pos_iff, decide_eq_true_eq]

/-- Every identifier is of one sort and kind. -/
theorem sum_tally (l : List (Identifier × IdentifierKind)) :
    tally l .var .input + tally l .var .capture + tally l .stretch .capture +
      tally l .var .declare + tally l .stretch .declare + tally l .stretch .input = l.length := by
  induction l with
  | nil => rfl
  | cons e rest ih =>
    unfold tally at ih ⊢
    simp only [List.countP_cons, List.length_cons, ← ih]
    rcases e with ⟨_ | _, _ | _ | _⟩ <;> simp [Identifier.sort] <;> omega

namespace IdentifierTable

variable {t u : IdentifierTable} {i : Identifier} {kind : IdentifierKind}
  {l : List (Identifier × IdentifierKind)} {f : Identifier → Identifier}

/-- The count that the table keeps of a sort and kind. It keeps none of stretches as inputs. -/
def counter (t : IdentifierTable) : IdentifierSort → IdentifierKind → Nat
  | .var, .input => t.inputVars
  | .var, .capture => t.capturedVars
  | .var, .declare => t.declaredVars
  | .stretch, .capture => t.capturedStretches
  | .stretch, .declare => t.declaredStretches
  | .stretch, .input => 0

theorem counter_insert (hinput : kind = .input → i.sort = .var) (sort : IdentifierSort)
    (k : IdentifierKind) : (t.insert i kind).counter sort k =
      t.counter sort k + if i.sort = sort ∧ kind = k then 1 else 0 := by
  cases i with
  | var v => cases kind <;> cases sort <;> cases k <;> rfl
  | stretch s =>
    cases kind with
    | input => cases hinput rfl
    | capture | declare => cases sort <;> cases k <;> rfl

/-- Entries under their own names, each name once, that go together and are counted right. -/
structure Tallied (t : IdentifierTable) : Prop extends Listed t, Admissible t.toList where
  counts : ∀ sort kind, t.counter sort kind = tally t.toList sort kind

namespace Tallied

theorem of_empty : empty.Tallied where
  toListed := listed_empty
  toAdmissible := .nil
  counts sort kind := by cases sort <;> cases kind <;> rfl

/-- The counts tell whether there are inputs and whether there are captures. -/
theorem accounted (h : t.Tallied) : t.Accounted where
  named := h.names_toList
  inputs := by
    rw [show t.inputVars = tally t.toList .var .input from h.counts .var .input, tally_pos_iff]
    exact exists_congr fun e => and_congr_right fun he => and_iff_right_of_imp (h.inputs e he)
  captures := by
    have hcaptures : t.captures = tally t.toList .var .capture + tally t.toList .stretch .capture :=
      congrArg₂ (· + ·) (h.counts .var .capture) (h.counts .stretch .capture)
    rw [hcaptures, Nat.add_pos_iff_pos_or_pos, tally_pos_iff, tally_pos_iff]
    constructor
    · rintro (⟨e, he, -, hkind⟩ | ⟨e, he, -, hkind⟩) <;> exact ⟨e, he, hkind⟩
    · rintro ⟨e, he, hkind⟩
      cases hsort : e.1.sort with
      | var => exact .inl ⟨e, he, hsort, hkind⟩
      | stretch => exact .inr ⟨e, he, hsort, hkind⟩
  admissible := h.toAdmissible

theorem insert (h : t.Tallied) (hcheck : t.check i kind = .ok ()) : (t.insert i kind).Tallied := by
  have hnone := get?_eq_none_of_check hcheck
  have hlist : (t.insert i kind).toList = t.toList ++ [(i, kind)] := toList_insert hnone
  have hadmissible := h.accounted.check_iff (e := (i, kind)) |>.1 hcheck
  refine ⟨h.toListed.insert hnone kind, hlist ▸ hadmissible, fun sort k => ?_⟩
  have hinput : kind = .input → i.sort = .var := fun hin => ((check_eq_ok_iff.1 hcheck).2.1 hin).1
  rw [counter_insert hinput, hlist, tally_snoc, h.counts]

/-- So it is for as many as come in. -/
theorem addedAll (h : t.Tallied) (hu : t.addedAll l = .ok u) : u.Tallied := by
  induction l generalizing t with
  | nil =>
    cases hu
    exact h
  | cons e rest ih =>
    obtain ⟨v, hv, hrest⟩ := Checking.bind_eq_ok_iff.1 hu
    obtain ⟨hcheck, rfl⟩ := added_eq_ok_iff.1 hv
    exact ih (h.insert hcheck) hrest

/-- All of them come in exactly if they go together with those that are there. -/
theorem addedAll_answers_iff (h : t.Tallied) :
    (∃ u, t.addedAll l = .ok u) ↔ Admissible (t.toList ++ l) := by
  constructor
  · rintro ⟨u, hu⟩
    rw [← toList_addedAll hu]
    exact (h.addedAll hu).toAdmissible
  · exact fun hl => ⟨_, (h.accounted.addedAll_ok hl).1⟩

/-- One more is refused for a name that is taken, for being a stretch as an input, and for being an
input beside captures or a capture beside inputs. -/
theorem add_refused_iff (h : t.Tallied) : (∃ e u, add i kind t = .error e u) ↔
    i.name ∈ t.toList.map (·.1.name) ∨ (i.sort = .stretch ∧ kind = .input) ∨
      (kind = .input ∧ ∃ e ∈ t.toList, e.2 = .capture) ∨
      (kind = .capture ∧ ∃ e ∈ t.toList, e.2 = .input) := by
  have hanswers : (∃ e u, add i kind t = .error e u) ↔ ¬ t.check i kind = .ok () := by
    unfold add
    simp only [Edit.update_eq_error_iff, exists_and_left, exists_eq', and_true]
    unfold added
    cases t.check i kind <;> simp [bind, Except.bind, pure, Except.pure]
  have hcheck : t.check i kind = .ok () ↔ _ :=
    (h.accounted.check_iff (e := (i, kind))).trans h.toAdmissible.snoc_iff
  rw [hanswers, hcheck]
  have hsort : i.sort = .stretch ↔ ¬ i.sort = .var := by cases i <;> simp [Identifier.sort]
  clear hanswers hcheck
  grind

end Tallied

/-- To send identifiers through a function is to add the images to an empty table. -/
theorem map_eq_addedAll :
    t.map f = empty.addedAll (t.toList.map fun e => (f e.1, e.2)) := by
  unfold map addedAll
  rw [List.foldlM_map]

/-- The images come in exactly if they go together. -/
theorem map_answers_iff :
    (∃ u, t.map f = .ok u) ↔ Admissible (t.toList.map fun e => (f e.1, e.2)) := by
  rw [map_eq_addedAll]
  exact Tallied.of_empty.addedAll_answers_iff

/-! ## All that can be made -/

/-- What can come of the empty table. -/
inductive Made : IdentifierTable → Prop
  | empty : Made .empty
  /-- The identifier has come in or has been refused. -/
  | add {t u : IdentifierTable} (i : Identifier) (kind : IdentifierKind) : Made t →
      (IdentifierTable.add i kind).Leaves t u → Made u
  | asCaptures {t : IdentifierTable} : Made t → Made t.asCaptures
  | map {t u : IdentifierTable} (f : Identifier → Identifier) : Made t → t.map f = .ok u → Made u

theorem Made.tallied (h : t.Made) : t.Tallied := by
  induction h with
  | empty => exact .of_empty
  | add i kind _ hu ih =>
    rcases hu with ⟨⟨⟩, hu⟩ | ⟨e, hu⟩
    · obtain ⟨hcheck, rfl⟩ := added_eq_ok_iff.1 (Edit.update_eq_ok_iff.1 hu)
      exact ih.insert hcheck
    · exact (Edit.update_eq_error_iff.1 hu).2 ▸ ih
  | asCaptures _ ih => exact Tallied.of_empty.addedAll (addedAll_asCaptures ih.names).1
  | map f _ hu ih => exact Tallied.of_empty.addedAll (map_eq_addedAll ▸ hu)

/-- In every table that can be made the entries go together and are counted right. What comes in
goes to the end, and what is refused changes nothing; it is refused for the four reasons that there
are. Images come in in order and each as before, unless two have one name or one that is an input
is a stretch. -/
theorem Made.counts_entries (h : t.Made) :
    t.Tallied ∧
    t.inputVars + t.capturedVars + t.capturedStretches + t.declaredVars + t.declaredStretches =
      t.size ∧
    (∀ i kind,
      ((∃ e u, IdentifierTable.add i kind t = .error e u) ↔
        i.name ∈ t.toList.map (·.1.name) ∨ (i.sort = .stretch ∧ kind = .input) ∨
          (kind = .input ∧ ∃ e ∈ t.toList, e.2 = .capture) ∨
          (kind = .capture ∧ ∃ e ∈ t.toList, e.2 = .input)) ∧
      (∀ e u, IdentifierTable.add i kind t = .error e u → u = t) ∧
      ∀ u, IdentifierTable.add i kind t = .ok () u → u.toList = t.toList ++ [(i, kind)]) ∧
    ∀ f,
      ((∃ u, t.map f = .ok u) ↔ (t.toList.map fun e => (f e.1).name).Nodup ∧
        ∀ e ∈ t.toList, e.2 = .input → (f e.1).sort = .var) ∧
      ∀ u, t.map f = .ok u → u.toList = t.toList.map fun e => (f e.1, e.2) := by
  have htallied := h.tallied
  refine ⟨htallied, ?_, fun i kind => ⟨htallied.add_refused_iff, ?_, ?_⟩, fun f => ⟨?_, ?_⟩⟩
  · have hsum := sum_tally t.toList
    simp only [← htallied.counts, counter, Nat.add_zero] at hsum
    rw [hsum, toList, List.length_map]
    rfl
  · exact fun e u hu => (Edit.update_eq_error_iff.1 hu).2.symm
  · intro u hu
    obtain ⟨hcheck, rfl⟩ := added_eq_ok_iff.1 (Edit.update_eq_ok_iff.1 hu)
    exact toList_insert (get?_eq_none_of_check hcheck)
  · rw [map_answers_iff]
    have hnames : (t.toList.map fun e => (f e.1, e.2)).map (·.1.name) =
        t.toList.map fun e => (f e.1).name := List.map_map
    constructor
    · exact fun hall => ⟨hnames ▸ hall.names, List.forall_mem_map.1 hall.inputs⟩
    · rintro ⟨hnodup, hinputs⟩
      -- the kinds are those of the table, where inputs and captures are apart already
      exact ⟨hnames.symm ▸ hnodup, List.forall_mem_map.2 hinputs,
        List.forall_mem_map.2 fun e he => List.forall_mem_map.2 (htallied.apart e he)⟩
  · intro u hu
    exact toList_addedAll (map_eq_addedAll ▸ hu)

/-- A variable and a stretch, turned into captures. -/
def twoCaptures : IdentifierTable :=
  ((empty.insert (.var ⟨"a", .bool, ⟨0, 0⟩⟩) .declare).insert (.stretch ⟨"s", ⟨0, 1⟩⟩)
    .declare).asCaptures

/-- No input goes with them, they cannot both be sent to one identifier, and to change only the
names keeps them captures. -/
theorem twoCaptures_counts : twoCaptures.Made ∧ twoCaptures.Tallied ∧ twoCaptures.size = 2 ∧
    (∃ e u, add (.var ⟨"b", .bool, ⟨0, 2⟩⟩) .input twoCaptures = .error e u) ∧
    (¬ ∃ u, twoCaptures.map (fun _ => .var ⟨"b", .bool, ⟨0, 2⟩⟩) = .ok u) ∧
    ∃ u, twoCaptures.map (fun i => i.renamed (i.name ++ "1") ⟨1, 0⟩) = .ok u ∧
      u.toList = [(.var ⟨"a1", .bool, ⟨1, 0⟩⟩, .capture), (.stretch ⟨"s1", ⟨1, 0⟩⟩, .capture)] := by
  have hvar := Made.empty.add (.var ⟨"a", .bool, ⟨0, 0⟩⟩) .declare (.inl ⟨(), rfl⟩)
  have hmade : twoCaptures.Made :=
    .asCaptures (hvar.add (.stretch ⟨"s", ⟨0, 1⟩⟩) .declare (.inl ⟨(), rfl⟩))
  obtain ⟨htallied, -, hadd, hmap⟩ := hmade.counts_entries
  refine ⟨hmade, htallied, rfl, ?_, ?_, ?_⟩
  · exact (hadd _ _).1.2 (.inr (.inr (.inl ⟨rfl, _, List.mem_cons_self, rfl⟩)))
  · exact fun h => absurd ((hmap _).1.1 h).1 (by decide)
  · obtain ⟨u, hu⟩ := (hmap fun i => i.renamed (i.name ++ "1") ⟨1, 0⟩).1.2
      ⟨by decide, by decide⟩
    exact ⟨u, hu, ((hmap _).2 u hu).trans rfl⟩

end IdentifierTable

/-- The identifiers of a built store are such a table. -/
theorem Content.made_invariant : Invariant .any fun c => c.identifiers.Made :=
  .of_identifiers .empty
    (fun _ _ i kind ht hu => .add i kind ht (.inl ⟨(), Edit.update_eq_ok_iff.2 hu⟩))
    fun _ ht => .asCaptures ht

end QuantumCircuit
