import QuantumCircuit.Proofs.Growing

/-!
# How long the cached duration lasts

The total duration is noted beside the records it was computed for. A call that adds or takes away
a record drops it, so that it is either gone or stands beside the same records
(`Content.UpToDate`), and so it is after any number of such calls (`Circuit.Later.upToDate`).

Assignments are the exception: they rewrite the records where they stand and leave the duration
alone. `Circuit.Action.duration_of_changed` is what is left of it whenever records have changed.
-/

namespace QuantumCircuit

namespace Content

variable {b c d : Content}

/-- The duration is gone, or it is the one of `b` and the records are still those of `b`. -/
def UpToDate (b c : Content) : Prop :=
  c.duration = none ∨ c.duration = b.duration ∧ c.records = b.records

theorem UpToDate.refl (c : Content) : c.UpToDate c := .inr ⟨rfl, rfl⟩

theorem UpToDate.trans (h : b.UpToDate c) (h' : c.UpToDate d) : b.UpToDate d := by
  rcases h' with hgone | ⟨hduration, hrecords⟩
  · exact .inl hgone
  · rcases h with hgone | ⟨hduration', hrecords'⟩
    · exact .inl (hduration.trans hgone)
    · exact .inr ⟨hduration.trans hduration', hrecords.trans hrecords'⟩

/-- When the records are no longer the same the duration is gone. -/
theorem UpToDate.none_of_changed (h : c.UpToDate d) (hchanged : d.records ≠ c.records) :
    d.duration = none := by
  rcases h with hgone | ⟨-, hsame⟩
  · exact hgone
  · exact absurd hsame hchanged

@[simp] theorem bitFocus_set_duration {k : BitKind} (l : BitList k) (c : Content) :
    ((bitFocus k).set l c).duration = c.duration := by
  cases k <;> rfl

/-! ## Calls on the store -/

theorem upToDate_of_setBits {k : BitKind} (l : BitList k) :
    c.UpToDate ((bitFocus k).set l c) :=
  .inr ⟨bitFocus_set_duration l c, bitFocus_set_records l c⟩

theorem addBit_upToDate {k : BitKind} {bit : Bit k} (h : (addBit bit).Leaves c d) :
    c.UpToDate d := by
  obtain ⟨l, rfl⟩ := addBit_leaves h
  exact upToDate_of_setBits l

theorem addRegister_upToDate {k : BitKind} {r : Register k} (h : (addRegister r).Leaves c d) :
    c.UpToDate d := by
  obtain ⟨l, rfl⟩ := addRegister_leaves h
  exact upToDate_of_setBits l

theorem addIdentifier_upToDate {i : Identifier} {kind : IdentifierKind}
    (h : (addIdentifier i kind).Leaves c d) : c.UpToDate d := by
  obtain ⟨t, rfl⟩ := addIdentifier_leaves h
  exact .inr ⟨rfl, rfl⟩

theorem push_upToDate {i : Instruction} (h : (push i).Leaves c d) : c.UpToDate d := by
  rcases push_leaves_iff.1 h with ⟨-, rfl⟩ | ⟨-, rfl⟩
  · exact .inl rfl
  · exact .refl _

theorem insertFront_upToDate {front : List Instruction} (h : (insertFront front).Leaves c d) :
    c.UpToDate d := by
  rcases insertFront_leaves h with ⟨rfl, -⟩ | rfl
  · exact .inl rfl
  · exact .refl _

theorem setPhase_upToDate {phase : Angle} (h : (setPhase phase).Leaves c d) : c.UpToDate d := by
  rcases setPhase_leaves h with rfl | rfl
  · exact .inr ⟨rfl, rfl⟩
  · exact .inr ⟨rfl, rfl⟩

theorem pop?_upToDate {i : Instruction} (h : c.pop? = some (i, d)) : c.UpToDate d := by
  obtain ⟨-, rfl⟩ := pop?_eq_some_iff.1 h
  exact .inl rfl

/-- An assignment keeps the duration, whatever becomes of the records. -/
theorem assign_duration {s : Binding Float} (h : c.assign s = .ok d) :
    d.duration = c.duration := by
  obtain ⟨-, assigned, -, rfl⟩ := assign_eq_ok_iff.1 h
  obtain ⟨_, _, heq⟩ := c.exists_reassigned_eq s assigned
  rw [heq]

theorem assignParameters_keeps_duration {s : Binding Float} {strict : Bool}
    {t : Option UInt64} : (assignParameters s strict).Keeps fun c => c.duration = t := by
  intro c d hc hd
  rcases assignParameters_leaves hd with hd | rfl
  · exact (assign_duration hd).trans hc
  · exact hc

theorem assignValues_keeps_duration {values : List Angle} {t : Option UInt64} :
    (assignValues values).Keeps fun c => c.duration = t :=
  .read fun _ => (Edit.Keeps.ofExcept _).bind fun _ => assignParameters_keeps_duration

theorem assignNamed_keeps_duration {values : List (String × Angle)} {t : Option UInt64} :
    (assignNamed values).Keeps fun c => c.duration = t :=
  .read fun _ => (Edit.Keeps.ofExcept _).bind fun _ => assignParameters_keeps_duration

namespace Call

/-- Whether the call rewrites records where they stand. -/
def assigns : Call → Bool
  | assign _ _ => true
  | _ => false

/-- Whether the call notes a duration. -/
def notesDuration : Call → Bool
  | setDuration _ => true
  | _ => false

/-- A call that neither assigns nor notes a duration leaves one only with the records. -/
theorem upToDate {k : Call} (h : k.run.Leaves c d) (hassigns : k.assigns = false)
    (hnotes : k.notesDuration = false) : c.UpToDate d := by
  cases k with
  | addBit kind bit =>
    exact addBit_upToDate (leaves_addBit_iff.1 h)
  | addRegister kind r => exact addRegister_upToDate h
  | addIdentifier i kind => exact addIdentifier_upToDate h
  | push i => exact push_upToDate h
  | insertFront front => exact insertFront_upToDate h
  | pop =>
    rcases leaves_pop h with rfl | ⟨i, hp⟩
    · exact .refl _
    · exact pop?_upToDate hp
  | clear | copyEmpty mode =>
    cases Edit.leaves_modify_iff.1 h
    exact .inl rfl
  | setPhase phase => exact setPhase_upToDate h
  | setDuration t => cases hnotes
  | listParameters =>
    obtain rfl := leaves_listParameters_iff.1 h
    exact .inr ⟨rfl, rfl⟩
  | assign s strict => cases hassigns

end Call

end Content

namespace Circuit

variable {c d : Circuit}

/-- Adding to a store keeps the duration only as long as the records. -/
theorem growth_upToDate (b : Content) : Growth (fun _ => True) b.UpToDate where
  addBit _ _ _ hc hd := hc.trans (Content.addBit_upToDate hd)
  addClassical _ _ _ hc hd := hc.trans (Content.addRegister_upToDate hd)
  addIdentifier _ _ _ _ _ hc hd := hc.trans (Content.addIdentifier_upToDate hd)
  push _ _ _ hc hd := hc.trans (Content.push_upToDate hd)
  insertFront _ _ _ hc hd := hc.trans (Content.insertFront_upToDate hd)
  setPhase _ _ _ hc hd := hc.trans (Content.setPhase_upToDate hd)

/-! ## Whatever is done to a circuit -/

namespace Action

/-- Whether it rewrites records where they stand. -/
def assigns : Action → Bool
  | call (.store k) => k.assigns
  | assignValues _ | assignNamed _ => true
  | _ => false

/-- Whether it notes a duration. -/
def notesDuration : Action → Bool
  | call (.store k) => k.notesDuration
  | _ => false

variable {k : Action}

/-- All that neither assigns nor notes a duration leaves one only with the records. -/
theorem upToDate (h : k.run.Leaves c d) (hassigns : k.assigns = false)
    (hnotes : k.notesDuration = false) : c.content.UpToDate d.content := by
  by_cases hstore : k.onStore = true
  · obtain ⟨u, rfl, ⟨s, rfl, hu⟩ | ⟨values, rfl, -⟩ | ⟨values, rfl, -⟩⟩ :=
      leaves_of_onStore hstore h
    · exact Content.Call.upToDate hu hassigns hnotes
    · cases hassigns
    · cases hassigns
  · have hadds : k.onStore = false := by simpa using hstore
    exact (growth_upToDate c.content).act hadds (fun _ _ => trivial) c d (.refl _) h

/-- An assignment in any form keeps the duration. -/
theorem duration_of_assigns (h : k.run.Leaves c d) (hassigns : k.assigns = true) :
    d.content.duration = c.content.duration := by
  match k, hassigns with
  | .call (.store (.assign s strict)), _ =>
    obtain ⟨u, hu, rfl⟩ := Edit.leaves_within_iff.1 h
    exact Content.assignParameters_keeps_duration _ u rfl hu
  | .assignValues values, _ =>
    obtain ⟨u, hu, rfl⟩ := Edit.leaves_within_iff.1 h
    exact Content.assignValues_keeps_duration _ u rfl hu
  | .assignNamed values, _ =>
    obtain ⟨u, hu, rfl⟩ := Edit.leaves_within_iff.1 h
    exact Content.assignNamed_keeps_duration _ u rfl hu

/-- Noting a duration does not touch the records. -/
theorem records_of_notesDuration (h : k.run.Leaves c d) (hnotes : k.notesDuration = true) :
    d.content.records = c.content.records := by
  match k, hnotes with
  | .call (.store (.setDuration t)), _ =>
    have hwithin : (Edit.within contentFocus (modify (Content.setDuration t)) :
      Edit Circuit Unit).Leaves c d := h
    obtain ⟨u, hu, rfl⟩ := Edit.leaves_within_iff.1 hwithin
    cases Edit.leaves_modify_iff.1 hu
    rfl

/-- Whatever is done to a circuit, answered or refused: if the records are not what they were, the
duration is gone, unless it was an assignment; then it is what it was, and no longer that of the
records. -/
theorem duration_of_changed (h : k.run.Leaves c d)
    (hchanged : d.content.records ≠ c.content.records) :
    d.content.duration = if k.assigns then c.content.duration else none := by
  by_cases hassigns : k.assigns = true
  · rw [if_pos hassigns]
    exact duration_of_assigns h hassigns
  · rw [if_neg hassigns]
    by_cases hnotes : k.notesDuration = true
    · exact absurd (records_of_notesDuration h hnotes) hchanged
    · have hkept := upToDate h (by simpa using hassigns) (by simpa using hnotes)
      exact hkept.none_of_changed hchanged

end Action

/-- A rotation by `x`, for which a duration of 100 has been noted. -/
def timedRotation : Circuit :=
  ⟨"c", Content.empty.after
    [.addBit .quantum (.loose .quantum ⟨1, 0⟩),
      .push (.make (.gate (.rotation .rz (.sym ⟨"x", ⟨0, 0⟩, none⟩))) [0] []),
      .setDuration (some 100)], []⟩

theorem timedRotation_reachable : timedRotation.Reachable .any :=
  .ofStore "c" (Content.Built.empty.after_of_circuits fun _ he => absurd he List.not_mem_nil)

/-- When a gate is added the duration is gone. -/
theorem duration_of_gate_added : ∃ d,
    (Action.call (.append (.make (.gate (.fixed .h)) [0] []))).run timedRotation = .ok () d ∧
      timedRotation.content.duration = some 100 ∧
      d.content.records ≠ timedRotation.content.records ∧ d.content.duration = none := by
  obtain ⟨d, hd, hlength⟩ : ∃ d,
      (Action.call (.append (.make (.gate (.fixed .h)) [0] []))).run timedRotation = .ok () d ∧
        d.content.records.length = 2 := ⟨_, rfl, by decide +kernel⟩
  have hchanged : d.content.records ≠ timedRotation.content.records := fun hsame => by
    rw [hsame] at hlength
    exact absurd hlength (by decide +kernel)
  exact ⟨d, hd, by decide +kernel, hchanged,
    Action.duration_of_changed (.of_ok hd) hchanged⟩

/-- When a number is assigned to `x` the record is another one, and the duration is still there. -/
theorem duration_outlives_assignment : timedRotation.Reachable .any ∧ ∃ d,
    (Action.call (.store (.assign [(⟨"x", ⟨0, 0⟩, none⟩, .const 1)] true))).run timedRotation =
        .ok () d ∧
      d.content.records ≠ timedRotation.content.records ∧ d.content.duration = some 100 := by
  obtain ⟨d, hd, hfree, hduration⟩ : ∃ d,
      (Action.call (.store (.assign [(⟨"x", ⟨0, 0⟩, none⟩, .const 1)] true))).run timedRotation =
          .ok () d ∧
        d.content.records.map (·.operation.freeParameters) = [[]] ∧
        d.content.duration = some 100 :=
    ⟨_, rfl, by decide +kernel, by decide +kernel⟩
  refine ⟨timedRotation_reachable, d, hd, fun hsame => ?_, hduration⟩
  rw [hsame] at hfree
  exact absurd hfree (by decide +kernel)

/-! ## Runs -/

/-- The circuits that come of `c` without an assignment or a new duration, blocks being opened
and closed at will. -/
inductive Later (c : Circuit) : Circuit → Prop
  | here : Later c c
  | act {d e : Circuit} (k : Action) : Later c d → k.assigns = false → k.notesDuration = false →
      k.run.Leaves d e → Later c e
  | blocks {d : Circuit} (blocks : List Block) : Later c d → Later c { d with blocks }

/-- As long as nothing is assigned a duration is there only beside the records it was noted for. -/
theorem Later.upToDate (h : c.Later d) : c.content.UpToDate d.content := by
  induction h with
  | here => exact .refl _
  | act k _ hassigns hnotes hrun ih => exact ih.trans (k.upToDate hrun hassigns hnotes)
  | blocks blocks _ ih => exact ih

end Circuit

end QuantumCircuit
