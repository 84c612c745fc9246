import QuantumCircuit.Error

/-!
# Edits

An edit is a call on a state that either answers or is refused with a cause,
and leaves a state behind in both cases. That a refused edit leaves the state
as it was is therefore a fact to prove of each edit, not a matter of form.

The lemmas say when each way of building an edit answers and when it is refused,
and what state it leaves behind.
-/

namespace QuantumCircuit

/-- A call on a state of type `σ` that answers with an `α`. -/
abbrev Edit (σ α : Type) := EStateM CircuitError σ α

/-- A part of a larger state, with a way to read it and a way to replace it. -/
structure Focus (σ τ : Type) where
  get : σ → τ
  set : τ → σ → σ

/-- The whole state as its own part. -/
def Focus.whole {σ : Type} : Focus σ σ := ⟨id, fun s _ => s⟩

namespace Edit

variable {σ τ α β : Type}

/-- A check or a computation that changes nothing. -/
def ofExcept (r : Except CircuitError α) : Edit σ α := fun s =>
  match r with
  | .ok a => .ok a s
  | .error e => .error e s

/-- Replace the state by what `f` makes of it; a refusal leaves it as it was. -/
def update (f : σ → Except CircuitError σ) : Edit σ Unit := fun s =>
  match f s with
  | .ok s' => .ok () s'
  | .error e => .error e s

/-- The edit of a part as an edit of the whole. -/
def within (f : Focus σ τ) (e : Edit τ α) : Edit σ α := fun s =>
  match e (f.get s) with
  | .ok a t => .ok a (f.set t s)
  | .error c t => .error c (f.set t s)

/-- Make the edit only if the condition holds. -/
def onlyIf (condition : Bool) (e : Edit σ Unit) : Edit σ Unit := if condition then e else pure ()

/-- The state after the edit, from `s`. -/
def finalState (e : Edit σ Unit) (s : σ) : Except CircuitError σ :=
  match e s with
  | .ok _ s' => .ok s'
  | .error c _ => .error c

/-- The edits one after another, stopping at the first refusal. -/
def each (f : α → Edit σ Unit) : List α → Edit σ Unit
  | [] => pure ()
  | a :: rest => do
    f a
    each f rest

theorem bind_eq_ok_iff {e : Edit σ α} {k : α → Edit σ β} {s t : σ} {b : β} :
    (e >>= k) s = .ok b t ↔ ∃ a u, e s = .ok a u ∧ k a u = .ok b t := by
  show EStateM.bind e k s = _ ↔ _
  unfold EStateM.bind
  cases e s <;> simp [and_assoc]

theorem bind_eq_error_iff {e : Edit σ α} {k : α → Edit σ β} {s t : σ} {c : CircuitError} :
    (e >>= k) s = .error c t ↔
      e s = .error c t ∨ ∃ a u, e s = .ok a u ∧ k a u = .error c t := by
  show EStateM.bind e k s = _ ↔ _
  unfold EStateM.bind
  cases e s <;> simp [and_assoc]

/-- After an edit that answers it is for the rest to go on. -/
theorem bind_apply_of_ok {e : Edit σ α} {k : α → Edit σ β} {s t : σ} {a : α}
    (h : e s = .ok a t) : (e >>= k) s = k a t := by
  show EStateM.bind e k s = _
  unfold EStateM.bind
  rw [h]

/-- What follows an edit matters at the answers and states that the edit has. -/
theorem bind_congr_of_ok {e : Edit σ α} {k l : α → Edit σ β} {s : σ}
    (h : ∀ a t, e s = .ok a t → k a t = l a t) : (e >>= k) s = (e >>= l) s := by
  show EStateM.bind e k s = EStateM.bind e l s
  unfold EStateM.bind
  cases he : e s with
  | ok a t => exact h a t he
  | error c t => rfl

theorem ofExcept_eq_ok_iff {r : Except CircuitError α} {s t : σ} {a : α} :
    (ofExcept r : Edit σ α) s = .ok a t ↔ r = .ok a ∧ s = t := by
  cases r <;> simp [ofExcept]

theorem ofExcept_eq_error_iff {r : Except CircuitError α} {s t : σ} {c : CircuitError} :
    (ofExcept r : Edit σ α) s = .error c t ↔ r = .error c ∧ s = t := by
  cases r <;> simp [ofExcept]

theorem ofExcept_bind (r : Except CircuitError α) (f : α → Except CircuitError β) :
    (ofExcept (r >>= f) : Edit σ β) = ofExcept r >>= fun a => ofExcept (f a) := by
  cases r <;> rfl

/-- What comes after a check or a computation is done if that answers. -/
theorem ofExcept_bind_eq_ok_iff {r : Except CircuitError α} {k : α → Edit σ β} {s t : σ} {b : β} :
    ((ofExcept r : Edit σ α) >>= k) s = .ok b t ↔ ∃ a, r = .ok a ∧ k a s = .ok b t := by
  rw [bind_eq_ok_iff]
  simp only [ofExcept_eq_ok_iff]
  constructor
  · rintro ⟨a, u, ⟨hr, rfl⟩, hk⟩
    exact ⟨a, hr, hk⟩
  · rintro ⟨a, hr, hk⟩
    exact ⟨a, s, ⟨hr, rfl⟩, hk⟩

theorem update_eq_ok_iff {f : σ → Except CircuitError σ} {s t : σ} :
    update f s = .ok () t ↔ f s = .ok t := by
  unfold update
  cases f s <;> simp

/-- A refused update leaves the state as it was. -/
theorem update_eq_error_iff {f : σ → Except CircuitError σ} {s t : σ} {c : CircuitError} :
    update f s = .error c t ↔ f s = .error c ∧ s = t := by
  unfold update
  cases f s <;> simp

theorem within_eq_ok_iff {f : Focus σ τ} {e : Edit τ α} {s t : σ} {a : α} :
    within f e s = .ok a t ↔ ∃ u, e (f.get s) = .ok a u ∧ f.set u s = t := by
  unfold within
  cases e (f.get s) <;> simp [and_assoc]

/-- What an edit of a part comes to when there is a condition on which it answers, and what it
leaves is known. -/
theorem within_eq_ok_iff_of {f : Focus σ τ} {e : Edit τ α} {s t : σ} {a : α} {left : τ} {P : Prop}
    (he : ∀ u, e (f.get s) = .ok a u ↔ P ∧ u = left) :
    within f e s = .ok a t ↔ P ∧ t = f.set left s := by
  rw [within_eq_ok_iff]
  constructor
  · rintro ⟨u, hu, rfl⟩
    obtain ⟨hP, rfl⟩ := (he u).1 hu
    exact ⟨hP, rfl⟩
  · rintro ⟨hP, rfl⟩
    exact ⟨left, (he left).2 ⟨hP, rfl⟩, rfl⟩

theorem within_eq_error_iff {f : Focus σ τ} {e : Edit τ α} {s t : σ} {c : CircuitError} :
    within f e s = .error c t ↔ ∃ u, e (f.get s) = .error c u ∧ f.set u s = t := by
  unfold within
  cases e (f.get s) <;> simp [and_assoc]

/-- To edit a part on a condition is to edit it by an edit on that condition. -/
theorem onlyIf_within_apply {f : Focus σ τ} {b : Bool} {e : Edit τ Unit} {s : σ}
    (h : f.set (f.get s) s = s) : onlyIf b (within f e) s = within f (onlyIf b e) s := by
  cases b with
  | true => rfl
  | false =>
    show EStateM.Result.ok () s = .ok () (f.set (f.get s) s)
    rw [h]

theorem finalState_eq_ok_iff {e : Edit σ Unit} {s t : σ} :
    e.finalState s = .ok t ↔ e s = .ok () t := by
  unfold finalState
  cases e s <;> simp

theorem finalState_eq_error_iff {e : Edit σ Unit} {s : σ} {c : CircuitError} :
    e.finalState s = .error c ↔ ∃ t, e s = .error c t := by
  unfold finalState
  cases e s <;> simp

theorem each_append (f : α → Edit σ Unit) (xs ys : List α) :
    each f (xs ++ ys) = (each f xs >>= fun _ => each f ys) := by
  induction xs with
  | nil => rfl
  | cons x rest ih => simp only [List.cons_append, each, ih, bind_assoc]

/-- Of two lists the second is gone through from where the first ends well. -/
theorem each_append_of_ok {f : α → Edit σ Unit} {xs ys : List α} {s t : σ}
    (h : each f xs s = .ok () t) : each f (xs ++ ys) s = each f ys t := by
  rw [each_append, bind_apply_of_ok h]

/-- A refusal of one after another is that of the first member that is refused. -/
theorem each_eq_error_iff {f : α → Edit σ Unit} {xs : List α} {s t : σ} {c : CircuitError} :
    each f xs s = .error c t ↔ ∃ before x after u, xs = before ++ x :: after ∧
      each f before s = .ok () u ∧ f x u = .error c t := by
  constructor
  · intro h
    induction xs generalizing s with
    | nil => cases h
    | cons y rest ih =>
      rcases bind_eq_error_iff.1 h with h | ⟨⟨⟩, u, hy, h⟩
      · exact ⟨[], y, rest, s, rfl, rfl, h⟩
      · obtain ⟨before, x, after, v, rfl, hbefore, hx⟩ := ih h
        exact ⟨y :: before, x, after, v, rfl, bind_eq_ok_iff.2 ⟨(), u, hy, hbefore⟩, hx⟩
  · rintro ⟨before, x, after, u, rfl, hbefore, hx⟩
    rw [each_append_of_ok hbefore]
    exact bind_eq_error_iff.2 (.inl hx)

theorem answers_of_isOk {e : Edit σ Unit} {s : σ} (h : (e.finalState s).isOk = true) :
    ∃ t, e s = .ok () t := by
  unfold finalState at h
  cases hrun : e s with
  | ok a t => exact ⟨t, rfl⟩
  | error c t => simp [hrun, Except.isOk, Except.toBool] at h

end Edit

end QuantumCircuit
