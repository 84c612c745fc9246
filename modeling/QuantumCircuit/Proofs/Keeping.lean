import QuantumCircuit.Circuit.Basic
import QuantumCircuit.Edit

/-!
# What an edit leaves behind

An edit leaves one state behind, whether it answers or is refused. A property
is kept by an edit when it holds of what the edit leaves whenever it held
before. Properties kept by the parts of an edit are kept by the whole
(`Keeps.bind`, `Keeps.each`, `Keeps.within`), so an invariant of a long call is
read off the short calls it is made of.
-/

namespace QuantumCircuit.Edit

variable {σ τ α β : Type} {P : σ → Prop} {e : Edit σ α} {k : α → Edit σ β} {s t : σ}

/-- Made on `s`, the edit leaves the state `t` behind. -/
def Leaves (e : Edit σ α) (s t : σ) : Prop :=
  (∃ a, e s = .ok a t) ∨ ∃ c, e s = .error c t

/-- The state that the edit leaves behind. -/
def leftBy (e : Edit σ α) (s : σ) : σ :=
  match e s with
  | .ok _ t => t
  | .error _ t => t

/-- What the edit leaves behind has the property if the state before had it. -/
def Keeps (P : σ → Prop) (e : Edit σ α) : Prop := ∀ s t, P s → e.Leaves s t → P t

theorem leaves_iff : e.Leaves s t ↔ t = e.leftBy s := by
  unfold Leaves leftBy
  cases e s <;> simp [eq_comm]

theorem leaves_bind_iff :
    (e >>= k).Leaves s t ↔
      (∃ c, e s = .error c t) ∨ ∃ a u, e s = .ok a u ∧ (k a).Leaves u t := by
  simp only [Leaves, bind_eq_ok_iff, bind_eq_error_iff]
  constructor
  · rintro (⟨b, a, u, he, hk⟩ | ⟨c, he | ⟨a, u, he, hk⟩⟩)
    · exact .inr ⟨a, u, he, .inl ⟨b, hk⟩⟩
    · exact .inl ⟨c, he⟩
    · exact .inr ⟨a, u, he, .inr ⟨c, hk⟩⟩
  · rintro (⟨c, he⟩ | ⟨a, u, he, ⟨b, hk⟩ | ⟨c, hk⟩⟩)
    · exact .inr ⟨c, .inl he⟩
    · exact .inl ⟨b, a, u, he, hk⟩
    · exact .inr ⟨c, .inr ⟨a, u, he, hk⟩⟩

@[simp] theorem leaves_pure_iff {a : α} : (pure a : Edit σ α).Leaves s t ↔ t = s := by
  constructor
  · rintro (⟨b, h⟩ | ⟨c, h⟩) <;> cases h
    rfl
  · rintro rfl
    exact .inl ⟨a, rfl⟩

@[simp] theorem leaves_throw_iff {c : CircuitError} :
    (throw c : Edit σ α).Leaves s t ↔ t = s := by
  constructor
  · rintro (⟨b, h⟩ | ⟨c, h⟩) <;> cases h
    rfl
  · rintro rfl
    exact .inr ⟨c, rfl⟩

/-- A check or a computation leaves the state as it was. -/
@[simp] theorem leaves_ofExcept_iff {r : Except CircuitError α} :
    (ofExcept r : Edit σ α).Leaves s t ↔ t = s := by
  cases r <;> simp [Leaves, ofExcept, eq_comm]

/-- What comes after a check or a computation is done where that was done, if it answers. -/
theorem leaves_ofExcept_bind_iff {r : Except CircuitError α} :
    ((ofExcept r : Edit σ α) >>= k).Leaves s t ↔
      (∃ a, r = .ok a ∧ (k a).Leaves s t) ∨ (∃ c, r = .error c) ∧ t = s := by
  rw [leaves_bind_iff, or_comm]
  simp only [ofExcept_eq_ok_iff, ofExcept_eq_error_iff]
  refine or_congr ⟨?_, ?_⟩ ⟨?_, ?_⟩
  · rintro ⟨a, u, ⟨hr, rfl⟩, hk⟩
    exact ⟨a, hr, hk⟩
  · rintro ⟨a, hr, hk⟩
    exact ⟨a, s, ⟨hr, rfl⟩, hk⟩
  · rintro ⟨c, hr, rfl⟩
    exact ⟨⟨c, hr⟩, rfl⟩
  · rintro ⟨⟨c, hr⟩, rfl⟩
    exact ⟨c, hr, rfl⟩

/-- To answer something else is to leave the same behind. -/
theorem leaves_bind_pure_iff {f : α → β} :
    (e >>= fun a => Pure.pure (f a)).Leaves s t ↔ e.Leaves s t := by
  rw [leaves_bind_iff]
  constructor
  · rintro (⟨c, he⟩ | ⟨a, u, he, ht⟩)
    · exact .inr ⟨c, he⟩
    · cases leaves_pure_iff.1 ht
      exact .inl ⟨a, he⟩
  · rintro (⟨a, he⟩ | ⟨c, he⟩)
    · exact .inr ⟨a, t, he, leaves_pure_iff.2 rfl⟩
    · exact .inl ⟨c, he⟩

@[simp] theorem leaves_modify_iff {f : σ → σ} : (modify f : Edit σ Unit).Leaves s t ↔ t = f s := by
  constructor
  · rintro (⟨b, h⟩ | ⟨c, h⟩) <;> cases h
    rfl
  · rintro rfl
    exact .inl ⟨(), rfl⟩

/-- What is read from the state is the state it is read from. -/
@[simp] theorem get_bind_apply {f : σ → Edit σ α} : (get >>= f) s = f s s := rfl

@[simp] theorem leaves_get_bind_iff {f : σ → Edit σ α} :
    (get >>= f).Leaves s t ↔ (f s).Leaves s t := Iff.rfl

theorem leaves_update_iff {f : σ → Except CircuitError σ} :
    (update f).Leaves s t ↔ f s = .ok t ∨ (∃ c, f s = .error c) ∧ t = s := by
  unfold Leaves update
  cases f s <;> simp [eq_comm]

theorem leaves_within_iff {f : Focus σ τ} {e : Edit τ α} :
    (within f e).Leaves s t ↔ ∃ u, e.Leaves (f.get s) u ∧ f.set u s = t := by
  simp only [Leaves, within_eq_ok_iff, within_eq_error_iff]
  constructor
  · rintro (⟨a, u, he, ht⟩ | ⟨c, u, he, ht⟩)
    · exact ⟨u, .inl ⟨a, he⟩, ht⟩
    · exact ⟨u, .inr ⟨c, he⟩, ht⟩
  · rintro ⟨u, ⟨a, he⟩ | ⟨c, he⟩, ht⟩
    · exact .inl ⟨a, u, he, ht⟩
    · exact .inr ⟨c, u, he, ht⟩

theorem Leaves.of_ok {a : α} (h : e s = .ok a t) : e.Leaves s t := .inl ⟨a, h⟩

theorem Leaves.of_error {c : CircuitError} (h : e s = .error c t) : e.Leaves s t := .inr ⟨c, h⟩

/-- A check or a computation is refused, and with it all that follows, or what follows is done. -/
theorem ofExcept_bind_cases (r : Except CircuitError β) (k : β → Edit σ α) (s : σ) :
    (∃ c, ((ofExcept r : Edit σ β) >>= k) s = .error c s) ∨
      ∃ b, r = .ok b ∧ ((ofExcept r : Edit σ β) >>= k) s = k b s := by
  cases r with
  | error c => exact .inl ⟨c, rfl⟩
  | ok b => exact .inr ⟨b, rfl, rfl⟩

theorem each_singleton (f : α → Edit σ Unit) (a : α) : each f [a] = f a :=
  bind_pure (f a)

/-- An edit that leaves every state as it is keeps everything. -/
theorem Keeps.of_still (h : ∀ s t, e.Leaves s t → t = s) : Keeps P e := fun s t hs ht =>
  h s t ht ▸ hs

theorem Keeps.pure (a : α) : Keeps P (Pure.pure a : Edit σ α) :=
  .of_still fun _ _ => leaves_pure_iff.1

theorem Keeps.ofExcept (r : Except CircuitError α) : Keeps P (ofExcept r : Edit σ α) :=
  .of_still fun _ _ => leaves_ofExcept_iff.1

theorem Keeps.throw (c : CircuitError) : Keeps P (MonadExcept.throw c : Edit σ α) :=
  .of_still fun _ _ => leaves_throw_iff.1

theorem Keeps.bind (he : Keeps P e) (hk : ∀ a, Keeps P (k a)) : Keeps P (e >>= k) := by
  intro s t hs ht
  rcases leaves_bind_iff.1 ht with ⟨c, herr⟩ | ⟨a, u, hok, hrest⟩
  · exact he s t hs (.of_error herr)
  · exact hk a u t (he s u hs (.of_ok hok)) hrest

/-- What follows a check or a computation may rely on its answer. -/
theorem Keeps.ofExcept_bind {r : Except CircuitError β} {k : β → Edit σ α}
    (h : ∀ b, r = .ok b → Keeps P (k b)) :
    Keeps P ((Edit.ofExcept r : Edit σ β) >>= k) := by
  intro s t hs ht
  rcases leaves_ofExcept_bind_iff.1 ht with ⟨b, hr, hrest⟩ | ⟨-, rfl⟩
  · exact h b hr s t hs hrest
  · exact hs

/-- The rest of an edit may rely on the state that was read at its start. -/
theorem Keeps.get_bind {f : σ → Edit σ α} (h : ∀ s, P s → ∀ t, (f s).Leaves s t → P t) :
    Keeps P (get >>= f) := fun s t hs ht => h s hs t ht

theorem Keeps.read {f : σ → Edit σ α} (h : ∀ s, Keeps P (f s)) : Keeps P (get >>= f) :=
  .get_bind fun s hs t ht => h s s t hs ht

theorem Keeps.modify {f : σ → σ} (h : ∀ s, P s → P (f s)) : Keeps P (modify f : Edit σ Unit) :=
  fun s _ hs ht => leaves_modify_iff.1 ht ▸ h s hs

theorem Keeps.within {f : Focus σ τ} {e : Edit τ α}
    (h : ∀ s u, P s → e.Leaves (f.get s) u → P (f.set u s)) : Keeps P (within f e) := by
  intro s t hs ht
  obtain ⟨u, hu, rfl⟩ := leaves_within_iff.1 ht
  exact h s u hs hu

theorem Keeps.each {f : α → Edit σ Unit} {l : List α} (h : ∀ a ∈ l, Keeps P (f a)) :
    Keeps P (each f l) := by
  induction l with
  | nil => exact Keeps.pure ()
  | cons a rest ih =>
    exact (h a List.mem_cons_self).bind fun _ => ih fun b hb => h b (List.mem_cons_of_mem a hb)

theorem Keeps.mapM {f : α → Edit σ β} {l : List α} (h : ∀ a ∈ l, Keeps P (f a)) :
    Keeps P (l.mapM f) := by
  induction l with
  | nil => exact Keeps.pure []
  | cons a rest ih =>
    rw [List.mapM_cons]
    exact (h a List.mem_cons_self).bind fun _ =>
      (ih fun b hb => h b (List.mem_cons_of_mem a hb)).bind fun _ => Keeps.pure _

theorem Keeps.onlyIf {e : Edit σ Unit} (h : Keeps P e) (b : Bool) : Keeps P (onlyIf b e) := by
  cases b
  · exact Keeps.pure ()
  · exact h

theorem Keeps.finalState {e : Edit σ Unit} (h : Keeps P e) (hs : P s)
    (ht : e.finalState s = .ok t) : P t :=
  h s t hs (.of_ok (finalState_eq_ok_iff.1 ht))

end QuantumCircuit.Edit
