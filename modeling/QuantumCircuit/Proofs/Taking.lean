import QuantumCircuit.Proofs.Listing
import QuantumCircuit.Proofs.Store

/-!
# Bits and registers taken over

Some edits of a whole are no more than edits of a part of it (`Edit.within`), and then so is a run
of them (`Edit.each_eq_within`). That bits come into the contents of a circuit one after another,
and registers whose names no identifier has, is therefore settled on a list of bits: which bits and
registers are taken in (`BitList.each_add_ok`, `BitList.each_addRegister_ok`), what is there
afterwards, and which registers are refused (`BitList.each_addRegister_clash`).
-/

namespace QuantumCircuit

/-! ## Edits of a part -/

/-- What is set is what is got, and nothing else changes. -/
structure Focus.Lawful {σ τ : Type} (f : Focus σ τ) : Prop where
  get_set : ∀ t s, f.get (f.set t s) = t
  set_get : ∀ s, f.set (f.get s) s = s
  set_set : ∀ t u s, f.set t (f.set u s) = f.set t s

namespace Edit

variable {σ τ α β : Type} {f : Focus σ τ}

theorem bind_congr {e e' : Edit σ α} {g g' : α → Edit σ β} {s : σ} (he : e s = e' s)
    (hg : ∀ a t, e' s = .ok a t → g a t = g' a t) : (e >>= g) s = (e' >>= g') s := by
  show EStateM.bind e g s = EStateM.bind e' g' s
  unfold EStateM.bind
  rw [he]
  cases hrun : e' s with
  | error c t => rfl
  | ok a t => exact hg a t hrun

theorem within_congr {e g : Edit τ α} {s : σ} (h : e (f.get s) = g (f.get s)) :
    within f e s = within f g s := by
  unfold within
  rw [h]

/-- An edit of a part after another is one edit of the part. -/
theorem within_bind (hf : f.Lawful) (e : Edit τ α) (g : α → Edit τ β) (s : σ) :
    within f (e >>= g) s = (within f e >>= fun a => within f (g a)) s := by
  show within f (EStateM.bind e g) s = EStateM.bind (within f e) _ s
  simp only [within, EStateM.bind]
  cases e (f.get s) with
  | error c t => rfl
  | ok a t =>
    simp only [hf.get_set]
    cases g a t <;> simp only [hf.set_set]

/-- Edits that are edits of a part, as long as the rest is as `P` says, make up one of the part. -/
theorem each_eq_within (hf : f.Lawful) {P : σ → Prop} (hset : ∀ t s, P s → P (f.set t s))
    {e : α → Edit σ Unit} {g : α → Edit τ Unit} {l : List α}
    (he : ∀ a ∈ l, ∀ s, P s → e a s = within f (g a) s) {s : σ} (hs : P s) :
    each e l s = within f (each g l) s := by
  induction l generalizing s with
  | nil =>
    show EStateM.Result.ok () s = .ok () (f.set (f.get s) s)
    rw [hf.set_get]
  | cons a rest ih =>
    obtain ⟨hfirst, hrest⟩ := List.forall_mem_cons.1 he
    rw [each, each, within_bind hf]
    refine bind_congr (hfirst s hs) fun _ t hrun => ?_
    obtain ⟨u, -, rfl⟩ := within_eq_ok_iff.1 hrun
    exact ih hrest (hset u s hs)

end Edit

/-! ## Bits and registers together -/

namespace BitList

variable {k : BitKind} {l l' : BitList k} {bits : List (Bit k)} {registers : List (Register k)}

/-- Take in bits, none of which may be there, and then registers. -/
def taking (bits : List (Bit k)) (registers : List (Register k)) : Edit (BitList k) Unit := do
  Edit.each (fun bit => do let _ ← add bit true) bits
  Edit.each addRegister registers

theorem bits_of_each_add (h : Edit.each (fun bit => do let _ ← add bit true) bits l = .ok () l') :
    l'.bits = l.bits ++ bits ∧ l'.registers = l.registers := by
  induction bits generalizing l with
  | nil =>
    cases h
    exact ⟨(List.append_nil _).symm, rfl⟩
  | cons bit rest ih =>
    obtain ⟨_, u, hfirst, h⟩ := Edit.bind_eq_ok_iff.1 h
    obtain ⟨position, v, hadd, hfirst⟩ := Edit.bind_eq_ok_iff.1 hfirst
    cases hfirst
    obtain ⟨_, -, hstrict, -⟩ | ⟨-, -, -, rfl⟩ := add_eq_ok_iff.1 hadd
    · cases hstrict
    · obtain ⟨hbits, hregisters⟩ := ih h
      exact ⟨hbits.trans (List.append_assoc l.bits [bit] rest), hregisters⟩

theorem each_add_sound (h : l.Sound)
    (hl : Edit.each (fun bit => do let _ ← add bit true) bits l = .ok () l') : l'.Sound := by
  refine Edit.Keeps.each (fun bit _ => ?_) l l' h (.of_ok hl)
  exact (Sound.add bit true).bind fun _ => .pure ()

/-- New bits come in one after another, if there is room for them. -/
theorem each_add_ok (h : l.Sound) (hnodup : bits.Nodup) (hnew : ∀ bit ∈ bits, bit ∉ l.bits)
    (hroom : l.size + bits.length ≤ capacity) :
    ∃ l', Edit.each (fun bit => do let _ ← add bit true) bits l = .ok () l' := by
  induction bits generalizing l with
  | nil => exact ⟨l, rfl⟩
  | cons bit rest ih =>
    have hbit := (List.forall_mem_cons.1 hnew).1
    rw [List.length_cons] at hroom
    have hsize : (l.snoc bit).size = l.size + 1 := List.length_append
    obtain ⟨l', hl'⟩ := ih (h.snoc hbit (by omega)) hnodup.of_cons
      (new_behind hnodup hnew) (by omega)
    refine ⟨l', Edit.bind_eq_ok_iff.2 ⟨(), l.snoc bit, ?_, hl'⟩⟩
    exact Edit.bind_eq_ok_iff.2 ⟨l.size, _, h.add_new hbit (by omega) true, rfl⟩

/-- Registers over listed bits come in behind the others, and with them no bits. -/
theorem registers_of_each_addRegister (h : l.Sound)
    (hmembers : ∀ r ∈ registers, ∀ bit ∈ r.bits, bit ∈ l.bits)
    (hl : Edit.each addRegister registers l = .ok () l') :
    l'.bits = l.bits ∧ l'.registers = l.registers ++ registers := by
  induction registers generalizing l with
  | nil =>
    cases hl
    exact ⟨rfl, (List.append_nil _).symm⟩
  | cons r rest ih =>
    obtain ⟨_, u, hu, hl⟩ := Edit.bind_eq_ok_iff.1 hl
    obtain ⟨hfirst, hrest⟩ := List.forall_mem_cons.1 hmembers
    obtain ⟨v, hv, hbits, hregisters⟩ := h.addRegister_ok (addRegister_eq_ok_iff.1 hu).1 hfirst
    obtain rfl : u = v := (EStateM.Result.ok.inj (hu.symm.trans hv)).2
    have hsound := addRegister_keeps_sound r l u h (.of_ok hu)
    obtain ⟨hbits', hregisters'⟩ := ih hsound (fun q hq bit hb => hbits ▸ hrest q hq bit hb) hl
    refine ⟨hbits'.trans hbits, ?_⟩
    rw [hregisters', hregisters, List.append_assoc]
    rfl

/-- Registers over listed bits come in, if all have names of their own. -/
theorem each_addRegister_ok (h : l.Sound)
    (hmembers : ∀ r ∈ registers, ∀ bit ∈ r.bits, bit ∈ l.bits)
    (hnames : ((l.registers ++ registers).map (·.name)).Nodup) :
    ∃ l', Edit.each addRegister registers l = .ok () l' := by
  induction registers generalizing l with
  | nil => exact ⟨l, rfl⟩
  | cons r rest ih =>
    obtain ⟨hfirst, hrest⟩ := List.forall_mem_cons.1 hmembers
    have hname : l.register? r.name = none := by
      rw [register?_eq_none_iff]
      intro hmem
      rw [List.map_append, List.nodup_append] at hnames
      exact hnames.2.2 _ hmem _ (List.mem_map_of_mem List.mem_cons_self) rfl
    obtain ⟨u, hu, hbits, hregisters⟩ := h.addRegister_ok hname hfirst
    have hsound := addRegister_keeps_sound r l u h (.of_ok hu)
    obtain ⟨l', hl'⟩ := ih hsound (fun q hq bit hb => hbits ▸ hrest q hq bit hb) (by
      rw [hregisters, List.append_assoc]
      exact hnames)
    exact ⟨l', Edit.bind_eq_ok_iff.2 ⟨(), u, hu, hl'⟩⟩

/-- Registers over listed bits are refused if a name is taken, and no bit has come or gone. -/
theorem each_addRegister_clash (h : l.Sound)
    (hmembers : ∀ r ∈ registers, ∀ bit ∈ r.bits, bit ∈ l.bits)
    (hclash : ∃ r ∈ registers, l.register? r.name ≠ none) :
    ∃ e l', Edit.each addRegister registers l = .error e l' ∧ l'.bits = l.bits := by
  induction registers generalizing l with
  | nil => simp at hclash
  | cons r rest ih =>
    obtain ⟨hfirst, hrest⟩ := List.forall_mem_cons.1 hmembers
    by_cases hname : l.register? r.name = none
    · obtain ⟨u, hu, hbits, hregisters⟩ := h.addRegister_ok hname hfirst
      have hsound := addRegister_keeps_sound r l u h (.of_ok hu)
      have hlater : ∃ q ∈ rest, u.register? q.name ≠ none := by
        obtain ⟨q, hq, hclash⟩ := hclash
        rcases List.mem_cons.1 hq with rfl | hq
        · exact absurd hname hclash
        · refine ⟨q, hq, fun hnone => hclash ?_⟩
          rw [register?_eq_none_iff, hregisters, List.map_append, List.mem_append, not_or] at hnone
          exact register?_eq_none_iff.2 hnone.1
      obtain ⟨e, l', hl', hbits'⟩ := ih hsound (fun q hq bit hb => hbits ▸ hrest q hq bit hb) hlater
      exact ⟨e, l', Edit.bind_eq_error_iff.2 (.inr ⟨(), u, hu, hl'⟩), hbits'.trans hbits⟩
    · exact ⟨.duplicateRegister k r.name, l,
        Edit.bind_eq_error_iff.2 (.inl (addRegister_taken hname)), rfl⟩

theorem each_addRegister_sound (h : l.Sound)
    (hl : Edit.each addRegister registers l = .ok () l') : l'.Sound :=
  Edit.Keeps.each (fun r _ => addRegister_keeps_sound r) l l' h (.of_ok hl)

/-- What has been taken into an empty list: the bits, and the registers over them. -/
theorem taking_eq_ok (hmembers : ∀ r ∈ registers, ∀ bit ∈ r.bits, bit ∈ bits)
    (h : taking bits registers empty = .ok () l) : l.bits = bits ∧ l.registers = registers := by
  obtain ⟨_, u, hadd, h⟩ := Edit.bind_eq_ok_iff.1 h
  obtain ⟨hbits, hnone⟩ := bits_of_each_add hadd
  have hlisted : u.bits = bits := hbits.trans (List.nil_append _)
  obtain ⟨hsame, hregisters⟩ := registers_of_each_addRegister (each_add_sound sound_empty hadd)
    (fun r hr bit hbit => hlisted ▸ hmembers r hr bit hbit) h
  exact ⟨hsame.trans hlisted, by rw [hregisters, hnone]; rfl⟩

/-- Different bits and registers over them are taken in, if there is room and no two registers have
one name. -/
theorem taking_ok (hnodup : bits.Nodup) (hroom : bits.length ≤ capacity)
    (hmembers : ∀ r ∈ registers, ∀ bit ∈ r.bits, bit ∈ bits)
    (hnames : (registers.map (·.name)).Nodup) : ∃ l, taking bits registers empty = .ok () l := by
  obtain ⟨u, hadd⟩ := each_add_ok sound_empty hnodup (fun _ _ => List.not_mem_nil)
    (by rwa [show (empty : BitList k).size = 0 from rfl, Nat.zero_add])
  obtain ⟨hbits, hnone⟩ := bits_of_each_add hadd
  have hlisted : u.bits = bits := hbits.trans (List.nil_append _)
  obtain ⟨l, hl⟩ := each_addRegister_ok (each_add_sound sound_empty hadd)
    (fun r hr bit hbit => hlisted ▸ hmembers r hr bit hbit) (by rw [hnone]; exact hnames)
  exact ⟨l, Edit.bind_eq_ok_iff.2 ⟨(), u, hadd, hl⟩⟩

end BitList

/-! ## In the contents of a circuit -/

namespace Content

variable {k : BitKind} {c : Content}

theorem bitFocus_lawful (k : BitKind) : (bitFocus k).Lawful := by
  cases k <;> exact ⟨fun _ _ => rfl, fun c => by cases c; rfl, fun _ _ _ => rfl⟩

theorem addBit_eq_within (bit : Bit k) (c : Content) :
    (do let _ ← addBit bit : Edit Content Unit) c =
      Edit.within (bitFocus k) (do let _ ← BitList.add bit true) c := by
  rw [Edit.within_bind (bitFocus_lawful k)]
  refine Edit.bind_congr rfl fun _ d _ => ?_
  exact congrArg (EStateM.Result.ok ()) ((bitFocus_lawful k).set_get d).symm

/-- If no identifier has its name, a register is a matter of the list of bits. -/
theorem addRegister_eq_within {r : Register k} (hname : ¬ c.identifiers.hasName r.name) :
    addRegister r c = Edit.within (bitFocus k) (BitList.addRegister r) c := by
  cases k with
  | quantum => rfl
  | classical =>
    have hfalse : c.identifiers.hasName r.name = false := by simpa using hname
    show (Edit.ofExcept (refuseIf _ _) >>= fun _ => _ : Edit Content Unit) c = _
    rw [hfalse]
    rfl

theorem each_addBit_eq_within (bits : List (Bit k)) (c : Content) :
    Edit.each (fun bit => do let _ ← addBit bit) bits c =
      Edit.within (bitFocus k) (Edit.each (fun bit => do let _ ← BitList.add bit true) bits) c :=
  Edit.each_eq_within (P := fun _ => True) (bitFocus_lawful k) (fun _ _ h => h)
    (fun bit _ d _ => addBit_eq_within bit d) trivial

theorem each_addRegister_eq_within {registers : List (Register k)}
    (hnames : ∀ r ∈ registers, ¬ c.identifiers.hasName r.name) :
    Edit.each (fun r => addRegister r) registers c =
      Edit.within (bitFocus k) (Edit.each BitList.addRegister registers) c :=
  Edit.each_eq_within (P := fun d => d.identifiers = c.identifiers) (bitFocus_lawful k)
    (fun l d hd => (bitFocus_set_identifiers l d).trans hd)
    (fun r hr _ hd => addRegister_eq_within (hd ▸ hnames r hr)) rfl

end Content

end QuantumCircuit
