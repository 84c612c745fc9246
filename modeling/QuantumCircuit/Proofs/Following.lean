import QuantumCircuit.Proofs.Jumping
import QuantumCircuit.Proofs.Lapsing

/-!
# Bodies that are followed

Whatever a body does, it can be followed which builders the circuit is in and what is recorded in
their bodies (`Script.keeps_follows`), by one induction over scripts, builders and cases. So all
that is known of circuits which are underway (`Underway.jumps_resolved`) holds wherever a body can
come to.
-/

namespace QuantumCircuit

open Circuit (Call Closing)
open Traced (watch)

/-! ## Edits that answer or are refused -/

/-- That the edit, made in `s`, leaves what `Q` says if it answers, and what `P` says if not. -/
def Edit.EndsIn {σ α : Type} (P : σ → Prop) (Q : α → σ → Prop) (edit : Edit σ α) (s : σ) : Prop :=
  match edit s with
  | .ok a t => Q a t
  | .error _ t => P t

namespace Edit.EndsIn

variable {σ α β : Type} {P : σ → Prop} {Q : α → σ → Prop} {R : β → σ → Prop} {edit : Edit σ α}
  {next : α → Edit σ β} {s t : σ}

theorem bind (h : edit.EndsIn P Q s) (hnext : ∀ a t, Q a t → (next a).EndsIn P R t) :
    (edit >>= next).EndsIn P R s := by
  unfold EndsIn at h ⊢
  cases hs : edit s with
  | ok a t =>
    rw [hs] at h
    rw [Edit.bind_apply_of_ok hs]
    exact hnext a t h
  | error e t =>
    rw [hs] at h
    have herror : (edit >>= next) s = .error e t := Edit.bind_eq_error_iff.2 (.inl hs)
    rw [herror]
    exact h

theorem ofExcept {r : Except CircuitError α} (hP : P s) (hQ : ∀ a, Q a s) :
    (Edit.ofExcept r).EndsIn P Q s := by
  cases r with
  | ok a => exact hQ a
  | error e => exact hP

theorem imp {P' : σ → Prop} (h : edit.EndsIn P Q s) (hP : ∀ t, P t → P' t) :
    edit.EndsIn P' Q s := by
  unfold EndsIn at h ⊢
  split
  · rename_i hs
    rwa [hs] at h
  · rename_i hs
    rw [hs] at h
    exact hP _ h

/-- Answered or refused, the edit leaves what `P` says. -/
theorem leaves (h : edit.EndsIn P (fun _ => P) s) (ht : edit.Leaves s t) : P t := by
  unfold EndsIn at h
  rcases ht with ⟨a, ht⟩ | ⟨e, ht⟩
  · rwa [ht] at h
  · rwa [ht] at h

end Edit.EndsIn

/-! ## Steps of a body -/

theorem note_note (es es' : List Entry) (fs : List Frame) :
    note es' (note es fs) = note (es ++ es') fs := by
  cases fs with
  | nil => rfl
  | cons f fs => simp [note]

theorem note_nil (fs : List Frame) : note [] fs = fs := by
  cases fs with
  | nil => rfl
  | cons f fs => simp [note]

theorem Stand.length_eq {fs : List Frame} {held : List (Option JumpBan × List BlockItem)}
    (h : Stand fs held) : held.length = fs.length := by
  induction h with
  | nil => rfl
  | cons _ _ _ _ ih => exact congrArg (· + 1) ih

namespace Underway

variable {o : Option Begun} {b : Begun} {f : Frame} {fs : List Frame} {c d : Circuit} {k : Call}

/-- There are as many open blocks as builders around. -/
theorem length_blocks (h : Underway o fs c) : c.blocks.length = fs.length := by
  have hheld : c.held.length = c.blocks.length := List.length_map _
  exact hheld.symm.trans h.stands.1.length_eq

/-- Any call, jumps included, refused or not. -/
theorem after_call (h : Underway none (f :: fs) c) (hd : k.run.Leaves c d) :
    ∃ es, Underway none (note es (f :: fs)) d := by
  by_cases hjump : ∃ j, k = .jump j
  · obtain ⟨j, rfl⟩ := hjump
    rcases hd with ⟨_, hd⟩ | ⟨e, hd⟩
    · exact ⟨_, h.jump j hd⟩
    · refine ⟨[], ?_⟩
      rw [note_nil, Circuit.jump_refused (blocks_ne_nil h.stands.1 (List.cons_ne_nil _ _)) hd]
      exact h
  · exact ⟨_, h.call k (fun j hj => hjump ⟨j, hj⟩) hd⟩

/-- The end of a builder, refused or not. -/
theorem after_end {k : Closing} (h : Underway (some b) fs c) (hk : b.EndsWith k)
    (hd : k.run.Leaves c d) : ∃ es, Underway none (note es fs) d := by
  rcases hd with ⟨_, hd⟩ | ⟨e, hd⟩
  · by_cases hwaits : b.Waits
    · exact ⟨_, h.wait k hk hwaits hd⟩
    · exact ⟨_, h.finish k hk hwaits hd⟩
  · refine ⟨[], ?_⟩
    rw [note_nil, Closing.eq_of_refused hd]
    exact h.giveUp

end Underway

namespace Traced

variable {fs : List Frame} {f : Frame} {b : Begun} {s t : Traced}

/-- That the circuit is in the bodies of `fs`, with perhaps more recorded in the innermost one. -/
def Follows (fs : List Frame) (s : Traced) : Prop := ∃ es, Underway none (note es fs) s.circuit

/-- That the circuit is in the bodies of `fs`, and between the bodies of one more builder. -/
def Pauses (fs : List Frame) (s : Traced) : Prop := ∃ b, Underway (some b) fs s.circuit

theorem follows_of_note {es : List Entry} (h : Follows (note es fs) s) : Follows fs s := by
  obtain ⟨es', h⟩ := h
  exact ⟨es ++ es', note_note es es' fs ▸ h⟩

theorem watch_keeps_follows {α : Type} {edit : Edit Traced α}
    {note : Circuit → Circuit → Except CircuitError Unit → Event} (h : edit.Keeps (Follows fs)) :
    (watch note edit).Keeps (Follows fs) := by
  intro s t hs ht
  obtain ⟨a, ht⟩ := watch_leaves ht
  rcases watch_eq_ok ht with ⟨_, u, -, hrun, rfl⟩ | ⟨e, u, -, hrun, rfl⟩
  · exact h s u hs (.of_ok hrun)
  · exact h s u hs (.of_error hrun)

theorem call_keeps_follows {k : Call} :
    (Edit.within focus k.run).Keeps (Follows (f :: fs)) := by
  intro s t ⟨es, hs⟩ ht
  obtain ⟨d, hd, rfl⟩ := Edit.leaves_within_iff.1 ht
  exact follows_of_note (s := focus.set d s) (hs.after_call hd)

/-- A body runs in its block, and leaves it to its builder or is given up. -/
theorem runBlock_endsIn {body : Edit Traced Unit}
    (hbody : ∀ f fs, body.Keeps (Follows (f :: fs))) (h : Underway (some b) fs s.circuit) :
    (Builder.runBlock focus b.template body).EndsIn (fun t => Underway (some b) fs t.circuit)
      (fun top t => ∃ es, Underway (some (b.withBody top es)) fs t.circuit) s := by
  have hstart : Follows (⟨b, []⟩ :: fs) (Builder.entered focus b.template s) :=
    ⟨[], (note_nil _).symm ▸ h.enter⟩
  have hleaves : ∀ u, body.Leaves (Builder.entered focus b.template s) u →
      ∃ es, Underway none (⟨b, es⟩ :: fs) u.circuit := by
    intro u hu
    obtain ⟨es, hu⟩ := hbody _ _ _ u hstart hu
    exact ⟨_, hu⟩
  unfold Edit.EndsIn
  split
  · rename_i top t hrun
    obtain ⟨u, outer, hu, hblocks, rfl⟩ := Builder.Form.runBlock_eq_ok hrun
    obtain ⟨es, hu⟩ := hleaves u (.of_ok hu)
    exact ⟨es, hu.leave hblocks⟩
  · rename_i e t hrun
    obtain ⟨u, top, outer, hu, hblocks, rfl⟩ := Builder.Form.runBlock_leaves_outer (fun u hu => by
      obtain ⟨es, hu⟩ := hleaves u hu
      obtain ⟨top, outer, hblocks⟩ := List.exists_cons_of_length_eq_add_one hu.length_blocks
      refine ⟨top, outer, hblocks, ?_⟩
      have hlength := hu.length_blocks
      rw [hblocks] at hlength
      exact (Nat.succ.inj hlength).trans h.length_blocks.symm) (.of_error hrun)
    obtain ⟨es, hu⟩ := hleaves u hu
    exact hu.giveUpBody hblocks

end Traced

open Traced (Follows Pauses)

/-! ## Builders -/

/-- That the cases so far are those of a switch which the circuit is in, between two cases. -/
def SwitchCases.Gathers (fs : List Frame) (sofar : SwitchCases) (s : Traced) : Prop :=
  ∃ ended, Underway (some ⟨.branch, sofar.template, ended⟩) fs s.circuit ∧
    sofar.arms.map (·.block) = ended.map (·.1)

namespace Building

variable {L : Licence} {b : Building L} {fs : List Frame} {s : Traced} {template : Block}

/-- The kind of the builder. -/
def kind : Building L → BuilderKind
  | ifTest _ _ | ifElse _ _ _ | switch _ _ => .branch
  | whileLoop _ _ | forLoop _ _ _ => .loop
  | box _ _ => .box

/-- That the bodies of the builder can be followed, and come to an end of the builder. -/
def Followed (b : Building L) : Prop := ∀ (fs : List Frame) (s : Traced) (template : Block),
  Underway (some ⟨b.kind, template, []⟩) fs s.circuit →
  (b.bodies template).EndsIn (Pauses fs)
    (fun k t => ∃ begun, Underway (some begun) fs t.circuit ∧ begun.EndsWith k) s

/-- A builder has begun once it has read what it reads. -/
theorem head_endsIn (b : Building L) (h : Underway none fs s.circuit) :
    (Edit.within Traced.focus b.head).EndsIn (Follows fs)
      (fun template t => Underway (some ⟨b.kind, template, []⟩) fs t.circuit) s := by
  have hfollows : ∀ {t : Traced}, Underway none fs t.circuit → Follows fs t := fun h =>
    ⟨[], (note_nil fs).symm ▸ h⟩
  have hread : ∀ h' : Circuit.Head, (Edit.within Traced.focus h'.run).EndsIn (Follows fs)
      (fun template t => Underway (some ⟨h'.kind, template, []⟩) fs t.circuit) s := by
    intro h'
    unfold Edit.EndsIn
    split
    · rename_i template t hrun
      obtain ⟨d, hd, rfl⟩ := Edit.within_eq_ok_iff.1 hrun
      exact h.head h' hd
    · rename_i e t hrun
      obtain ⟨d, hd, rfl⟩ := Edit.within_eq_error_iff.1 hrun
      exact hfollows (h.read h' (.of_error hd))
  cases b with
  | ifTest condition _ | ifElse condition _ _ => exact hread (.branch condition)
  | whileLoop condition _ => exact hread (.loop condition)
  | forLoop _ _ _ => exact h.forLoop
  | switch target _ => exact hread (.switch target)
  | box duration _ => exact hread (.box duration)

/-- A builder whose bodies can be followed can be followed itself. -/
theorem Followed.keeps_follows (hb : b.Followed) : b.run.Keeps (Follows fs) := by
  intro s t ⟨es, hs⟩ ht
  suffices h : b.run.EndsIn (Follows (note es fs)) (fun _ => Follows (note es fs)) s by
    exact Traced.follows_of_note (h.leaves ht)
  rw [run_eq]
  have hturn : (Traced.turnTo b.reading).EndsIn (Follows (note es fs))
    (fun _ u => Underway none (note es fs) u.circuit) s := hs
  refine hturn.bind fun _ u hu => (head_endsIn b hu).bind fun template v hv => ?_
  have hgiveUp : ∀ w, Pauses (note es fs) w → Follows (note es fs) w := fun w ⟨begun, hw⟩ =>
    ⟨[], (note_nil _).symm ▸ hw.giveUp⟩
  refine ((hb _ v template hv).imp hgiveUp).bind fun k w ⟨begun, hw, hk⟩ => ?_
  unfold Edit.EndsIn
  split
  · rename_i hrun
    obtain ⟨d, hd, rfl⟩ := Edit.within_eq_ok_iff.1 hrun
    exact hw.after_end hk (.of_ok hd)
  · rename_i hrun
    obtain ⟨d, hd, rfl⟩ := Edit.within_eq_error_iff.1 hrun
    exact hw.after_end hk (.of_error hd)

/-- A builder with one body. -/
theorem followed_of_body {body : Edit Traced Unit} {begun : Begun} {make : Block → Closing}
    (hbody : ∀ f fs, body.Keeps (Follows (f :: fs))) (h : Underway (some begun) fs s.circuit)
    (hmake : ∀ top es, (begun.withBody top es).EndsWith (make top)) :
    (do return make (← Builder.runBlock Traced.focus begun.template body) :
      Edit Traced Closing).EndsIn (Pauses fs)
        (fun k t => ∃ begun, Underway (some begun) fs t.circuit ∧ begun.EndsWith k) s := by
  refine ((Traced.runBlock_endsIn hbody h).imp fun t ht => ⟨begun, ht⟩).bind
    fun top t ⟨es, ht⟩ => ?_
  exact ⟨_, ht, hmake top es⟩

end Building

/-- A case of a switch is gathered, or left out. -/
theorem SwitchCases.Gathers.case {fs : List Frame} {sofar : SwitchCases} {s : Traced}
    {labels : List CaseLabel} {body : Edit Traced Unit}
    (hbody : ∀ f fs, body.Keeps (Follows (f :: fs))) (h : sofar.Gathers fs s) :
    (watch .case (Builder.switchCase Traced.focus labels body sofar)).EndsIn (fun _ => False)
      (fun answer t => match answer with
        | .ok more => more.Gathers fs t
        | .error _ => sofar.Gathers fs t) s := by
  obtain ⟨ended, hs, harms⟩ := h
  have hcase : (Builder.switchCase Traced.focus labels body sofar).EndsIn (sofar.Gathers fs)
      (fun more => more.Gathers fs) s := by
    have hsame : ∀ t : Traced, Underway (some ⟨.branch, sofar.template, ended⟩) fs t.circuit →
        sofar.Gathers fs t := fun t ht => ⟨ended, ht, harms⟩
    refine Edit.EndsIn.bind (Q := fun _ t => t = s) (.ofExcept (hsame s hs) fun _ => rfl)
      fun _ t ht => ?_
    refine Edit.EndsIn.bind (Q := fun _ t => t = s) (.ofExcept (ht ▸ hsame s hs) fun _ => ht)
      fun _ t ht => ?_
    subst ht
    refine ((Traced.runBlock_endsIn hbody hs).imp hsame).bind fun top t ⟨es, ht⟩ => ?_
    refine ⟨_, ht, ?_⟩
    show (sofar.arms ++ [_]).map _ = (ended ++ [(top, es)]).map _
    rw [List.map_append, List.map_append, harms]
    rfl
  unfold Edit.EndsIn at hcase ⊢
  unfold watch
  cases hrun : Builder.switchCase Traced.focus labels body sofar s with
  | ok more t =>
    rw [hrun] at hcase
    exact hcase
  | error e t =>
    rw [hrun] at hcase
    exact hcase

variable {L : Licence}

mutual

/-- Whatever a body does, it can be followed. -/
theorem Script.keeps_follows (f : Frame) (fs : List Frame) :
    ∀ body : Script L, body.run.Keeps (Follows (f :: fs))
  | .done answer => .ofExcept answer
  | .look next => fun s t hs ht => Script.keeps_follows f fs (next s) s t hs ht
  | .call _ _ next => (Traced.watch_keeps_follows Traced.call_keeps_follows).bind fun answer =>
      Script.keeps_follows f fs (next answer)
  | .build b next => (Traced.watch_keeps_follows (Building.followed b).keeps_follows).bind
      fun answer => Script.keeps_follows f fs (next answer)

/-- So can the bodies of a builder, one after another. -/
theorem Building.followed : ∀ b : Building L, b.Followed
  | .ifTest _ body => fun _ _ _ h =>
    Building.followed_of_body (fun f fs => Script.keeps_follows f fs body) h fun _ _ => ⟨rfl, rfl⟩
  | .ifElse _ trueBody falseBody => fun fs s _ h => by
    refine ((Traced.runBlock_endsIn (fun f fs => Script.keeps_follows f fs trueBody) h).imp
      fun t ht => ⟨_, ht⟩).bind fun top u ⟨es, hu⟩ => ?_
    exact Building.followed_of_body (fun f fs => Script.keeps_follows f fs falseBody) hu
      fun _ _ => ⟨rfl, rfl⟩
  | .whileLoop _ body => fun _ _ _ h =>
    Building.followed_of_body (fun f fs => Script.keeps_follows f fs body) h fun _ _ => ⟨rfl, rfl⟩
  | .forLoop _ _ body => fun _ _ _ h =>
    Building.followed_of_body (fun f fs => Script.keeps_follows f fs body) h fun _ _ => ⟨rfl, rfl⟩
  | .switch _ cases => fun fs s template h => by
    have hstart : SwitchCases.Gathers fs ⟨template, []⟩ s := ⟨[], h, rfl⟩
    exact (Cases.gathers fs cases hstart).bind fun done t ⟨ended, ht, harms⟩ => ⟨_, ht, rfl, harms⟩
  | .box _ body => fun _ _ _ h =>
    Building.followed_of_body (fun f fs => Script.keeps_follows f fs body) h fun _ _ => ⟨rfl, rfl⟩

/-- And the cases of a switch. -/
theorem Cases.gathers (fs : List Frame) : ∀ (cases : Cases L) {sofar : SwitchCases} {s : Traced},
    sofar.Gathers fs s → (cases.run sofar).EndsIn (Pauses fs) (fun done => done.Gathers fs) s
  | .done answer, sofar, s, h => by
    obtain ⟨ended, hs, harms⟩ := h
    refine Edit.EndsIn.bind (Q := fun _ t => t = s) (.ofExcept ⟨_, hs⟩ fun _ => rfl)
      fun _ t ht => ?_
    exact ht ▸ ⟨ended, hs, harms⟩
  | .look next, sofar, s, h => Cases.gathers fs (next s) h
  | .case labels body next, sofar, s, h => by
    rw [Cases.run]
    refine ((SwitchCases.Gathers.case (fun f fs => Script.keeps_follows f fs body) h).imp
      fun _ hnone => hnone.elim).bind fun answer t ht => ?_
    cases answer with
    | ok more => exact Cases.gathers fs (next (.ok ())) ht
    | error e => exact Cases.gathers fs (next (.error e)) ht

end

end QuantumCircuit
