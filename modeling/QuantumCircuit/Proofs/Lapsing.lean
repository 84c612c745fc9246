import QuantumCircuit.Proofs.Enclosing

/-!
# Runs of bodies

A body runs in its block whatever it does (`Script.keeps_runs`), by one induction over scripts,
builders and cases. Until it comes to its end a builder leaves behind what it has noted for its
condition, target or duration, and captures of what was used in its bodies and can be used around
them (`Traced.Lapsed`). The end of a builder that is refused changes nothing, so where a builder is
refused, that is all (`Building.Lapses.of_error`).
-/

namespace QuantumCircuit

open Circuit (Call Closing)

/-! ## What is left behind -/

namespace Traced

variable {L : Licence} {base : Circuit} {past : List Event} {r : Reading} {s t u : Traced}
  {template : Block}

/-- That the body which started on `base`, when `past` had been seen, has come to `s`. -/
def Runs (L : Licence) (base : Circuit) (past : List Event) (s : Traced) : Prop :=
  ∃ seen, s.trail = past ++ seen ∧ Untouched L base seen ∧
    Circuit.Inside L base (UsedBy seen) s.circuit

/-- What a builder leaves behind that was started in `s` and has not come to its end: what it has
noted to read, and captures of the identifiers that were used and can be used around it. -/
def Lapsed (L : Licence) (r : Reading) (s t : Traced) : Prop :=
  ∃ seen us, t.trail = s.trail ++ seen ∧ Untouched L s.circuit seen ∧
    (∀ i, i ∈ us ↔ UsedBy seen i ∧ Known s.circuit.content s.circuit.blocks i) ∧
    L.Same s.circuit t.circuit ∧
    t.circuit.blocks = captureAll us (r.noted s.circuit).blocks

/-- A watched edit is not refused: it answers with what the edit comes to. -/
theorem watch_eq_ok {α : Type} {note : Circuit → Circuit → Except CircuitError Unit → Event}
    {edit : Edit Traced α} {a : Except CircuitError α} (h : watch note edit s = .ok a t) :
    (∃ b u, a = .ok b ∧ edit s = .ok b u ∧ t = u.log (note s.circuit u.circuit (.ok ()))) ∨
      ∃ e u, a = .error e ∧ edit s = .error e u ∧
        t = u.log (note s.circuit u.circuit (.error e)) := by
  unfold watch at h
  split at h <;> rename_i hedit <;> cases h
  · exact .inl ⟨_, _, rfl, hedit, rfl⟩
  · exact .inr ⟨_, _, rfl, hedit, rfl⟩

theorem watch_leaves {α : Type} {note : Circuit → Circuit → Except CircuitError Unit → Event}
    {edit : Edit Traced α} (h : (watch note edit).Leaves s t) :
    ∃ a, watch note edit s = .ok a t := by
  rcases h with h | ⟨e, h⟩
  · exact h
  · unfold watch at h
    split at h <;> cases h

/-- The template stays the same while cases are added to a switch. -/
theorem watch_switchCase_template {labels : List CaseLabel} {body : Edit Traced Unit}
    {sofar more : SwitchCases}
    (h : watch .case (Builder.switchCase focus labels body sofar) s = .ok (.ok more) t) :
    more.template = sofar.template := by
  rcases watch_eq_ok h with ⟨_, _, hok, hrun, -⟩ | ⟨_, _, herr, -⟩
  · cases hok
    obtain ⟨b, -, rfl⟩ := Builder.Form.switchCase_eq_ok hrun
    rfl
  · cases herr

/-- What a case keeps, and what the cases after it keep over the same template, a case keeps that
others follow. -/
theorem keeps_case {L : Licence} {P : Traced → Prop} {labels : List CaseLabel} {body : Script L}
    {next : Except CircuitError Unit → Cases L} {sofar : SwitchCases}
    (hcase : (watch .case (Builder.switchCase focus labels body.run sofar)).Keeps P)
    (hnext : ∀ answer more, more.template = sofar.template → ((next answer).run more).Keeps P) :
    ((Cases.case labels body next).run sofar).Keeps P := by
  intro s t hs ht
  rw [Cases.run] at ht
  rcases Edit.leaves_bind_iff.1 ht with ⟨e, he⟩ | ⟨answer, u, hu, ht⟩
  · exact hcase s t hs (.of_error he)
  have hafter := hcase s u hs (.of_ok hu)
  cases answer with
  | ok more => exact hnext _ more (watch_switchCase_template hu) u t hafter ht
  | error e => exact hnext _ sofar rfl u t hafter ht

namespace Runs

/-- An event is seen, and the circuit goes on by what the event uses. -/
theorem log {e : Event} {c : Circuit} {seen : List Event} (htrail : s.trail = past ++ seen)
    (hseen : Untouched L base seen) (he : ∀ d ∈ e.circuits, L.Same base d)
    (hc : Circuit.Inside L base (fun i => UsedBy seen i ∨ e.Uses i) c) :
    Runs L base past (Traced.log e ⟨c, s.trail⟩) := by
  refine ⟨seen ++ [e], ?_, hseen.append (untouched_singleton he), hc.congr fun i _ => ?_⟩
  · rw [← List.append_assoc, ← htrail]
    rfl
  · rw [usedBy_append_iff, usedBy_singleton_iff]

theorem call {k : Call} (hk : L.Allows k) :
    (watch (.call k) (Edit.within focus k.run)).Keeps (Runs L base past) := by
  intro s t hs ht
  obtain ⟨seen, htrail, hseen, hinside⟩ := hs
  obtain ⟨a, ht⟩ := watch_leaves ht
  rcases watch_eq_ok ht with ⟨b, u, -, hrun, rfl⟩ | ⟨e, u, -, hrun, rfl⟩
  · obtain ⟨d, hd, rfl⟩ := Edit.within_eq_ok_iff.1 hrun
    have hafter := hinside.call hk hd
    refine log htrail hseen (same_around hinside.same hafter.same)
      (hafter.congr fun i _ => ?_)
    exact or_congr_right (and_iff_right rfl).symm
  · obtain ⟨d, hd, rfl⟩ := Edit.within_eq_error_iff.1 hrun
    have hafter := hinside.refused hk hd
    refine log htrail hseen (same_around hinside.same hafter.same)
      (hafter.congr fun i _ => ?_)
    exact (or_iff_left fun huses => nomatch huses.1).symm

/-- What a builder leaves behind in a body, the body has used. -/
theorem lapse (hs : Runs L base past s) (h : Lapsed L r s t) : Runs L base past t := by
  obtain ⟨seen, htrail, hseen, hinside⟩ := hs
  obtain ⟨seen', us, htrail', hseen', hused, hsame, hblocks⟩ := h
  refine ⟨seen ++ seen', by rw [htrail', htrail, List.append_assoc],
    hseen.append (.trans hinside.same hseen'), hinside.same.trans hsame, ?_⟩
  have hknown : ∀ i ∈ us, Known (r.noted s.circuit).content (r.noted s.circuit).blocks i :=
    fun i hi => Reading.known_noted_iff.2 ((hused i).1 hi).2
  have hafter : Circuit.Inside L base (UsedBy seen) (r.noted s.circuit) :=
    hinside.touch (r.captures_span s.circuit)
  rw [hblocks]
  refine ((hafter.capture hknown).congr fun i hi => ?_).blocks
  rw [usedBy_append_iff, hused i, and_iff_left (hinside.known hi)]

end Runs

namespace Lapsed

theorem same (h : Lapsed L r s t) : L.Same s.circuit t.circuit := by
  obtain ⟨seen, us, -, -, -, hsame, -⟩ := h
  exact hsame

theorem known_iff (h : Lapsed L r s t) {i : Identifier} :
    Known t.circuit.content t.circuit.blocks i ↔
      Known s.circuit.content s.circuit.blocks i := by
  obtain ⟨seen, us, -, -, hused, hsame, hblocks⟩ := h
  have hroot : t.circuit.content.identifiers = (r.noted s.circuit).content.identifiers := by
    rw [hsame.identifiers, r.content_noted]
  rw [hblocks, known_congr hroot, known_captureAll_iff fun i hi =>
    Reading.known_noted_iff.2 ((hused i).1 hi).2]
  exact Reading.known_noted_iff

/-- More is seen in bodies, and captured around them. -/
theorem more {seen : List Event} {is : List Identifier} (h : Lapsed L r s t)
    (htrail : u.trail = t.trail ++ seen) (hseen : Untouched L t.circuit seen)
    (his : ∀ i, i ∈ is ↔ UsedBy seen i ∧ Known t.circuit.content t.circuit.blocks i)
    (hsame : L.Same t.circuit u.circuit)
    (hblocks : u.circuit.blocks = captureAll is t.circuit.blocks) : Lapsed L r s u := by
  have hknown := fun i => h.known_iff (i := i)
  have hafter := h.same
  obtain ⟨seen', us, htrail', hseen', hused, -, hblocks'⟩ := h
  refine ⟨seen' ++ seen, us ++ is, by rw [htrail, htrail', List.append_assoc],
    hseen'.append (.trans hafter hseen), fun i => ?_, hafter.trans hsame, ?_⟩
  · rw [List.mem_append, hused, his, hknown, usedBy_append_iff, or_and_right]
  · rw [hblocks, hblocks', captureAll_append]

/-- Only the trail has grown. -/
theorem log {e : Event} (h : Lapsed L r s t) (he : ∀ c ∈ e.circuits, L.Same s.circuit c)
    (hnone : ∀ i, ¬ e.Uses i) : Lapsed L r s (t.log e) := by
  obtain ⟨seen, us, htrail, hseen, hused, hsame, hblocks⟩ := h
  refine ⟨seen ++ [e], us, ?_, hseen.append (untouched_singleton he), fun i => ?_, hsame, hblocks⟩
  · show t.trail ++ [e] = _
    rw [htrail, List.append_assoc]
  · rw [hused, usedBy_append_iff, usedBy_singleton_iff, or_iff_left (hnone i)]

/-- However a body ends, its captures go on outward, and its block is gone or handed over. -/
theorem runBlock {body : Edit Traced Unit} (hbody : ∀ base past, body.Keeps (Runs L base past))
    (htemplate : template.Blank) :
    (Builder.runBlock focus template body).Keeps (Lapsed L r s) := by
  intro v w hv hw
  have hstart : Runs L v.circuit v.trail (Builder.entered focus template v) := by
    refine ⟨[], (List.append_nil _).symm, untouched_nil, ?_⟩
    refine (Circuit.Inside.start htemplate.captures htemplate.locals).congr fun i _ => ?_
    exact iff_of_false id not_usedBy_nil
  have hends : ∀ u, body.Leaves (Builder.entered focus template v) u →
      Runs L v.circuit v.trail u := fun u hu => hbody _ _ _ u hstart hu
  obtain ⟨u, top, outer, hu, hblocks, rfl⟩ := Builder.Form.runBlock_leaves_outer (fun u hu => by
    obtain ⟨seen, -, -, -, top, is, hblocks, -⟩ := hends u hu
    exact ⟨top, _, hblocks, captureAll_length is _⟩) hw
  obtain ⟨seen, htrail, hseen, hsame, top', is, hblocks', hstands⟩ := hends u hu
  obtain ⟨rfl, rfl⟩ := List.cons_eq_cons.1 (hblocks.symm.trans hblocks')
  exact hv.more htrail hseen hstands.used (hsame.trans (.of_store rfl rfl)) rfl

end Lapsed

end Traced

open Traced (Runs Lapsed)

namespace Building

variable {L : Licence} {b : Building L} {s t : Traced} {base : Circuit} {past : List Event}

/-- That until its bodies are done a builder leaves behind what it reads and uses. -/
def Lapses (b : Building L) : Prop := ∀ (r : Reading) (s : Traced) (template : Block),
  template.Blank → (b.bodies template).Keeps (Lapsed L r s)

/-- What a builder has noted and used when it has read what it reads. -/
theorem lapsed_of_head {d : Circuit} (h : b.head.Leaves s.circuit d) :
    Lapsed L b.reading s ⟨d, s.trail ++ [.reads b.reading s.circuit]⟩ := by
  refine ⟨[.reads b.reading s.circuit], b.reading.used s.circuit, rfl,
    untouched_singleton fun c hc => List.mem_singleton.1 hc ▸ .refl _, fun i => ?_, ?_, ?_⟩
  · rw [usedBy_singleton_iff]
    exact (and_iff_left_of_imp Reading.known_of_mem_used).symm
  · rw [head_leaves h]
    exact .of_store (b.reading.name_noted s.circuit) (b.reading.content_noted s.circuit)
  · rw [head_leaves h]
    rfl

/-- A builder that is refused leaves behind what it has read and what its bodies have used. -/
theorem Lapses.of_error {e : CircuitError} (hbodies : b.Lapses) (h : b.run s = .error e t) :
    Lapsed L b.reading s t := by
  rw [run_eq] at h
  rcases Edit.bind_eq_error_iff.1 h with h | ⟨_, u, hturn, h⟩
  · cases h
  cases hturn
  rcases Edit.bind_eq_error_iff.1 h with h | ⟨template, u, hhead, h⟩
  · obtain ⟨d, hd, rfl⟩ := Edit.within_eq_error_iff.1 h
    exact lapsed_of_head (s := s) (.of_error hd)
  obtain ⟨d, hd, rfl⟩ := Edit.within_eq_ok_iff.1 hhead
  have hread := lapsed_of_head (s := s) (.of_ok hd)
  have htemplate := head_blank hd
  rcases Edit.bind_eq_error_iff.1 h with h | ⟨k, v, hran, h⟩
  · exact hbodies _ _ _ htemplate _ _ hread (.of_error h)
  -- the end of a builder that is refused changes nothing more
  obtain ⟨d, hd, rfl⟩ := Edit.within_eq_error_iff.1 h
  obtain rfl := Closing.eq_of_refused hd
  exact hbodies _ _ _ htemplate _ _ hread (.of_ok hran)

/-- A builder that answers has come to its end. -/
theorem Lapses.of_ok (hbodies : b.Lapses) (h : b.run s = .ok () t) : ∃ v k,
    Lapsed L b.reading s v ∧ Closing.run k v.circuit = .ok () t.circuit ∧ t.trail = v.trail := by
  rw [run_eq] at h
  obtain ⟨_, u, hturn, h⟩ := Edit.bind_eq_ok_iff.1 h
  cases hturn
  obtain ⟨template, u, hhead, h⟩ := Edit.bind_eq_ok_iff.1 h
  obtain ⟨d, hd, rfl⟩ := Edit.within_eq_ok_iff.1 hhead
  obtain ⟨k, v, hran, h⟩ := Edit.bind_eq_ok_iff.1 h
  obtain ⟨d', hd', rfl⟩ := Edit.within_eq_ok_iff.1 h
  have hlapsed := lapsed_of_head (s := s) (.of_ok hd)
  exact ⟨v, k, hbodies _ _ _ (head_blank hd) _ _ hlapsed (.of_ok hran), hd', rfl⟩

/-- A builder in a body. -/
theorem Lapses.keeps_runs (hbodies : b.Lapses) :
    (Traced.watch .built b.run).Keeps (Runs L base past) := by
  intro s t hs ht
  obtain ⟨a, ht⟩ := Traced.watch_leaves ht
  have hsame : L.Same base s.circuit := by
    obtain ⟨_, _, _, hinside⟩ := hs
    exact hinside.same
  rcases Traced.watch_eq_ok ht with ⟨_, u, -, hrun, rfl⟩ | ⟨e, u, -, hrun, rfl⟩
  · obtain ⟨v, k, hlapsed, hend, htrail⟩ := hbodies.of_ok hrun
    obtain ⟨seen, hv, hseen, hinside⟩ := hs.lapse hlapsed
    have hafter := hinside.closing hend
    refine Runs.log (s := u) (htrail.trans hv) hseen
      (same_around hsame hafter.same) (hafter.congr fun i _ => ?_)
    exact or_congr_right (and_iff_right rfl).symm
  · obtain ⟨seen, hu, hseen, hinside⟩ := hs.lapse (hbodies.of_error hrun)
    refine Runs.log (s := u) hu hseen (same_around hsame hinside.same)
      (hinside.congr fun i _ => ?_)
    exact (or_iff_left fun huses => nomatch huses.1).symm

end Building

/-- A case that is added, or refused, while the cases of a switch are added. -/
theorem Traced.Lapsed.case {L : Licence} {r : Reading} {s : Traced} {labels : List CaseLabel}
    {body : Edit Traced Unit} {sofar : SwitchCases}
    (hbody : ∀ base past, body.Keeps (Runs L base past)) (hsofar : sofar.template.Blank) :
    (Traced.watch .case (Builder.switchCase Traced.focus labels body sofar)).Keeps
      (Lapsed L r s) := by
  intro v w hv hw
  have hcase : (Builder.switchCase Traced.focus labels body sofar).Keeps (Lapsed L r s) :=
    (Edit.Keeps.ofExcept _).bind fun _ => (Edit.Keeps.ofExcept _).bind fun _ =>
      (runBlock hbody hsofar).bind fun _ => .pure _
  obtain ⟨a, hw⟩ := Traced.watch_leaves hw
  obtain ⟨u, answer, hu, rfl⟩ : ∃ u answer, Lapsed L r s u ∧
      w = u.log (.case v.circuit u.circuit answer) := by
    rcases Traced.watch_eq_ok hw with ⟨_, u, -, hrun, rfl⟩ | ⟨e, u, -, hrun, rfl⟩
    · exact ⟨u, _, hcase v u hv (.of_ok hrun), rfl⟩
    · exact ⟨u, _, hcase v u hv (.of_error hrun), rfl⟩
  exact hu.log (same_around hv.same hu.same) fun _ huses => huses

variable {L : Licence}

mutual

/-- A body keeps to its block: of the blocks around, only the captures grow, by what is used. -/
theorem Script.keeps_runs (base : Circuit) (past : List Event) :
    ∀ body : Script L, body.run.Keeps (Runs L base past)
  | .done answer => .ofExcept answer
  | .look next => fun s t hs ht => Script.keeps_runs base past (next s) s t hs ht
  | .call _ hk next => (Runs.call hk).bind fun answer => Script.keeps_runs base past (next answer)
  | .build b next =>
    (Building.lapses b).keeps_runs.bind fun answer => Script.keeps_runs base past (next answer)

/-- Bodies one after another. -/
theorem Building.lapses : ∀ b : Building L, b.Lapses
  | .ifTest _ body => fun _ _ _ htemplate =>
    (Lapsed.runBlock (fun base past => Script.keeps_runs base past body) htemplate).bind fun _ =>
      .pure _
  | .ifElse _ t f => fun _ _ _ htemplate =>
    (Lapsed.runBlock (fun base past => Script.keeps_runs base past t) htemplate).bind fun _ =>
      (Lapsed.runBlock (fun base past => Script.keeps_runs base past f) htemplate).bind fun _ =>
        .pure _
  | .whileLoop _ body => fun _ _ _ htemplate =>
    (Lapsed.runBlock (fun base past => Script.keeps_runs base past body) htemplate).bind fun _ =>
      .pure _
  | .forLoop _ _ body => fun _ _ _ htemplate =>
    (Lapsed.runBlock (fun base past => Script.keeps_runs base past body) htemplate).bind fun _ =>
      .pure _
  | .switch _ cases => fun r s _ htemplate =>
    (Cases.keeps_lapsed r s cases htemplate).bind fun _ => .pure _
  | .box _ body => fun _ _ _ htemplate =>
    (Lapsed.runBlock (fun base past => Script.keeps_runs base past body) htemplate).bind fun _ =>
      .pure _

/-- The cases of a switch, one after another. -/
theorem Cases.keeps_lapsed (r : Reading) (s : Traced) : ∀ (cases : Cases L) {sofar : SwitchCases},
    sofar.template.Blank → (cases.run sofar).Keeps (Lapsed L r s)
  | .done answer, _, _ => (Edit.Keeps.ofExcept answer).bind fun _ => .pure _
  | .look next, _, hsofar => fun v w hv hw => Cases.keeps_lapsed r s (next v) hsofar v w hv hw
  | .case _ body next, _, hsofar => Traced.keeps_case
    (Traced.Lapsed.case (fun base past => Script.keeps_runs base past body) hsofar)
    fun answer _ hmore => Cases.keeps_lapsed r s (next answer) (hmore ▸ hsofar)

end

end QuantumCircuit
