import QuantumCircuit.Proofs.Scripts
import QuantumCircuit.Proofs.Spanning

/-!
# The block of a body

A body runs in a block of its own. Of the blocks around it only the captures grow, by the
identifiers that were used in the body and can be used around it (`Circuit.Inside`). Each call
that a body may make keeps it so, with what it uses: one that answers (`Inside.call`), one that is
refused (`Inside.refused`), and the end of a builder (`Inside.closing`). So does what a builder
reads itself (`Reading.noted`, `Building.head_leaves`).
-/

namespace QuantumCircuit

open Circuit (Call Closing)

/-! ## Uses in a run -/

/-- Check what the builder reads, and note its clbits and registers. -/
def Reading.note (r : Reading) : Edit Circuit Unit := do
  Edit.ofExcept r.check
  Circuit.useClassical r.use

/-- The identifiers that are used then: up to the first one that cannot be. -/
def Reading.used (r : Reading) (c : Circuit) : List Identifier :=
  match r.note c with
  | .ok _ _ => c.usable r.identifiers
  | .error _ _ => []

/-- That the call uses the identifier when it answers: a record that it adds names it, or it is
inlined by a composition. -/
def Circuit.Call.Names (k : Call) (c : Circuit) (i : Identifier) : Prop :=
  match k with
  | .compose source o => ∃ p s, c.place source o = .ok p ∧ c.splice source o p = .ok s ∧
      o.wrap = false ∧
      (i ∈ s.identifiers.uses ∨ ∃ r ∈ s.records, i ∈ r.operation.identifiers)
  | k => k.Uses c i

/-- That the event uses the identifier: a builder reads it, a call that answers uses it, or the
record of a finished builder names it. -/
def Event.Uses : Event → Identifier → Prop
  | .reads r before, i => i ∈ r.used before
  | .call k before _ answer, i => answer = .ok () ∧ k.Names before i
  | .built _ after answer, i =>
    answer = .ok () ∧ ∃ r, after.last? = some r ∧ i ∈ r.operation.identifiers
  | .case _ _ _, _ => False

/-- That some event uses the identifier. -/
def UsedBy (trail : List Event) (i : Identifier) : Prop := ∃ e ∈ trail, e.Uses i

/-- That around all events the circuit was the same, as far as the licence lets it be. -/
def Untouched (L : Licence) (base : Circuit) (trail : List Event) : Prop :=
  ∀ e ∈ trail, ∀ c ∈ e.circuits, L.Same base c

section

variable {xs ys : List Event} {e : Event} {i : Identifier} {L : Licence} {base c d : Circuit}

theorem not_usedBy_nil : ¬ UsedBy [] i := by simp [UsedBy]

theorem usedBy_append_iff : UsedBy (xs ++ ys) i ↔ UsedBy xs i ∨ UsedBy ys i := by
  simp [UsedBy, or_and_right, exists_or]

theorem usedBy_singleton_iff : UsedBy [e] i ↔ e.Uses i := by simp [UsedBy]

theorem untouched_nil : Untouched L base [] := fun _ h => absurd h List.not_mem_nil

theorem Untouched.append (hx : Untouched L base xs) (hy : Untouched L base ys) :
    Untouched L base (xs ++ ys) := List.forall_mem_append.2 ⟨hx, hy⟩

theorem untouched_singleton (h : ∀ c ∈ e.circuits, L.Same base c) : Untouched L base [e] :=
  fun _ he => List.mem_singleton.1 he ▸ h

theorem same_around (hc : L.Same base c) (hd : L.Same base d) : ∀ e ∈ [c, d], L.Same base e :=
  List.forall_mem_cons.2 ⟨hc, List.forall_mem_singleton.2 hd⟩

theorem Untouched.trans (h : L.Same base c) (hx : Untouched L c xs) : Untouched L base xs :=
  fun e he d hd => h.trans (hx e he d hd)

end

/-! ## Calls on the store -/

/-- The calls that a circuit passes on leave the identifiers alone, refused or not. -/
theorem Content.Call.identifiers_of_passedOn {k : Content.Call} (hk : k.PassedOn) {c d : Content}
    (h : k.run.Leaves c d) : d.identifiers = c.identifiers := by
  cases k with
  | addBit _ bit =>
    obtain ⟨l, rfl⟩ := addBit_leaves (leaves_addBit_iff.1 h)
    exact bitFocus_set_identifiers l c
  | addRegister _ r =>
    obtain ⟨l, rfl⟩ := addRegister_leaves h
    exact bitFocus_set_identifiers l c
  | clear =>
    cases Edit.leaves_modify_iff.1 h
    rfl
  | setPhase phase => rcases setPhase_leaves h with rfl | rfl <;> rfl
  | listParameters =>
    obtain rfl := leaves_listParameters_iff.1 h
    rfl
  | assign s strict =>
    rcases assignParameters_leaves h with h | rfl
    · exact (assign_frame h).2.2
    · rfl
  | addIdentifier _ _ | push _ | insertFront _ | pop | setDuration _ | copyEmpty _ => cases hk

/-- A call past the scope, where a block is open, leaves the blocks and which identifiers the
store has as they were, refused or not. -/
theorem Circuit.Call.leaves_of_past {k : Call} {c d : Circuit} (hk : Licence.full.Allows k)
    (hpast : ¬ k.ToScope) (hopen : c.blocks ≠ []) (h : k.run.Leaves c d) :
    d.blocks = c.blocks ∧ Licence.full.Same c d := by
  cases k with
  | store k =>
    obtain ⟨content, hcontent, rfl⟩ := Edit.leaves_within_iff.1 h
    exact ⟨rfl, k.identifiers_of_passedOn hk hcontent⟩
  | rename name =>
    cases Edit.leaves_modify_iff.1 h
    exact ⟨rfl, rfl⟩
  | addOuter i kind =>
    obtain rfl := addOuter_of_open hopen h
    exact ⟨rfl, rfl⟩
  | measureAll stamp =>
    obtain rfl := measureAll_of_open hopen h
    exact ⟨rfl, rfl⟩
  | addLoose kind count stamp =>
    have hkeeps : (Circuit.addLoose kind count stamp).Keeps
        fun d => d.blocks = c.blocks ∧ Licence.full.Same c d := by
      refine .mapM fun serial _ => .within fun u content hu hcontent => ⟨hu.1, ?_⟩
      obtain ⟨l, rfl⟩ := Content.addBit_leaves hcontent
      exact (Content.bitFocus_set_identifiers l u.content).trans hu.2
    exact (hkeeps.bind fun _ => .pure ()) c d ⟨rfl, .refl c⟩ h
  | append _ | appendHandles _ | appendOperation _ _ _ | barrier _ | barrierAll | delay _ _
  | write _ _ | addVar _ _ | declare _ | jump _ | compose _ _ => exact absurd trivial hpast

/-! ## The block of a body -/

/-- The innermost block of a body that goes on from `base`: nothing that can be used around it has
the name of one of its locals, and its captures, which have gone through, are what was used and can
be used around it. -/
structure Block.Stands (base : Circuit) (U : Identifier → Prop) (is : List Identifier)
    (top : Block) : Prop where
  locals : top.locals.Listed
  apart : ∀ i, top.locals.hasName i.name → ¬ Known base.content base.blocks i
  captures : ∀ i, i ∈ top.footprint.captures ↔ i ∈ is
  used : ∀ i, i ∈ is ↔ U i ∧ Known base.content base.blocks i

namespace Circuit

variable {L : Licence} {base c d : Circuit} {U V : Identifier → Prop} {i : Identifier}
  {is : List Identifier}

theorem onTop_onTop (c : Circuit) (f g : Block → Block) :
    (c.onTop f).onTop g = c.onTop fun top => g (f top) := by
  unfold onTop
  cases hblocks : c.blocks <;> simp [hblocks]

/-- A record that is put at the end of the innermost block is the last of the scope. -/
theorem last?_snoc_record (hopen : c.blocks ≠ []) (r : Instruction) :
    (c.onTop (·.snoc (.record r))).last? = some r := by
  obtain ⟨top, outer, hblocks⟩ := List.exists_cons_of_ne_nil hopen
  simp only [last?, onTop, hblocks, Block.snoc, List.getLast?_concat]

/-- If a record is the last of the scope then, it was put there. -/
theorem eq_record_of_last?_snoc {item : BlockItem} {r : Instruction} (hopen : c.blocks ≠ [])
    (h : (c.onTop (·.snoc item)).last? = some r) : item = .record r := by
  obtain ⟨top, outer, hblocks⟩ := List.exists_cons_of_ne_nil hopen
  simp only [last?, onTop, hblocks, Block.snoc, List.getLast?_concat] at h
  cases item <;> cases h
  rfl

/-- That `c` is `base` with a block of a body open in it, in which the identifiers in `U` have
been used. -/
structure Inside (L : Licence) (base : Circuit) (U : Identifier → Prop) (c : Circuit) :
    Prop where
  same : L.Same base c
  blocks : ∃ top is, c.blocks = top :: captureAll is base.blocks ∧ top.Stands base U is

namespace Inside

theorem blocks_ne_nil (h : Inside L base U c) : c.blocks ≠ [] := by
  obtain ⟨top, is, hblocks, -⟩ := h.blocks
  exact hblocks ▸ List.cons_ne_nil _ _

theorem congr (h : Inside L base U c)
    (hUV : ∀ i, Known base.content base.blocks i → (U i ↔ V i)) : Inside L base V c := by
  obtain ⟨hsame, top, is, hblocks, hlocals, hapart, hcaptures, hused⟩ := h
  refine ⟨hsame, top, is, hblocks, hlocals, hapart, hcaptures, fun i => ?_⟩
  exact (hused i).trans (and_congr_left fun hi => hUV i hi)

/-- What can be used around the body can be used in it. -/
theorem known (h : Inside L base U c) (hi : Known base.content base.blocks i) :
    Known c.content c.blocks i := by
  obtain ⟨hsame, top, is, hblocks, hstands⟩ := h
  have hall : ∀ j ∈ is, Known base.content base.blocks j := fun j hj => ((hstands.used j).1 hj).2
  rw [known_congr hsame.identifiers, hblocks]
  exact known_cons_iff.2 (.inr ⟨fun hname => hstands.apart i hname hi,
    (known_captureAll_iff hall).2 hi⟩)

/-- The circuit as a body finds it. -/
theorem start {template : Block} (hcaptures : template.footprint.captures = [])
    (hlocals : template.locals = .empty) :
    Inside L base (fun _ => False) { base with blocks := template :: base.blocks } := by
  refine ⟨.of_store rfl rfl, template, [], rfl, hlocals ▸ IdentifierTable.listed_empty,
    fun i hi => ?_, fun i => by rw [hcaptures], fun i => ?_⟩
  · rw [hlocals] at hi
    exact absurd hi Bool.false_ne_true
  · simp

/-- A use goes out to the block that has the identifier, past the block of the body or not. -/
theorem use (h : Inside L base U c) (hi : Known c.content c.blocks i) :
    Inside L base (fun j => U j ∨ j = i) (c.capture [i]) := by
  obtain ⟨hsame, top, is, hblocks, hlocals, hapart, hcaptures, hused⟩ := h
  have hall : ∀ j ∈ is, Known base.content base.blocks j := fun j hj => ((hused j).1 hj).2
  rw [known_congr hsame.identifiers, hblocks] at hi
  refine ⟨hsame.trans (.of_store rfl rfl), ?_⟩
  show ∃ top' is', captureThrough i c.blocks = _ ∧ _
  rw [hblocks]
  by_cases hresolves : top.resolves i
  · -- either a local, which cannot be used outside, or one that has gone through before
    refine ⟨top, is, captureThrough_of_resolves hresolves, hlocals, hapart, hcaptures,
      fun j => ?_⟩
    rw [hused j]
    refine and_congr_left fun hj => (or_iff_left_of_imp fun hji => ?_).symm
    subst hji
    rcases Block.resolves_iff.1 hresolves with hlocal | hcaptured
    · exact absurd hj (hapart j (IdentifierTable.hasName_of_contains hlocal))
    · exact ((hused j).1 ((hcaptures j).1 hcaptured)).1
  · have houter := ((known_cons_iff.1 hi).resolve_left hresolves).2
    refine ⟨top.touch ⟨[], [], [], [i]⟩, is ++ [i], ?_, hlocals, hapart, fun j => ?_,
      fun j => ?_⟩
    · rw [captureThrough_of_not_resolves hresolves, captureAll_append]
      rfl
    · rw [Block.mem_captures_touch, hcaptures, List.mem_append]
    · rw [List.mem_append, List.mem_singleton, hused j, or_and_right]
      refine or_congr_right (iff_self_and.2 fun hj => ?_)
      exact hj ▸ (known_captureAll_iff hall).1 houter

theorem capture (h : Inside L base U c) (his : ∀ i ∈ is, Known c.content c.blocks i) :
    Inside L base (fun j => U j ∨ j ∈ is) (c.capture is) := by
  induction is generalizing c U with
  | nil =>
    rw [capture_nil]
    exact h.congr fun j _ => by simp
  | cons i rest ih =>
    obtain ⟨hi, hrest⟩ := List.forall_mem_cons.1 his
    refine (ih (h.use hi) fun j hj => (known_captureThrough_iff hi).2 (hrest j hj)).congr ?_
    exact fun j _ => by rw [List.mem_cons, or_assoc]

/-- A change to the innermost block that leaves its locals and captures alone. -/
theorem onTop (h : Inside L base U c) {f : Block → Block} (hlocals : ∀ b, (f b).locals = b.locals)
    (hcaptures : ∀ b, (f b).footprint.captures = b.footprint.captures) :
    Inside L base U (c.onTop f) := by
  obtain ⟨hsame, top, is, hblocks, hstands⟩ := h
  unfold Circuit.onTop
  rw [hblocks]
  refine ⟨hsame.trans (.of_store rfl rfl), f top, is, rfl, (hlocals top).symm ▸ hstands.locals,
    fun i hi => ?_, fun i => ?_, hstands.used⟩
  · exact hstands.apart i (hlocals top ▸ hi)
  · rw [hcaptures]
    exact hstands.captures i

theorem touch (h : Inside L base U c) {f : Footprint} (hf : f.captures = []) :
    Inside L base U (c.onTop (·.touch f)) :=
  h.onTop (fun _ => rfl) fun b => by
    unfold Block.touch Footprint.union
    rw [hf]
    rfl

theorem snoc (h : Inside L base U c) (item : BlockItem) : Inside L base U (c.onTop (·.snoc item)) :=
  h.onTop (fun _ => rfl) fun _ => rfl

theorem declare (h : Inside L base U c) (hd : Circuit.declare i c = .ok () d) :
    Inside L base U d := by
  obtain ⟨hsame, top, is, hblocks, hstands⟩ := h
  obtain ⟨hcheck, rfl⟩ := (declare_eq_ok_iff_of_open hblocks).1 hd
  obtain ⟨hvisible, hnone⟩ := checkDeclaration_eq_ok hblocks hcheck
  refine ⟨hsame.trans (.of_store rfl rfl), _, is, rfl, hstands.locals.insert hnone _,
    fun j hj => ?_, hstands.captures, hstands.used⟩
  rcases (IdentifierTable.hasName_insert_iff hnone).1 hj with hj | hname'
  · exact hstands.apart j hj
  · -- what can be used around the body is visible in it
    intro hknown
    have hall : ∀ i ∈ is, Known base.content base.blocks i := fun i hi =>
      ((hstands.used i).1 hi).2
    have houter : Known c.content (captureAll is base.blocks) j :=
      (known_congr hsame.identifiers).2 ((known_captureAll_iff hall).2 hknown)
    have hseen := nameVisible_of_known (c := ⟨c.name, c.content, captureAll is base.blocks⟩) houter
    rw [hname'] at hseen
    unfold nameVisible at hseen hvisible
    rw [hblocks, List.any_cons] at hvisible
    simp only [Bool.or_eq_true, Bool.or_eq_false_iff] at hseen hvisible
    obtain ⟨⟨hroot, hregister⟩, -, hblocks⟩ := hvisible
    simp [hroot, hregister, hblocks] at hseen

theorem jump {j : Jump} (h : Inside L base U c) (hd : Circuit.jump j c = .ok () d) :
    Inside L base U d := by
  obtain ⟨top, is, hblocks, -⟩ := h.blocks
  obtain ⟨-, rfl⟩ := (jump_eq_ok_iff_of_open hblocks).1 hd
  exact h.snoc (.jump j)

/-- A record that is added uses what its operation names. -/
theorem append {r : Instruction} (h : Inside L base U c) (hd : Circuit.append r c = .ok () d) :
    Inside L base (fun i => U i ∨ i ∈ r.operation.identifiers) d ∧ d.last? = some r := by
  rcases append_cases h.blocks_ne_nil r with ⟨e, hrefused⟩ | ⟨-, htakes, f, g, hf, hg, hadded⟩
  · cases hrefused.symm.trans hd
  cases hadded.symm.trans hd
  have hnoted := ((h.capture htakes.identifiers).touch hf).touch hg
  have hadd : c.withRecord r f g = (((c.capture r.operation.identifiers).onTop
      (·.touch f)).onTop (·.touch g)).onTop (·.snoc (.record r)) :=
    (onTop_onTop _ (fun top => top.touch g) fun top => top.snoc (.record r)).symm
  rw [hadd]
  exact ⟨hnoted.snoc (.record r), last?_snoc_record hnoted.blocks_ne_nil r⟩

theorem each_append {rs : List Instruction} (h : Inside L base U c)
    (hd : Edit.each Circuit.append rs c = .ok () d) :
    Inside L base (fun i => U i ∨ ∃ r ∈ rs, i ∈ r.operation.identifiers) d := by
  induction rs generalizing c U with
  | nil =>
    cases hd
    exact h.congr fun i _ => by simp
  | cons r rest ih =>
    obtain ⟨_, u, hu, hd⟩ := Edit.bind_eq_ok_iff.1 hd
    refine (ih (h.append hu).1 hd).congr fun i _ => ?_
    rw [List.exists_mem_cons_iff, or_assoc]

theorem each_declare (h : Inside L base U c) (hd : Edit.each Circuit.declare is c = .ok () d) :
    Inside L base U d := by
  induction is generalizing c with
  | nil =>
    cases hd
    exact h
  | cons i rest ih =>
    obtain ⟨_, u, hu, hd⟩ := Edit.bind_eq_ok_iff.1 hd
    exact ih (h.declare hu) hd

theorem compose {source : Circuit} {o : ComposeOptions} (h : Inside L base U c)
    (hd : Circuit.compose source o c = .ok () d) :
    Inside L base (fun i => U i ∨ (Call.compose source o).Names c i) d := by
  obtain ⟨p, hp, ⟨hwrap, op, -, hd⟩ | ⟨hwrap, s, hs, hd⟩⟩ :=
    compose_eq_ok_of_open h.blocks_ne_nil hd
  · -- one operation, which names no identifiers
    refine (h.append hd).1.congr fun i _ => or_congr_right (iff_of_false List.not_mem_nil ?_)
    rintro ⟨p', s, -, -, hunwrapped, -⟩
    cases hwrap.symm.trans hunwrapped
  · obtain ⟨-, v, w, huses, hdeclarations, hrecords⟩ := addSpliceInScope_eq_ok hd
    have hknown := known_of_each_useIdentifier huses
    cases (each_useIdentifier_of_known hknown).symm.trans huses
    refine (((h.capture hknown).each_declare hdeclarations).each_append hrecords).congr
      fun i _ => ?_
    rw [or_assoc]
    refine or_congr_right ⟨fun hi => ⟨p, s, hp, hs, hwrap, hi⟩, ?_⟩
    rintro ⟨p', s', hp', hs', -, hi⟩
    cases hp.symm.trans hp'
    cases hs.symm.trans hs'
    exact hi

/-- What goes past the scope is no matter for the block of the body. -/
theorem past {k : Call} (hk : L.Allows k) (hpast : ¬ k.ToScope) (h : Inside L base U c)
    (hd : k.run.Leaves c d) : Inside L base U d := by
  cases L with
  | scope => exact absurd hk hpast
  | full =>
    obtain ⟨hblocks, hsame⟩ := Call.leaves_of_past hk hpast h.blocks_ne_nil hd
    exact ⟨h.same.trans hsame, hblocks ▸ h.blocks⟩

/-- A call that is refused uses nothing. -/
theorem refused {k : Call} {e : CircuitError} (hk : L.Allows k) (h : Inside L base U c)
    (hd : k.run c = .error e d) : Inside L base U d := by
  by_cases hscope : k.ToScope
  · exact Call.eq_of_refused hscope h.blocks_ne_nil hd ▸ h
  · exact h.past hk hscope (.of_error hd)

/-- A call on the scope that answers uses what it names. -/
theorem callToScope {k : Call} (hk : k.ToScope) (h : Inside L base U c) (hd : k.run c = .ok () d) :
    Inside L base (fun i => U i ∨ k.Names c i) d := by
  have honScope : k.OnScope → Inside L base (fun i => U i ∨ k.Uses c i) d := by
    intro hk
    obtain ⟨rs, u, hrs, hfirst, hadd⟩ := k.run_eq_ok hk hd
    have hu : Inside L base U u := by
      cases k with
      | addVar v initial => exact h.declare hfirst
      | declare i => exact h.declare hfirst
      | jump j => exact h.jump hfirst
      | append _ | appendHandles _ | appendOperation _ _ _ | barrier _ | barrierAll | delay _ _
      | write _ _ =>
        cases hfirst
        exact h
      | store _ | rename _ | addOuter _ _ | addLoose _ _ _ | measureAll _ | compose _ _ => cases hk
    refine (hu.each_append hadd).congr fun i _ => or_congr_right ⟨fun hi => ⟨rs, hrs, hi⟩, ?_⟩
    rintro ⟨rs', hrs', hi⟩
    cases hrs.symm.trans hrs'
    exact hi
  cases k with
  | compose source o => exact h.compose hd
  | _ => exact honScope hk

/-- A call that answers uses what it names. -/
theorem call {k : Call} (hk : L.Allows k) (h : Inside L base U c) (hd : k.run c = .ok () d) :
    Inside L base (fun i => U i ∨ k.Names c i) d := by
  by_cases hscope : k.ToScope
  · exact h.callToScope hscope hd
  · refine (h.past hk hscope (.of_ok hd)).congr fun i _ => (or_iff_left ?_).symm
    -- it adds no records to the scope
    cases k with
    | store _ | rename _ | addOuter _ _ | addLoose _ _ _ | measureAll _ =>
      rintro ⟨rs, hrs, r, hr, -⟩
      cases hrs
      exact absurd hr List.not_mem_nil
    | append _ | appendHandles _ | appendOperation _ _ _ | barrier _ | barrierAll | delay _ _
    | write _ _ | addVar _ _ | declare _ | jump _ | compose _ _ => exact absurd trivial hscope

/-- The end of a builder uses what its record names, if it is finished then. -/
theorem closing {k : Closing} (h : Inside L base U c) (hd : k.run c = .ok () d) :
    Inside L base (fun i => U i ∨ ∃ r, d.last? = some r ∧ i ∈ r.operation.identifiers) d := by
  rcases k.run_eq_ok hd with ⟨item, hitem, -, rfl⟩ | ⟨-, flow, -, hadded⟩
  · refine (h.snoc item).congr fun i _ => (or_iff_left ?_).symm
    -- an item that waits is no record
    rintro ⟨r, hlast, -⟩
    cases eq_record_of_last?_snoc h.blocks_ne_nil hlast
    exact Closing.item?_ne_record hitem
  · obtain ⟨hafter, hlast⟩ := h.append hadded
    refine hafter.congr fun i _ => or_congr_right ⟨fun hi => ⟨_, hlast, hi⟩, ?_⟩
    rintro ⟨r, hr, hi⟩
    cases hlast.symm.trans hr
    exact hi

end Inside

/-! ## What a builder reads -/

theorem known_touch_iff {f : Footprint} (hf : f.captures = []) :
    Known c.content (c.onTop (·.touch f)).blocks i ↔ Known c.content c.blocks i := by
  cases hblocks : c.blocks with
  | nil => rw [onTop_of_closed hblocks, hblocks]
  | cons top outer =>
    rw [onTop_of_blocks hblocks]
    exact known_cons_congr (fun j => Block.resolves_touch hf) rfl

theorem onTop_touch_empty (c : Circuit) : c.onTop (·.touch .empty) = c := by
  obtain ⟨name, content, blocks⟩ := c
  cases blocks with
  | nil => rfl
  | cons top outer =>
    cases top
    rfl

end Circuit

namespace Reading

variable {r : Reading} {c d : Circuit} {i : Identifier}

/-- The clbits and registers that are noted: none where the check fails or one is not there. -/
def span (r : Reading) (c : Circuit) : Footprint :=
  match r.check, c.content.classicalPositions r.use with
  | .ok (), .ok positions => ⟨[], positions, r.use.registers, []⟩
  | _, _ => .empty

/-- The circuit with what is noted in its innermost block. -/
def noted (r : Reading) (c : Circuit) : Circuit := c.onTop (·.touch (r.span c))

/-- Whether that is refused or not, what is noted goes into the innermost block. -/
theorem leftBy_note (r : Reading) (c : Circuit) : r.note.leftBy c = r.noted c := by
  obtain ⟨name, content, blocks⟩ := c
  unfold noted span note
  cases hcheck : r.check with
  | error e => exact (Circuit.onTop_touch_empty _).symm
  | ok _ =>
    refine (Edit.leaves_iff.1 (Edit.leaves_update_iff.2 ?_)).symm
    cases blocks with
    | nil =>
      cases hclassical : content.checkClassical r.use with
      | error e => exact .inr ⟨⟨e, by simp only; rfl⟩, rfl⟩
      | ok _ => exact .inl (by simp only; rfl)
    | cons top outer =>
      cases hpositions : content.classicalPositions r.use with
      | error e =>
        exact .inr ⟨⟨e, by simp only; rfl⟩, Circuit.onTop_touch_empty ⟨name, content, top :: outer⟩⟩
      | ok positions => exact .inl (by simp only; rfl)

theorem content_noted (r : Reading) (c : Circuit) : (r.noted c).content = c.content :=
  Circuit.onTop_content _ c

theorem name_noted (r : Reading) (c : Circuit) : (r.noted c).name = c.name :=
  Circuit.onTop_name _ c

theorem captures_span (r : Reading) (c : Circuit) : (r.span c).captures = [] := by
  unfold span
  split <;> rfl

theorem qubits_span (r : Reading) (c : Circuit) : (r.span c).qubits = [] := by
  unfold span
  split <;> rfl

theorem known_noted_iff : Known (r.noted c).content (r.noted c).blocks i ↔
    Known c.content c.blocks i := by
  rw [r.content_noted]
  exact Circuit.known_touch_iff (r.captures_span c)

theorem known_of_mem_used (h : i ∈ r.used c) : Known c.content c.blocks i := by
  unfold used at h
  split at h
  · exact Circuit.known_of_mem_usable h
  · exact absurd h List.not_mem_nil

/-- The head of a builder notes what it reads, and uses the identifiers up to the first one that
cannot be. What comes after changes nothing. -/
theorem leaves {α : Type} {rest : Edit Circuit α} (hrest : ∀ c d, rest.Leaves c d → d = c)
    (h : (do
      Edit.ofExcept r.check
      Circuit.useInScope r.use r.identifiers
      rest : Edit Circuit α).Leaves c d) : d = (r.noted c).capture (r.used c) := by
  have hsplit : (do
      Edit.ofExcept r.check
      Circuit.useInScope r.use r.identifiers
      rest : Edit Circuit α) = (do
        r.note
        Edit.each Circuit.useIdentifier r.identifiers
        rest) := by
    simp only [note, Circuit.useInScope, bind_assoc]
  rw [hsplit] at h
  rcases Edit.leaves_bind_iff.1 h with ⟨e, he⟩ | ⟨_, u, hnote, h⟩
  · have hused : r.used c = [] := by
      unfold used
      rw [he]
    rw [hused, Circuit.capture_nil]
    exact (Edit.leaves_iff.1 (.of_error he)).trans (r.leftBy_note c)
  · have hu : u = r.noted c := (Edit.leaves_iff.1 (.of_ok hnote)).trans (r.leftBy_note c)
    have hused : r.used c = u.usable r.identifiers := by
      unfold used
      rw [hnote]
      refine congrArg (List.takeWhile · r.identifiers) (funext fun i => ?_)
      exact Bool.eq_iff_iff.2 (Circuit.isOk_eq_true_iff.trans
        ((hu ▸ known_noted_iff).symm.trans Circuit.isOk_eq_true_iff.symm))
    rw [hused, ← hu]
    rcases Edit.leaves_bind_iff.1 h with ⟨e, he⟩ | ⟨_, v, hv, h⟩
    · exact Circuit.each_useIdentifier_leaves_usable (.of_error he)
    · rw [hrest v d h]
      exact Circuit.each_useIdentifier_leaves_usable (.of_ok hv)

end Reading

/-- A block as builders open it: without captures and locals. -/
structure Block.Blank (b : Block) : Prop where
  captures : b.footprint.captures = []
  locals : b.locals = .empty

namespace Building

variable {L : Licence} {b : Building L} {c d : Circuit} {template : Block}

/-- The head of a builder that reads nothing leaves the circuit as it was. -/
theorem read_nothing (c : Circuit) :
    c = (Reading.noted ⟨.ok (), .none, []⟩ c).capture
      (Reading.used ⟨.ok (), .none, []⟩ c) := by
  refine Reading.leaves (r := ⟨.ok (), .none, []⟩)
    (fun _ _ => (Edit.leaves_pure_iff (a := ())).1) ?_
  have hnone : Circuit.useClassical .none c = .ok () c := by
    obtain ⟨name, content, blocks⟩ := c
    refine Edit.update_eq_ok_iff.2 ?_
    cases blocks with
    | nil => rfl
    | cons top outer =>
      cases top
      rfl
  refine .of_ok (a := ()) ((Edit.bind_apply_of_ok rfl).trans ?_)
  exact Edit.bind_apply_of_ok ((Edit.bind_apply_of_ok hnone).trans rfl)

theorem head_leaves (h : b.head.Leaves c d) :
    d = (b.reading.noted c).capture (b.reading.used c) := by
  have hstill : ∀ (f : Circuit → Except CircuitError Block) (c d : Circuit),
      (do
        let c ← get
        Edit.ofExcept (f c) : Edit Circuit Block).Leaves c d → d = c :=
    fun f c d h => Edit.leaves_ofExcept_iff.1 (Edit.leaves_get_bind_iff.1 h)
  cases b with
  | ifTest condition _ | ifElse condition _ _ | whileLoop condition _ | switch target _ =>
    exact Reading.leaves (hstill _) h
  | forLoop indices parameter body => exact (Edit.leaves_pure_iff.1 h).trans (read_nothing c)
  | box duration body =>
    cases duration with
    | none => exact (Edit.leaves_pure_iff.1 h).trans (read_nothing c)
    | some t => exact Reading.leaves (fun _ _ => Edit.leaves_pure_iff.1) h

theorem head_blank (h : b.head c = .ok template d) : template.Blank := by
  have hseeded : ∀ {content : Content} {u : ClassicalUse} {ban : Option JumpBan},
      Block.seeded content u ban = .ok template → template.Blank := by
    intro content u ban h
    obtain ⟨positions, -, h⟩ := Checking.bind_eq_ok_iff.1 h
    cases h
    exact ⟨rfl, rfl⟩
  cases b with
  | ifTest condition _ | ifElse condition _ _ | whileLoop condition _ | switch target _ =>
    obtain ⟨_, u, -, h⟩ := Edit.bind_eq_ok_iff.1 h
    obtain ⟨_, v, -, h⟩ := Edit.bind_eq_ok_iff.1 h
    rw [Edit.get_bind_apply] at h
    exact hseeded (Edit.ofExcept_eq_ok_iff.1 h).1
  | forLoop indices parameter body =>
    cases h
    exact ⟨rfl, rfl⟩
  | box duration body =>
    cases duration with
    | none =>
      cases h
      exact ⟨rfl, rfl⟩
    | some t =>
      obtain ⟨_, u, -, h⟩ := Edit.bind_eq_ok_iff.1 h
      obtain ⟨_, v, -, h⟩ := Edit.bind_eq_ok_iff.1 h
      cases h
      exact ⟨rfl, rfl⟩

end Building

end QuantumCircuit
