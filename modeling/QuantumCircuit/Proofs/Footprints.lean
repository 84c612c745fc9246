import QuantumCircuit.Proofs.Spanning

/-!
# Footprints of finished builders

While a program runs, a log keeps the records that its calls append and what the heads of its
builders read (`Logged`). Calls may be refused, and so may cases of a switch; only a builder in
a body has to answer (`Logged.Program`).

The innermost block spans exactly the bits in the log (`Logged.Program.spans`). So the record
of a builder has exactly those bits for operands, in increasing order, and its bodies are on
those bits (`Circuit.Reachable.footprint_exact`).
-/

namespace QuantumCircuit

open Builder (Log Form)
open Circuit (Call Closing Spans)

/-! ## Stacks that go on -/

namespace Circuit

variable {base c d e : Circuit} {α : Type}

/-- That the circuit goes on from `base`, with a block open, and the blocks around that one
stay. -/
structure Drifts (base c : Circuit) : Prop where
  exact : base.content.Exact
  grows : base.content.Grows c.content
  blocks : ∃ top outer, c.blocks = top :: outer ∧ StayAll base.blocks.tail outer

namespace Drifts

theorem refl (hexact : c.content.Exact) (hopen : c.blocks ≠ []) : Drifts c c := by
  obtain ⟨top, outer, hblocks⟩ := List.exists_cons_of_ne_nil hopen
  exact ⟨hexact, .refl _, top, outer, hblocks, hblocks ▸ .refl _⟩

theorem trans (h : Drifts c d) (h' : Drifts d e) : Drifts c e := by
  obtain ⟨top, outer, hd, houter⟩ := h.blocks
  obtain ⟨top', outer', he, houter'⟩ := h'.blocks
  rw [hd] at houter'
  exact ⟨h.exact, h.grows.trans h'.grows, top', outer', he, houter.trans houter'⟩

theorem of_adds (h : Adds c d) : Drifts c d := by
  refine ⟨h.exact, h.grows, ?_⟩
  have hitems := h.items
  generalize c.blocks = blocks at hitems ⊢
  generalize d.blocks = blocks' at hitems ⊢
  cases hitems with
  | intro items hall hflat hlisted hbits houter => exact ⟨_, _, rfl, houter⟩

theorem keeps {edit : Edit Circuit α}
    (h : ∀ c d, c.content.Exact → c.blocks ≠ [] → edit.Leaves c d → Drifts c d) :
    edit.Keeps base.Drifts := by
  intro c d hc hd
  obtain ⟨top, outer, hblocks, -⟩ := hc.blocks
  exact hc.trans (h c d (hc.grows.exact hc.exact) (hblocks ▸ List.cons_ne_nil _ _) hd)

theorem keeps_of_adds {edit : Edit Circuit α} (h : ∀ base : Circuit, edit.Keeps base.Adds) :
    edit.Keeps base.Drifts :=
  keeps fun c d hexact hopen hd => of_adds (h c c d (.refl hexact hopen) hd)

/-- A change to the innermost block. -/
theorem onTop (hexact : c.content.Exact) (hopen : c.blocks ≠ []) (f : Block → Block) :
    Drifts c (c.onTop f) := by
  obtain ⟨name, content, blocks⟩ := c
  cases blocks with
  | nil => exact absurd rfl hopen
  | cons top outer => exact ⟨hexact, .refl _, f top, outer, rfl, .refl outer⟩

theorem useInScope (u : ClassicalUse) (is : List Identifier) :
    (Circuit.useInScope u is).Keeps base.Drifts := by
  refine Edit.Keeps.bind (keeps fun c d hexact hopen hd => ?_) fun _ =>
    .each fun i _ => keeps_of_adds fun _ => .useIdentifier i
  rcases useClassical_leaves hd with rfl | ⟨positions, rfl⟩
  · exact refl hexact hopen
  · exact onTop hexact hopen _

theorem head {σ : Type} (form : Form σ) : form.head.Keeps base.Drifts := by
  cases form with
  | ifTest condition body | ifElse condition trueBody falseBody | whileLoop condition body
  | switch target cases =>
    exact opening_keeps useInScope
  | forLoop indices parameter body => exact .pure _
  | box duration body => exact openBox_keeps useInScope

theorem closing (k : Closing) : k.run.Keeps base.Drifts := by
  refine keeps fun c d hexact hopen hd => ?_
  have hstill : Drifts c c := refl hexact hopen
  unfold Edit.Leaves at hd
  -- a switch without a case is refused before anything happens
  rcases Closing.run_cases k c with hrun | hrun
  · rw [hrun] at hd
    rcases hd with ⟨_, hd⟩ | ⟨_, hd⟩ <;> cases hd
    exact hstill
  cases hitem : k.item? with
  | some item =>
    rw [hrun, hitem] at hd
    rcases hd with ⟨_, hd⟩ | ⟨_, hd⟩
    · obtain ⟨-, rfl⟩ := appendWaiting_eq_ok_iff.1 hd
      exact onTop hexact hopen _
    · rwa [appendWaiting_refused hd]
  | none =>
    rw [hrun, hitem] at hd
    have hclose : (closeOver k.span fun root f => k.make root f).Keeps c.Drifts :=
      .read fun _ => (Edit.Keeps.ofExcept _).bind fun _ => keeps_of_adds fun _ => .append _
    exact hclose c d hstill hd

end Drifts

end Circuit

/-! ## Runs with a log -/

/-- A circuit, and the log of what is done in its innermost block. -/
structure Logged where
  circuit : Circuit
  log : Log

namespace Logged

/-- The circuit as a part. -/
def focus : Focus Logged Circuit := ⟨(·.circuit), fun c s => { s with circuit := c }⟩

/-- Make the call, refused or not, and log the records that it adds to the innermost block. -/
def attempt (k : Call) : Edit Logged Unit := fun s =>
  let c := k.run.leftBy s.circuit
  .ok () ⟨c, s.log.append (.ofItems (c.openItems.drop s.circuit.openItems.length))⟩

/-- Log what the builder reads, and run it. -/
def build (form : Form Logged) : Edit Logged Unit := do
  modify fun s => { s with log := s.log.append (.ofUse form.classicalUse) }
  form.run focus true

/-- Calls, which may be refused, and builders, which must answer. A builder may pass over
cases of a switch that are refused. -/
inductive Program : Edit Logged Unit → Prop
  | done : Program (pure ())
  | call (k : Call) {rest : Edit Logged Unit} : Program rest →
      Program (do
        attempt k
        rest)
  | build (form : Form Logged) {rest : Edit Logged Unit} :
      (∀ body ∈ form.bodies, Program body) → Program rest →
      Program (do
        build form
        rest)

variable {s t u : Logged} {log log' : Log} {template b : Block} {body : Edit Logged Unit}
  {form : Form Logged}

/-! ### Blocks that bodies leave behind -/

/-- That blocks around the innermost one stay, however the body ends. -/
def Drifting (body : Edit Logged Unit) : Prop :=
  ∀ base : Circuit, body.Keeps fun s => base.Drifts s.circuit

/-- However a body ends, the blocks that were open before it stay. -/
theorem Drifting.runBlock (h : Drifting body) (hexact : s.circuit.content.Exact)
    (ht : (Builder.runBlock focus template body).Leaves s t) :
    s.circuit.content.Grows t.circuit.content ∧ StayAll s.circuit.blocks t.circuit.blocks := by
  have hbody : ∀ u, body.Leaves (Builder.entered focus template s) u →
      (Builder.entered focus template s).circuit.Drifts u.circuit := fun u hu =>
    h _ _ u (.refl hexact (List.cons_ne_nil template s.circuit.blocks)) hu
  obtain ⟨u, top, outer, hu, hblocks, rfl⟩ := Form.runBlock_leaves_outer (fun u hu => by
    obtain ⟨top, outer, hblocks, hstay⟩ := (hbody u hu).blocks
    exact ⟨top, outer, hblocks, hstay.length_eq.symm⟩) ht
  obtain ⟨-, hgrows, top', outer', hblocks', hstay⟩ := hbody u hu
  obtain ⟨rfl, rfl⟩ := List.cons_eq_cons.1 (hblocks.symm.trans hblocks')
  exact ⟨hgrows, hstay⟩

/-- Programs keep to the innermost block. -/
theorem Program.drifting (h : Program body) : Drifting body := by
  induction h with
  | done => exact fun base => .pure ()
  | call k hrest ih =>
    refine fun base => Edit.Keeps.bind (fun s t hs ht => ?_) fun _ => ih base
    rcases ht with ⟨_, ht⟩ | ⟨_, ht⟩ <;> cases ht
    exact Circuit.Drifts.keeps_of_adds (fun _ => k.adds) _ _ hs (Edit.leaves_iff.2 rfl)
  | build form hbodies hrest ihbodies ih =>
    refine fun base => Edit.Keeps.bind ?_ fun _ => ih base
    refine Edit.Keeps.bind (.modify fun s hs => hs) fun _ => ?_
    refine Form.run_keeps (fun s t _ ht => ht) ?_
      (fun body hbody template s t hs ht => ?_) fun k => ?_
    · exact .within fun s u hs hu => Circuit.Drifts.head form _ _ hs hu
    · obtain ⟨hgrows, hstay⟩ := (ihbodies body hbody).runBlock (hs.grows.exact hs.exact) ht
      obtain ⟨top, outer, hblocks, houter⟩ := hs.blocks
      rw [hblocks] at hstay
      obtain ⟨top', outer', -, houter', hblocks'⟩ := List.forall₂_cons_left_iff.1 hstay
      exact ⟨hs.exact, hs.grows.trans hgrows, top', outer', hblocks', houter.trans houter'⟩
    · exact .within fun s u hs hu => Circuit.Drifts.closing k _ _ hs hu

/-! ### What bodies log -/

/-- That the innermost block comes to span just the bits in what the body logs. -/
def Tracked (body : Edit Logged Unit) : Prop :=
  ∀ s t : Logged, s.circuit.content.Exact → s.circuit.blocks ≠ [] → body s = .ok () t →
    ∃ log, t.log = s.log.append log ∧ Spans log s.circuit t.circuit

/-- That what is in the log was done in other blocks than those that are open. -/
structure Aside (s : Logged) (log : Log) (t : Logged) : Prop where
  logged : t.log = s.log.append log
  exact : s.circuit.content.Exact
  grows : s.circuit.content.Grows t.circuit.content
  listed : log.Listed t.circuit.content
  stay : StayAll s.circuit.blocks t.circuit.blocks

namespace Aside

theorem refl (hexact : s.circuit.content.Exact) : Aside s .empty s :=
  ⟨(Log.append_empty _).symm, hexact, .refl _, Log.listed_empty, .refl _⟩

theorem exact_right (h : Aside s log t) : t.circuit.content.Exact := h.grows.exact h.exact

theorem trans (h : Aside s log t) (h' : Aside t log' u) : Aside s (log.append log') u :=
  ⟨by rw [h'.logged, h.logged, Log.append_assoc], h.exact, h.grows.trans h'.grows,
    (h.listed.grows h'.grows).append h'.listed, h.stay.trans h'.stay⟩

end Aside

/-- The block of a body spans what it started with and what the body logs. -/
theorem Tracked.runBlock (h : Tracked body) (hexact : s.circuit.content.Exact)
    (hrun : Builder.runBlock focus template body s = .ok b t) :
    ∃ log, Aside s log t ∧ ∀ k n, n ∈ b.span.bits k ↔
      n ∈ template.span.bits k ∨ log.Touches t.circuit.content k n := by
  obtain ⟨u, outer, hbody, hblocks, rfl⟩ := Form.runBlock_eq_ok hrun
  obtain ⟨log, hlog, -, hgrows, hlisted, hspan⟩ :=
    h (Builder.entered focus template s) u hexact (List.cons_ne_nil template s.circuit.blocks) hbody
  have hblocks : u.circuit.blocks = b :: outer := hblocks
  rw [hblocks] at hspan
  have hspan : SpansMore (log.Touches u.circuit.content) (template :: s.circuit.blocks)
      (b :: outer) := hspan
  cases hspan with
  | cons hb houter => exact ⟨log, ⟨hlog, hexact, hgrows, hlisted, houter⟩, hb⟩

/-- The blocks of bodies that were run one after another span what they started with and what
was logged. -/
theorem ran_spans {bodies : List (Edit Logged Unit)} {blocks : List Block}
    (hbodies : ∀ body ∈ bodies, Tracked body ∧ Drifting body) (hexact : s.circuit.content.Exact)
    (h : Form.Ran focus true template bodies s blocks t) :
    ∃ log, Aside s log t ∧ ∀ k n, (∃ b ∈ blocks, n ∈ b.span.bits k) ↔
      (blocks ≠ [] ∧ n ∈ template.span.bits k) ∨ log.Touches t.circuit.content k n := by
  induction h with
  | nil s => exact ⟨.empty, .refl hexact, fun k n => by simp⟩
  | run hrun hrest ih =>
    obtain ⟨⟨hbody, -⟩, hothers⟩ := List.forall_mem_cons.1 hbodies
    obtain ⟨log, haside, hb⟩ := hbody.runBlock hexact hrun
    obtain ⟨log', haside', hblocks⟩ := ih hothers haside.exact_right
    refine ⟨log.append log', haside.trans haside', fun k n => ?_⟩
    rw [List.exists_mem_cons_iff, hblocks, hb, Log.touches_append,
      haside.listed.touches_iff haside'.grows haside'.exact_right]
    simp only [ne_eq, reduceCtorEq, not_false_eq_true, true_and]
    tauto
  | skip _ hrefused hrest ih =>
    obtain ⟨⟨-, hbody⟩, hothers⟩ := List.forall_mem_cons.1 hbodies
    rename_i s t u _
    -- a body that is passed over leaves bits and captures, but logs nothing
    have haside : Aside s .empty (focus.set (focus.get t) s) := by
      rcases hrefused with rfl | ⟨e, hrefused⟩
      · exact .refl hexact
      · obtain ⟨hgrows, hstay⟩ := hbody.runBlock hexact (.of_error hrefused)
        exact ⟨(Log.append_empty _).symm, hexact, hgrows, Log.listed_empty, hstay⟩
    obtain ⟨log, haside', hblocks⟩ := ih hothers haside.exact_right
    exact ⟨log, Log.empty_append log ▸ haside.trans haside', hblocks⟩

/-- A builder that answers widens the innermost block by what it reads and what its bodies
log. If it is finished then, its record is on these bits. -/
theorem form_spans (hbodies : ∀ body ∈ form.bodies, Tracked body ∧ Drifting body)
    (hexact : s.circuit.content.Exact) (h : form.run focus true s = .ok () t) :
    ∃ log, t.log = s.log.append log ∧
      Spans ((Log.ofUse form.classicalUse).append log) s.circuit t.circuit ∧
      ∀ r, t.circuit.last? = some r →
        r.Spanning ((Log.ofUse form.classicalUse).append log) t.circuit.content := by
  obtain ⟨template, blocks, k, u, v, hbegins, hran, hcloses, hends⟩ :=
    Form.run_eq_ok (fun _ => rfl) h
  obtain ⟨d, hhead, rfl⟩ := Edit.within_eq_ok_iff.1 hbegins
  obtain ⟨e, hend, rfl⟩ := Edit.within_eq_ok_iff.1 hends
  obtain ⟨hopened, htemplate⟩ := Circuit.head_spans hexact hhead
  obtain ⟨log, haside, hblocks⟩ := ran_spans hbodies hopened.exact_right hran
  let all := (Log.ofUse form.classicalUse).append log
  have hlisted : all.Listed v.circuit.content :=
    (hopened.listed.grows haside.grows).append haside.listed
  -- what the head has noted is in each block, and stays there when the bodies have run
  have hspan : ∀ x n, (∃ b ∈ k.blocks, n ∈ b.span.bits x) ↔ all.Touches v.circuit.content x n := by
    intro x n
    have hne : blocks ≠ [] := hcloses.blocks ▸ Closing.blocks_ne_nil_of_ok hend
    rw [hcloses.blocks, hblocks, Log.touches_append, htemplate,
      hopened.listed.touches_iff haside.grows haside.exact_right]
    exact or_congr_left (and_iff_right hne)
  have hreads : ∀ bit ∈ k.classicalUse.allClbits, bit ∈ all.clbits := by
    rw [hcloses.classicalUse]
    exact fun bit hbit => Log.mem_clbits_append.2 (.inl (Log.mem_clbits_ofUse.2 hbit))
  obtain ⟨hclosed, hrecord⟩ := Closing.spans haside.exact_right hlisted hreads hspan hend
  refine ⟨log, haside.logged, ?_, hrecord⟩
  -- the head has noted in the block around what the builder reads, and the end does so again
  have hwhole := (hopened.trans (Spans.of_stay haside.exact haside.grows haside.stay)).trans hclosed
  refine hwhole.congr hclosed.listed fun x n => ?_
  simp only [all, Log.touches_append, Log.not_touches_empty, or_false, ← or_assoc, or_self]

/-- The innermost block comes to span just the bits in what a program logs. -/
theorem Program.tracked (h : Program body) : Tracked body := by
  induction h with
  | done =>
    intro s t hexact _ h
    cases h
    exact ⟨.empty, (Log.append_empty _).symm, .refl hexact⟩
  | call k hrest ih =>
    intro s t hexact hopen h
    obtain ⟨_, u, hcall, h⟩ := Edit.bind_eq_ok_iff.1 h
    cases hcall
    -- whether the call is refused or not, what it has added is in the log
    have hadds := k.adds s.circuit _ (Circuit.Adds.refl hexact hopen) (Edit.leaves_iff.2 rfl)
    obtain ⟨log, hlog, hspans⟩ := ih _ t (hadds.grows.exact hexact) hadds.blocks_ne_nil h
    exact ⟨_, by rw [hlog, Log.append_assoc], hadds.spans.trans hspans⟩
  | build form hbodies hrest ihbodies ih =>
    intro s t hexact hopen h
    obtain ⟨_, u, hbuild, h⟩ := Edit.bind_eq_ok_iff.1 h
    obtain ⟨_, v, hlogged, hrun⟩ := Edit.bind_eq_ok_iff.1 hbuild
    cases hlogged
    obtain ⟨log, hlog, hspans, -⟩ := form_spans
      (s := ⟨s.circuit, s.log.append (.ofUse form.classicalUse)⟩)
      (fun body hbody => ⟨ihbodies body hbody, (hbodies body hbody).drifting⟩) hexact hrun
    obtain ⟨log', hlog', hspans'⟩ := ih u t hspans.exact_right (hspans.blocks_ne_nil hopen) h
    exact ⟨_, by simp only [hlog', hlog, Log.append_assoc], hspans.trans hspans'⟩

end Logged

/-! ## Finished builders -/

/-- Any builder in a circuit that calls lead to, that answers and is finished: no branch of it
waits for a loop around it to close. The operands of its record are in increasing order. The
qubits are just those of the records that were appended in its bodies, at any depth. The clbits
are just those of these records, and the clbits

* that the condition or the target of the builder reads,
* that such a record reads, or that are in a register which such a record reads or which a
  body of it has, or
* that the conditions and targets of builders in its bodies read.

All bodies of the record are on the bits at its operands, in order. -/
theorem Circuit.Reachable.footprint_exact {A : Policy} {c f : Circuit} {form : Form Logged}
    {log : Log} {r : Instruction} (hc : c.Reachable A)
    (hbodies : ∀ body ∈ form.bodies, Logged.Program body)
    (hrun : form.run Logged.focus true ⟨c, .empty⟩ = .ok () ⟨f, log⟩) (hlast : f.last? = some r) :
    r.qubits.Pairwise (· < ·) ∧ (∀ q, q ∈ r.qubits ↔ ∃ i ∈ log.appended, q ∈ i.qubits) ∧
      r.clbits.Pairwise (· < ·) ∧
      (∀ b, b ∈ r.clbits ↔ (∃ i ∈ log.appended, b ∈ i.clbits) ∨
        ∃ bit, f.content.clbits.get? b = some bit ∧ (bit ∈ form.classicalUse.allClbits ∨
          (∃ i ∈ log.appended, bit ∈ i.classicalFootprint.allClbits) ∨
          ∃ u ∈ log.read, bit ∈ u.allClbits)) ∧
      ∀ body ∈ r.operation.bodies,
        body.content.qubits.bits.map some = r.qubits.map f.content.qubits.get? ∧
        body.content.clbits.bits.map some = r.clbits.map f.content.clbits.get? := by
  obtain ⟨log', hlog, -, hrecord⟩ := Logged.form_spans
    (fun body hbody => ⟨(hbodies body hbody).tracked, (hbodies body hbody).drifting⟩)
    hc.built.exact hrun
  obtain rfl : log = log' := hlog.trans (Log.empty_append log')
  have hspanning := hrecord r hlast
  refine ⟨hspanning.increasing .quantum, hspanning.mem_iff .quantum,
    hspanning.increasing .classical, fun b => (hspanning.mem_iff .classical b).trans ?_,
    fun body hbody =>
      ⟨hspanning.bodies body hbody .quantum, hspanning.bodies body hbody .classical⟩⟩
  refine or_congr_right (exists_congr fun bit => ?_)
  rw [and_comm, Log.mem_clbits_append, Log.mem_clbits_ofUse]
  simp [Log.clbits]

/-! ### A loop that is left on a condition -/

namespace Logged

/-- Three qubits and two clbits, all loose. -/
def looseBits : Content :=
  Content.empty.after
    [.addBit .quantum (.loose .quantum ⟨0, 0⟩), .addBit .quantum (.loose .quantum ⟨0, 1⟩),
      .addBit .quantum (.loose .quantum ⟨0, 2⟩), .addBit .classical (.loose .classical ⟨1, 0⟩),
      .addBit .classical (.loose .classical ⟨1, 1⟩)]

/-- A gate on the qubit, refused or not. -/
def hadamard (qubit : Nat) : Call := .append (.make (.gate (.fixed .h)) [qubit] [])

/-- Act on qubit 2 while the first clbit is set; when the second is, act on qubit 0 and leave.
The call on qubit 3, which is not there, is refused. -/
def leavingLoop : Form Logged :=
  .whileLoop (.clbit (.loose .classical ⟨1, 0⟩) true) (do
    attempt (hadamard 2)
    attempt (hadamard 3)
    build (.ifTest (.clbit (.loose .classical ⟨1, 1⟩) true) (do
      attempt (hadamard 0)
      attempt (.jump .leave)
      pure ()))
    pure ())

theorem program_of_mem_leavingLoop : ∀ body ∈ leavingLoop.bodies, Program body := by
  refine fun body hbody => List.mem_singleton.1 hbody ▸ .call _ (.call _ (.build _ ?_ .done))
  exact fun body hbody => List.mem_singleton.1 hbody ▸ .call _ (.call _ .done)

end Logged

/-- The loop has qubits 0 and 2 and both clbits for operands. -/
theorem Circuit.footprint_of_leavingLoop : ∃ f log r,
    Circuit.Reachable .any ⟨"c", Logged.looseBits, []⟩ ∧
      Logged.leavingLoop.run Logged.focus true ⟨⟨"c", Logged.looseBits, []⟩, .empty⟩ =
        .ok () ⟨f, log⟩ ∧
      f.last? = some r ∧ r.qubits = [0, 2] ∧ r.clbits = [0, 1] ∧
      (∀ q, q ∈ r.qubits ↔ ∃ i ∈ log.appended, q ∈ i.qubits) ∧
      ∀ body ∈ r.operation.bodies,
        body.content.qubits.bits.map some = r.qubits.map f.content.qubits.get? := by
  let operands : Option (List Nat × List Nat) :=
    match Logged.leavingLoop.run Logged.focus true ⟨⟨"c", Logged.looseBits, []⟩, .empty⟩ with
    | .ok _ s => s.circuit.last?.map fun r => (r.qubits, r.clbits)
    | .error _ _ => none
  have hoperands : operands = some ([0, 2], [0, 1]) := by decide +kernel
  have hreachable : Circuit.Reachable .any ⟨"c", Logged.looseBits, []⟩ := by
    refine .ofStore "c" (Content.Built.empty.after fun k hk i hi => ?_)
    have hnone : k.records = [] := by
      revert k
      simp [Content.Call.records]
    exact absurd (hnone ▸ hi) List.not_mem_nil
  cases hrun : Logged.leavingLoop.run Logged.focus true ⟨⟨"c", Logged.looseBits, []⟩, .empty⟩ with
  | error e s => simp [operands, hrun] at hoperands
  | ok a s =>
    obtain ⟨f, log⟩ := s
    cases hlast : f.last? with
    | none => simp [operands, hrun, hlast] at hoperands
    | some r =>
      obtain ⟨hqubits, hclbits⟩ : r.qubits = [0, 2] ∧ r.clbits = [0, 1] := by
        simpa [operands, hrun, hlast] using hoperands
      obtain ⟨-, hq, -, -, hbodies⟩ :=
        hreachable.footprint_exact Logged.program_of_mem_leavingLoop hrun hlast
      exact ⟨f, log, r, hreachable, rfl, hlast, hqubits, hclbits, hq,
        fun body hbody => (hbodies body hbody).1⟩

end QuantumCircuit
