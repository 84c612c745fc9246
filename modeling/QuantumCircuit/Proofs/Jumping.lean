import QuantumCircuit.Proofs.Resolving

/-!
# Jumps in builders

Which builders a circuit is in, and what has been recorded in their bodies, can be followed
beside the circuit (`Underway`). A jump is accepted in a body if the nearest builder around it
that is a loop or a box is a loop. It is recorded there, and so is every branch with a jump in it
when its bodies have ended. When the loop ends, all that was recorded in its body has become
records of the body, and what waited is over all its bits (`Underway.jumps_resolved`).

What a step of a builder does to jumps shows in the bans and items of the open blocks
(`Circuit.held`): a call adds records to the innermost one and leaves the others alone
(`Circuit.Call.appends`).
-/

namespace QuantumCircuit

open Circuit (Call Closing Head)

/-! ## What the blocks hold -/

namespace Circuit

variable {c d e : Circuit} {rs : List Instruction} {xs ys : List BlockItem}

/-- Of every open block, why jumps are forbidden there and what it holds. -/
def held (c : Circuit) : List (Option JumpBan × List BlockItem) :=
  c.blocks.map fun b => (b.ban, b.items)

/-- That the innermost block has got the items at its end, and the blocks hold nothing else that
is new. -/
def Appends (xs : List BlockItem) (c d : Circuit) : Prop :=
  d.held = c.held.modifyHead fun h => (h.1, h.2 ++ xs)

theorem appends_nil_iff : Appends [] c d ↔ d.held = c.held := by
  rw [Appends]
  cases c.held <;> simp

theorem Appends.trans (h : Appends xs c d) (h' : Appends ys d e) : Appends (xs ++ ys) c e := by
  rw [Appends] at h h' ⊢
  rw [h', h]
  cases c.held <;> simp

theorem appends_onTop (item : BlockItem) : Appends [item] c (c.onTop (·.snoc item)) := by
  obtain ⟨name, content, blocks⟩ := c
  cases blocks <;> rfl

/-- A gain of records shows in the innermost block. -/
theorem Gains.appends {is : List Identifier} (h : c.Gains is rs d) :
    Appends (rs.map .record) c d := by
  have hbans := h.bans
  have hscopes := congrArg (List.map Prod.snd) h.scopes
  obtain ⟨name, content, blocks⟩ := c
  obtain ⟨name', content', blocks'⟩ := d
  cases blocks with
  | nil =>
    obtain rfl : blocks' = [] := List.map_eq_nil_iff.1 hbans
    rfl
  | cons b outer =>
    cases blocks' with
    | nil => cases hbans
    | cons b' outer' =>
      simp only [List.map_cons, List.cons.injEq] at hbans
      simp only [Circuit.scopes, List.map_append, List.map_map, List.map_cons, List.modifyHead_cons,
        List.cons_append, List.cons.injEq, Function.comp_def, List.map_nil] at hscopes
      obtain ⟨hban, hbans⟩ := hbans
      obtain ⟨hitems, houter⟩ := hscopes
      -- the store comes last, so that the blocks around are all that is before it
      have houter := (List.append_inj' houter rfl).1
      have hheld : outer'.map (fun b => (b.ban, b.items)) =
          outer.map fun b => (b.ban, b.items) := by
        rw [← List.zip_map', ← List.zip_map', hbans, houter]
      show (b'.ban, b'.items) :: outer'.map _ = (b.ban, b.items ++ rs.map .record) :: outer.map _
      rw [hban, hheld, hitems]

/-! ### What uses leave alone -/

theorem held_of_bare {blocks : List Block} (h : blocks.map Block.bare = c.blocks.map Block.bare) :
    held { c with blocks := blocks } = c.held := by
  have hheld := congrArg (List.map fun b : Block => (b.ban, b.items)) h
  rwa [List.map_map, List.map_map] at hheld

theorem useIdentifier_keeps_held {base : Circuit} (i : Identifier) :
    (useIdentifier i).Keeps fun d => d.held = base.held := by
  intro s t hs ht
  rcases useIdentifier_leaves ht with rfl | rfl
  · exact hs
  · exact (held_of_bare (map_captureThrough (fun _ => Block.bare_touch rfl) s.blocks)).trans hs

theorem useInScope_keeps_held {base : Circuit} (u : ClassicalUse) (is : List Identifier) :
    (useInScope u is).Keeps fun d => d.held = base.held := by
  refine Edit.Keeps.bind (fun s t hs ht => ?_) fun _ => .each fun i _ => useIdentifier_keeps_held i
  rcases useClassical_leaves ht with rfl | ⟨positions, rfl⟩
  · exact hs
  · rw [← hs]
    obtain ⟨name, content, blocks⟩ := s
    cases blocks <;> rfl

/-- The head of a builder adds nothing. -/
theorem Head.held_eq {h : Head} (hd : h.run.Leaves c d) : d.held = c.held := by
  exact h.run_keeps useInScope_keeps_held c d rfl hd

theorem declare_keeps_held {base : Circuit} (i : Identifier) :
    (declare i).Keeps fun d => d.held = base.held := by
  intro c d hc hd
  rcases hd with ⟨_, hd⟩ | ⟨e, hd⟩
  · exact (appends_nil_iff.1 (declare_gains hd).appends).trans hc
  · by_cases hclosed : c.blocks = []
    · exact declare_refused_of_closed hclosed hd ▸ hc
    · exact declare_refused hclosed hd ▸ hc

/-! ### Calls -/

variable {k : Call}

/-- A composition in a block adds records there. -/
theorem compose_appends {source : Circuit} {o : ComposeOptions} (hopen : c.blocks ≠ [])
    (h : compose source o c = .ok () d) :
    ∃ rs : List Instruction, Appends (rs.map .record) c d := by
  obtain ⟨p, -, ⟨-, op, -, hadd⟩ | ⟨-, s, -, hadd⟩⟩ := compose_eq_ok_of_open hopen h
  · exact ⟨_, (append_gains hadd).appends⟩
  · obtain ⟨-, u, v, huses, hdeclares, hrecords⟩ := addSpliceInScope_eq_ok hadd
    have hu : u.held = c.held :=
      (Edit.Keeps.each fun i _ => useIdentifier_keeps_held i) c u rfl (.of_ok huses)
    have hv : v.held = c.held :=
      (Edit.Keeps.each fun i _ => declare_keeps_held i) u v hu (.of_ok hdeclares)
    exact ⟨s.records, (appends_nil_iff.2 hv).trans (each_append_gains hrecords).appends⟩

theorem Call.appends_of_onScope (hk : k.OnScope) (hjump : ∀ j, k ≠ .jump j)
    (h : k.run c = .ok () d) : ∃ rs : List Instruction, Appends (rs.map .record) c d := by
  obtain ⟨rs, u, -, hfirst, hadd⟩ := Call.run_eq_ok hk h
  have hnone : Appends [] c u := by
    cases k with
    | addVar _ _ | declare _ => exact (declare_gains hfirst).appends
    | jump j => exact absurd rfl (hjump j)
    | _ =>
      cases hfirst
      exact appends_nil_iff.2 rfl
  exact ⟨rs, hnone.trans (each_append_gains hadd).appends⟩

/-- A call in a block adds records there, if it is not a jump. Refused or not, it changes nothing
else that has to do with jumps. -/
theorem Call.appends (hopen : c.blocks ≠ []) (hjump : ∀ j, k ≠ .jump j) (h : k.run.Leaves c d) :
    ∃ rs : List Instruction, Appends (rs.map .record) c d := by
  have hnone : d.held = c.held → ∃ rs : List Instruction, Appends (rs.map .record) c d :=
    fun h => ⟨[], appends_nil_iff.2 h⟩
  cases k with
  | store k =>
    obtain ⟨u, -, rfl⟩ := Edit.leaves_within_iff.1 h
    exact hnone rfl
  | rename name =>
    cases Edit.leaves_modify_iff.1 h
    exact hnone rfl
  | addOuter i kind => exact hnone (congrArg held (addOuter_of_open hopen h))
  | addLoose kind count stamp =>
    refine hnone ((?_ : (Call.addLoose kind count stamp).run.Keeps fun d => d.held = c.held)
      c d rfl h)
    exact Edit.Keeps.bind (.mapM fun _ _ => .within fun _ _ hu _ => hu) fun _ => .pure ()
  | measureAll stamp => exact hnone (congrArg held (measureAll_of_open hopen h))
  | compose source o =>
    rcases h with ⟨_, h⟩ | ⟨e, h⟩
    · exact compose_appends hopen h
    · exact hnone (congrArg held (Call.eq_of_refused (k := .compose source o) trivial hopen h))
  | append _ | appendHandles _ | appendOperation _ _ _ | barrier _ | barrierAll | delay _ _
  | write _ _ | addVar _ _ | declare _ | jump _ =>
    rcases h with ⟨_, h⟩ | ⟨e, h⟩
    · refine Call.appends_of_onScope ?_ hjump h
      exact trivial
    · refine hnone (congrArg held (Call.eq_of_refused ?_ hopen h))
      exact trivial

/-- The records that the innermost block has got. -/
def gained (c d : Circuit) : List Instruction :=
  match c.held, d.held with
  | (_, before) :: _, (_, after) :: _ => (after.drop before.length).filterMap (·.record?)
  | _, _ => []

/-- Records that came in are all that was gained. -/
theorem Appends.gained_eq (hopen : c.blocks ≠ []) (h : Appends (rs.map .record) c d) :
    c.gained d = rs := by
  unfold gained
  rw [Appends] at h
  cases hc : c.held with
  | nil => exact absurd (List.map_eq_nil_iff.1 hc) hopen
  | cons first rest =>
    rw [h, hc]
    simp [BlockItem.record?]

end Circuit

/-! ## Builders underway -/

/-- A builder that has begun: the block that its bodies start from, and those of its bodies that
have ended, with what was recorded in them. -/
structure Begun where
  kind : BuilderKind
  template : Block
  ended : List (Block × List Entry)

namespace Begun

/-- Whether the builder has to wait itself: a branch with a jump in it. -/
def Waits (b : Begun) : Prop := b.kind = .branch ∧ ∃ p ∈ b.ended, ∃ e ∈ p.2, e.waits = true

/-- That the builder can come to this end with its bodies. -/
structure EndsWith (b : Begun) (k : Closing) : Prop where
  kind : k.kind = b.kind
  blocks : k.blocks = b.ended.map (·.1)

/-- The builder with one more body. -/
def withBody (b : Begun) (block : Block) (entries : List Entry) : Begun :=
  { b with ended := b.ended ++ [(block, entries)] }

end Begun

/-- A builder with an open body, and what has been recorded there so far. -/
structure Frame extends Begun where
  entries : List Entry

/-- The kind of the nearest builder that is a loop or a box. -/
def nearest (fs : List Frame) : Option BuilderKind := (fs.map (·.kind)).find? (· != .branch)

/-- What was recorded in the innermost body. -/
def note (entries : List Entry) : List Frame → List Frame :=
  List.modifyHead fun f => { f with entries := f.entries ++ entries }

/-- The kind of the builder that has the head. -/
def Circuit.Head.kind : Head → BuilderKind
  | branch _ | switch _ => .branch
  | loop _ => .loop
  | box _ => .box

/-- That the circuit has come to be in the bodies of the builders `fs`, the innermost first, and
between the bodies of one more builder if there is one. Whatever is called in a body, refused or
not, the records that come in are noted, and so are jumps, and branches that have to wait. A body
or a builder can be given up at any point. -/
inductive Underway : Option Begun → List Frame → Circuit → Prop
  | outside {c : Circuit} : c.blocks = [] → Underway none [] c
  | call (k : Call) {f : Frame} {fs : List Frame} {c d : Circuit} :
      Underway none (f :: fs) c → (∀ j, k ≠ .jump j) → k.run.Leaves c d →
      Underway none (note ((c.gained d).map (.record ·.operation)) (f :: fs)) d
  | jump (j : Jump) {f : Frame} {fs : List Frame} {c d : Circuit} :
      Underway none (f :: fs) c → Circuit.jump j c = .ok () d →
      Underway none (note [.jump j] (f :: fs)) d
  | read (h : Head) {fs : List Frame} {c d : Circuit} :
      Underway none fs c → h.run.Leaves c d → Underway none fs d
  | head (h : Head) {template : Block} {fs : List Frame} {c d : Circuit} :
      Underway none fs c → h.run c = .ok template d →
      Underway (some ⟨h.kind, template, []⟩) fs d
  /-- This loop reads nothing, and so it has no head. -/
  | forLoop {fs : List Frame} {c : Circuit} :
      Underway none fs c → Underway (some ⟨.loop, Block.empty none, []⟩) fs c
  | enter {b : Begun} {fs : List Frame} {c : Circuit} : Underway (some b) fs c →
      Underway none (⟨b, []⟩ :: fs) { c with blocks := b.template :: c.blocks }
  | leave {f : Frame} {fs : List Frame} {c : Circuit} {top : Block} {outer : List Block} :
      Underway none (f :: fs) c → c.blocks = top :: outer →
      Underway (some (f.withBody top f.entries)) fs { c with blocks := outer }
  | giveUpBody {f : Frame} {fs : List Frame} {c : Circuit} {top : Block} {outer : List Block} :
      Underway none (f :: fs) c → c.blocks = top :: outer →
      Underway (some f.toBegun) fs { c with blocks := outer }
  | giveUp {b : Begun} {fs : List Frame} {c : Circuit} :
      Underway (some b) fs c → Underway none fs c
  | finish (k : Closing) {b : Begun} {fs : List Frame} {c d : Circuit} :
      Underway (some b) fs c → b.EndsWith k → ¬ b.Waits → k.run c = .ok () d →
      Underway none (note ((c.gained d).map (.record ·.operation)) fs) d
  | wait (k : Closing) {b : Begun} {fs : List Frame} {c d : Circuit} :
      Underway (some b) fs c → b.EndsWith k → b.Waits → k.run c = .ok () d →
      Underway none (note [.branch (b.ended.map (·.2))] fs) d

/-! ## Frames and blocks -/

/-- Why jumps are forbidden in the bodies of a builder, when they are for the reason `outer`
around it. -/
def BuilderKind.ban (outer : Option JumpBan) : BuilderKind → Option JumpBan
  | branch => outer
  | loop => none
  | box => some .insideBox

/-- Why jumps are forbidden in a branch that is opened where the blocks hold this. -/
def banAround : List (Option JumpBan × List BlockItem) → Option JumpBan
  | [] => some .outsideLoop
  | (ban, _) :: _ => ban

/-- That what the builder has is what its blocks hold, where jumps are forbidden for the reason
`outer` around it. -/
structure Begun.Stands (outer : Option JumpBan) (b : Begun) : Prop where
  items : b.template.items = []
  ban : b.template.ban = b.kind.ban outer
  entries : ∀ p ∈ b.ended, p.1.entries = p.2
  allowed : ∀ p ∈ b.ended, ∀ e ∈ p.2, e.waits = true → b.kind.ban outer = none

/-- That the frames are about the open blocks: what was recorded in a body is what its block holds,
and nothing waits where jumps are forbidden. -/
inductive Stand : List Frame → List (Option JumpBan × List BlockItem) → Prop
  | nil : Stand [] []
  | cons {f : Frame} {fs : List Frame} {items : List BlockItem}
      {outer : List (Option JumpBan × List BlockItem)} : f.Stands (banAround outer) →
      items.map BlockItem.entry = f.entries →
      (∀ e ∈ f.entries, e.waits = true → f.kind.ban (banAround outer) = none) →
      Stand fs outer → Stand (f :: fs) ((f.kind.ban (banAround outer), items) :: outer)

theorem nearest_cons (f : Frame) (fs : List Frame) :
    nearest (f :: fs) = if f.kind = .branch then nearest fs else some f.kind := by
  unfold nearest
  rw [List.map_cons, List.find?_cons]
  cases f.kind <;> rfl

namespace Stand

variable {f : Frame} {fs gs : List Frame} {held : List (Option JumpBan × List BlockItem)}
  {items : List BlockItem}

/-- Jumps are allowed in a body if the nearest loop or box is a loop. -/
theorem kind_ban_iff (houter : banAround held = none ↔ nearest fs = some .loop) :
    f.kind.ban (banAround held) = none ↔ nearest (f :: fs) = some .loop := by
  rw [nearest_cons]
  cases hkind : f.kind with
  | branch => simpa [BuilderKind.ban] using houter
  | loop => simp [BuilderKind.ban]
  | box => simp [BuilderKind.ban]

theorem banAround_iff (h : Stand fs held) : banAround held = none ↔ nearest fs = some .loop := by
  induction h with
  | nil => simp [banAround, nearest]
  | cons _ _ _ _ ih => exact kind_ban_iff ih

theorem suffix (h : Stand fs held) (hsuffix : gs <:+ fs) : ∃ outer, Stand gs outer := by
  induction h with
  | nil => exact ⟨[], (List.suffix_nil.1 hsuffix) ▸ .nil⟩
  | cons hbegun hentries hallowed houter ih =>
    rcases List.suffix_cons_iff.1 hsuffix with rfl | hsuffix
    · exact ⟨_, .cons hbegun hentries hallowed houter⟩
    · exact ih hsuffix

/-- What waits in a body waits for a loop around it. -/
theorem nearest_of_waits (h : Stand (f :: fs) held) {e : Entry} (he : e ∈ f.entries)
    (hwaits : e.waits = true) : nearest (f :: fs) = some .loop := by
  cases h with
  | cons _ _ hallowed houter => exact (kind_ban_iff houter.banAround_iff).1 (hallowed e he hwaits)

/-- The innermost body goes on by what is recorded in it. -/
theorem note {entries : List Entry} (h : Stand fs held)
    (hitems : fs ≠ [] → items.map BlockItem.entry = entries)
    (hallowed : ∀ e ∈ entries, e.waits = true → fs ≠ [] → banAround held = none) :
    Stand (note entries fs) (held.modifyHead fun h => (h.1, h.2 ++ items)) := by
  cases h with
  | nil => exact .nil
  | cons hbegun hentries hsofar houter =>
    refine .cons hbegun ?_ (fun e he hwaits => ?_) houter
    · rw [List.map_append, hentries, hitems (List.cons_ne_nil _ _)]
    · rcases List.mem_append.1 he with he | he
      · exact hsofar e he hwaits
      · exact hallowed e he hwaits (List.cons_ne_nil _ _)

end Stand

/-! ## What a step does to frames -/

namespace Circuit

variable {c d : Circuit}

/-- In a body a jump is accepted if nothing forbids it, and comes in at the end then. -/
theorem jump_eq_ok_iff {j : Jump} (hopen : c.blocks ≠ []) :
    jump j c = .ok () d ↔ banAround c.held = none ∧ d = c.onTop (·.snoc (.jump j)) := by
  obtain ⟨top, outer, hblocks⟩ := List.exists_cons_of_ne_nil hopen
  have hban : banAround c.held = top.ban := by
    rw [held, hblocks]
    rfl
  rw [jump_eq_ok_iff_of_open hblocks, hban]

/-- The bodies of a builder start from a block where jumps are forbidden as the kind of the builder
has it. -/
theorem Head.ban_of_ok {h : Head} {template : Block} (hd : h.run c = .ok template d) :
    template.ban = h.kind.ban (banAround d.held) := by
  have hbranch : d.branchBan = banAround d.held := by
    unfold branchBan held
    cases d.blocks <;> rfl
  have hread : ∀ {check : Except CircuitError Unit} {u : ClassicalUse} {is : List Identifier}
      (ban : Circuit → Option JumpBan), opening check u is ban c = .ok template d →
        template.ban = ban d := by
    intro check u is ban h
    obtain ⟨_, -, hseeded⟩ := Checking.bind_eq_ok_iff.1 (opening_eq_ok h).2
    cases hseeded
    rfl
  cases h with
  | branch _ | switch _ => exact (hread branchBan hd).trans hbranch
  | loop _ => exact hread (fun _ => none) hd
  | box duration =>
    obtain ⟨rfl, -⟩ := openBox_eq_ok hd
    rfl

end Circuit

namespace Begun

variable {b : Begun} {outer : Option JumpBan} {k : Closing} {c d : Circuit}

/-- A builder has to wait just if a block of its bodies holds something that waits. -/
theorem Stands.waits_iff (h : b.Stands outer) (hk : b.EndsWith k) :
    b.Waits ↔ k.kind = .branch ∧ ∃ block ∈ k.blocks, block.awaitsLoop = true := by
  rw [Waits, hk.kind, hk.blocks]
  simp only [List.mem_map, exists_exists_and_eq_and, Block.awaitsLoop_iff]
  refine and_congr_right fun _ => exists_congr fun p => and_congr_right fun hp => ?_
  rw [h.entries p hp]

theorem Stands.entries_blocks (h : b.Stands outer) (hk : b.EndsWith k) :
    k.blocks.map Block.entries = b.ended.map (·.2) := by
  rw [hk.blocks, List.map_map]
  exact List.map_congr_left h.entries

/-- A builder that does not have to wait is finished at its end, with everything in its bodies
resolved. -/
theorem Stands.finished (h : b.Stands outer) (hk : b.EndsWith k) (hwaits : ¬ b.Waits)
    (hd : k.run c = .ok () d) :
    ∃ r flow, c.Gains [] [r] d ∧ d.last? = some r ∧ r.operation = .control flow ∧
      flow.kind? = some b.kind ∧
      (∀ body ∈ flow.bodies, body.width = (r.qubits.length, r.clbits.length)) ∧
      List.Forall₂ (fun p body => List.Forall₂ (Entry.Resolved (r.qubits.length, r.clbits.length))
        p.2 body.content.records) b.ended flow.bodies := by
  have hitem : k.item? = none := by
    refine Option.eq_none_iff_forall_ne_some.2 fun item hitem => hwaits ?_
    obtain ⟨hkind, -, hblock⟩ := Closing.waits_of_item? hitem
    exact (h.waits_iff hk).2 ⟨hkind, hblock⟩
  obtain ⟨r, flow, hgains, hlast, hop, hkind, hwidth, hall⟩ := Closing.resolved hitem hd
  refine ⟨r, flow, hgains, hlast, hop, hk.kind ▸ hkind, hwidth, ?_⟩
  rw [hk.blocks, List.forall₂_map_left_iff] at hall
  exact Checking.imp_of_mem hall fun p hp body _ hbody => h.entries p hp ▸ hbody

/-- A builder that has to wait is left to wait, as a branch with its bodies. -/
theorem Stands.waited (h : b.Stands outer) (hk : b.EndsWith k) (hwaits : b.Waits)
    (hd : k.run c = .ok () d) :
    ∃ item, Circuit.Appends [item] c d ∧ item.entry = .branch (b.ended.map (·.2)) := by
  obtain ⟨hkind, block, hblock, hawaits⟩ := (h.waits_iff hk).1 hwaits
  rcases Closing.run_eq_ok hd with ⟨item, hitem, -, rfl⟩ | ⟨hitem, -⟩
  · refine ⟨item, Circuit.appends_onTop item, ?_⟩
    rw [(Closing.waits_of_item? hitem).2.1, h.entries_blocks hk]
  · rw [Closing.not_waits_of_item? hitem hkind block hblock] at hawaits
    cases hawaits

end Begun

/-! ## Runs -/

namespace Underway

variable {o : Option Begun} {b : Begun} {f : Frame} {fs : List Frame} {c d : Circuit}

theorem entry_records (rs : List Instruction) :
    (rs.map BlockItem.record).map BlockItem.entry = rs.map (Entry.record ·.operation) := by
  rw [List.map_map]
  rfl

theorem not_waits_records {rs : List Instruction} :
    ∀ e ∈ rs.map (Entry.record ·.operation), e.waits ≠ true := by
  intro e he
  obtain ⟨r, -, rfl⟩ := List.mem_map.1 he
  exact Bool.false_ne_true

theorem blocks_ne_nil (h : Stand fs c.held) (hopen : fs ≠ []) : c.blocks ≠ [] := by
  intro hnil
  rw [Circuit.held, hnil] at h
  cases h
  exact hopen rfl

/-- Frames go on with records that come in. -/
theorem stand_records {rs : List Instruction} (h : Stand fs c.held)
    (hd : Circuit.Appends (rs.map .record) c d) :
    Stand (note ((c.gained d).map (.record ·.operation)) fs) d.held := by
  rw [hd]
  refine h.note (fun hopen => ?_) fun e he hwaits => absurd hwaits (not_waits_records e he)
  rw [hd.gained_eq (blocks_ne_nil h hopen), entry_records]

/-- The innermost frame is about the innermost block. -/
theorem stand_cons {top : Block} {outer : List Block} (h : Stand (f :: fs) c.held)
    (hblocks : c.blocks = top :: outer) :
    f.Stands (banAround (Circuit.held { c with blocks := outer })) ∧ top.entries = f.entries ∧
      (∀ e ∈ f.entries, e.waits = true →
        f.kind.ban (banAround (Circuit.held { c with blocks := outer })) = none) ∧
      Stand fs (Circuit.held { c with blocks := outer }) := by
  have hheld : c.held = (top.ban, top.items) :: Circuit.held { c with blocks := outer } := by
    rw [Circuit.held, hblocks]
    rfl
  rw [hheld] at h
  generalize Circuit.held { c with blocks := outer } = rest at h ⊢
  generalize hban : top.ban = ban at h
  cases h with
  | cons hbegun hentries hallowed houter =>
    exact ⟨hbegun, top.entries_eq.trans hentries, hallowed, houter⟩

/-- Whatever happens, what was recorded is what the blocks hold, and nothing waits where jumps are
forbidden. -/
theorem stands (h : Underway o fs c) :
    Stand fs c.held ∧ ∀ b ∈ o, b.Stands (banAround c.held) := by
  -- on the steps that led here
  induction h with
  | outside hclosed =>
    rw [Circuit.held, hclosed]
    exact ⟨.nil, fun b hb => nomatch hb⟩
  | call k _ hjump hd ih =>
    have hopen := blocks_ne_nil ih.1 (List.cons_ne_nil _ _)
    obtain ⟨rs, hrs⟩ := Circuit.Call.appends hopen hjump hd
    exact ⟨stand_records ih.1 hrs, fun b hb => nomatch hb⟩
  | jump j _ hd ih =>
    have hopen := blocks_ne_nil ih.1 (List.cons_ne_nil _ _)
    obtain ⟨hban, rfl⟩ := (Circuit.jump_eq_ok_iff hopen).1 hd
    rw [Circuit.appends_onTop (.jump j)]
    exact ⟨ih.1.note (fun _ => rfl) fun _ _ _ _ => hban, fun b hb => nomatch hb⟩
  | read h _ hd ih =>
    rw [h.held_eq hd]
    exact ⟨ih.1, fun b hb => nomatch hb⟩
  | head h _ hd ih =>
    have hheld := h.held_eq (.of_ok hd)
    refine ⟨hheld ▸ ih.1, fun b hb => ?_⟩
    cases hb
    exact ⟨h.run_items hd, h.ban_of_ok hd, fun p hp => absurd hp List.not_mem_nil,
      fun p hp => absurd hp List.not_mem_nil⟩
  | forLoop _ ih =>
    refine ⟨ih.1, fun b hb => ?_⟩
    cases hb
    exact ⟨rfl, rfl, fun p hp => absurd hp List.not_mem_nil,
      fun p hp => absurd hp List.not_mem_nil⟩
  | enter _ ih =>
    rename_i b fs c _
    have hbegun := ih.2 b rfl
    refine ⟨?_, fun b hb => nomatch hb⟩
    show Stand _ ((b.template.ban, b.template.items) :: c.held)
    rw [hbegun.ban, hbegun.items]
    exact .cons hbegun rfl (fun e he => absurd he List.not_mem_nil) ih.1
  | leave _ hblocks ih =>
    obtain ⟨hbegun, hentries, hallowed, houter⟩ := stand_cons ih.1 hblocks
    refine ⟨houter, fun b hb => ?_⟩
    cases hb
    refine ⟨hbegun.items, hbegun.ban, fun p hp => ?_, fun p hp => ?_⟩
    · rcases List.mem_append.1 hp with hp | hp
      · exact hbegun.entries p hp
      · exact List.mem_singleton.1 hp ▸ hentries
    · rcases List.mem_append.1 hp with hp | hp
      · exact hbegun.allowed p hp
      · exact List.mem_singleton.1 hp ▸ hallowed
  | giveUpBody _ hblocks ih =>
    obtain ⟨hbegun, -, -, houter⟩ := stand_cons ih.1 hblocks
    refine ⟨houter, fun b hb => ?_⟩
    cases hb
    exact hbegun
  | giveUp _ ih => exact ⟨ih.1, fun b hb => nomatch hb⟩
  | finish k _ hk hwaits hd ih =>
    obtain ⟨r, -, hgains, -⟩ := (ih.2 _ rfl).finished hk hwaits hd
    exact ⟨stand_records ih.1 hgains.appends, fun b hb => nomatch hb⟩
  | wait k _ hk hwaits hd ih =>
    have hbegun := ih.2 _ rfl
    obtain ⟨item, hitem, hentry⟩ := hbegun.waited hk hwaits hd
    rw [hitem]
    refine ⟨ih.1.note (fun _ => by rw [List.map_singleton, hentry]) fun _ _ _ _ => ?_,
      fun b hb => nomatch hb⟩
    -- what the branch waits with is allowed in its bodies, and so around it
    obtain ⟨hkind, p, hp, e, he, hwaits⟩ := hwaits
    have hallowed := hbegun.allowed p hp e he hwaits
    rwa [hkind] at hallowed

/-- Jumps are scoped and sized. In a body a jump is accepted just if the nearest builder around it
that is a loop or a box is a loop. So what waits, in a body that is open or that has ended, waits
for the nearest loop. When a builder has come to its end and does not have to wait, as no loop ever
does, it is a record, and everything in its bodies has become a record there, in order. Each of its
bodies is as wide as it is. A jump in a body is over all bits of the body, and so is a branch with
a jump in it, with bodies as wide again; records, which finished loops in the body are as well, are
the operations that they were. -/
theorem jumps_resolved (h : Underway o fs c) :
    (fs ≠ [] → ∀ j, (∃ d, Circuit.jump j c = .ok () d) ↔ nearest fs = some .loop) ∧
    (∀ f outer, f :: outer <:+ fs → (∃ e ∈ f.entries, e.waits = true) →
      nearest (f :: outer) = some .loop) ∧
    (∀ b ∈ o, ∀ p ∈ b.ended, (∃ e ∈ p.2, e.waits = true) →
      nearest (⟨b, p.2⟩ :: fs) = some .loop) ∧
    ∀ b ∈ o, ∀ k d, b.EndsWith k → ¬ b.Waits → k.run c = .ok () d →
      ∃ r flow, d.last? = some r ∧ r.operation = .control flow ∧ flow.kind? = some b.kind ∧
        (∀ body ∈ flow.bodies, body.width = (r.qubits.length, r.clbits.length)) ∧
        List.Forall₂ (fun p body =>
          List.Forall₂ (Entry.Resolved (r.qubits.length, r.clbits.length)) p.2
            body.content.records) b.ended flow.bodies := by
  obtain ⟨hstand, hbegun⟩ := h.stands
  refine ⟨fun hopen j => ?_, fun f outer hsuffix ⟨e, he, hwaits⟩ => ?_,
    fun b hb p hp ⟨e, he, hwaits⟩ => ?_, fun b hb k d hk hwaits hd => ?_⟩
  · have hblocks := blocks_ne_nil hstand hopen
    simp only [Circuit.jump_eq_ok_iff hblocks, exists_and_left, exists_eq, and_true]
    exact hstand.banAround_iff
  · obtain ⟨held, hf⟩ := hstand.suffix hsuffix
    exact hf.nearest_of_waits he hwaits
  · exact (Stand.kind_ban_iff hstand.banAround_iff).1 ((hbegun b hb).allowed p hp e he hwaits)
  · obtain ⟨r, flow, -, hfinished⟩ := (hbegun b hb).finished hk hwaits hd
    exact ⟨r, flow, hfinished⟩

/-! ### A loop that is left from a branch -/

/-- The clbit is set. -/
def clbitSet : Condition := .clbit (.loose .classical ⟨1, 0⟩) true

/-- A gate, and a branch that acts and leaves the loop. -/
def gateThenLeave : List Entry :=
  [.record (.gate (.fixed .h)), .branch [[.record (.gate (.fixed .x)), .jump .leave]]]

/-- The loop has a gate on qubit 0, and a branch in which qubit 1 is acted on and the loop is
left. -/
theorem underway_in_while : ∃ b c d block, Underway (some b) [] c ∧ b.kind = .loop ∧
    b.ended = [(block, gateThenLeave)] ∧ b.EndsWith (.whileLoop clbitSet block) ∧
    (Closing.whileLoop clbitSet block).run c = .ok () d ∧
    d.last?.map (fun r => (r.qubits, r.clbits)) = some ([0, 1], [0]) := by
  have hloop := (Underway.outside (c := Circuit.threeLooseQubits) rfl).head (.loop clbitSet) rfl
  have hgate := hloop.enter.call (.append (.make (.gate (.fixed .h)) [0] [])) (fun _ => nofun)
    (.of_ok rfl)
  have hbranch := hgate.head (.branch clbitSet) rfl
  have hjump := (hbranch.enter.call (.append (.make (.gate (.fixed .x)) [1] [])) (fun _ => nofun)
    (.of_ok rfl)).jump .leave rfl
  have hwait := (hjump.leave rfl).wait (.ifElse clbitSet _ none) ⟨rfl, rfl⟩
    ⟨rfl, _, List.mem_singleton_self _, .jump .leave,
      List.mem_cons_of_mem _ List.mem_cons_self, rfl⟩ rfl
  exact ⟨_, _, _, _, hwait.leave rfl, rfl, rfl, ⟨rfl, rfl⟩, rfl, rfl⟩

/-- Its body is over two qubits and a clbit then, as the branch and the jump are. -/
theorem jumps_resolved_in_while : ∃ b c d k r flow body, Underway (some b) [] c ∧
    b.EndsWith k ∧ k.run c = .ok () d ∧ b.ended.map (·.2) = [gateThenLeave] ∧
    d.last? = some r ∧ r.operation = .control flow ∧ flow.kind? = some .loop ∧
    flow.bodies = [body] ∧ body.width = (2, 1) ∧
    List.Forall₂ (Entry.Resolved (2, 1)) gateThenLeave body.content.records := by
  obtain ⟨b, c, d, block, h, hkind, hended, hends, hrun, hoperands⟩ := underway_in_while
  obtain ⟨-, -, -, hfinish⟩ := jumps_resolved h
  obtain ⟨r, flow, hlast, hop, hflow, hwidth, hall⟩ :=
    hfinish b rfl _ d hends (fun hwaits => nomatch hkind.symm.trans hwaits.1) hrun
  rw [hlast, Option.map_some, Option.some.injEq, Prod.mk.injEq] at hoperands
  rw [hoperands.1, hoperands.2] at hwidth hall
  rw [hended] at hall
  generalize hbodies : flow.bodies = bodies at hwidth hall
  obtain _ | ⟨hbody, _ | _⟩ := hall
  exact ⟨b, c, d, _, r, flow, _, h, hends, hrun, by rw [hended]; rfl, hlast, hop, hkind ▸ hflow,
    hbodies, hwidth _ List.mem_cons_self, hbody⟩

end Underway

end QuantumCircuit
