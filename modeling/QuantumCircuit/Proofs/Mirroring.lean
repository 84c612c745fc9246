import QuantumCircuit.Proofs.Composed
import QuantumCircuit.Proofs.Programs
import QuantumCircuit.Proofs.Relocating

/-!
# Runs in a box and outside

A program is run on a circuit without open blocks, and once more in a box around it. The two
runs go in step: what the one adds to the store, the other adds to the block of the box, and
the blocks that are opened on the way are the same but for the reason why a jump is forbidden
in them (`Circuit.Mirrors`). Calls on the scope keep in step (`Circuit.Mirrored.call`), and
so do compositions (`Circuit.Mirrored.compose`).
-/

namespace QuantumCircuit

open Circuit (Call)

/-! ## Blocks in step -/

namespace Block

/-- The block without a word about jumps. -/
def unbanned (b : Block) : Block := { b with ban := none }

/-- The same block, but for the reason why a jump is forbidden in it. Where one is, nothing
waits. -/
structure Twin (b b' : Block) : Prop where
  same : b'.unbanned = b.unbanned
  ban : b'.ban = none ↔ b.ban = none
  calm : b.ban ≠ none → b.awaitsLoop = false

variable {b b' : Block} {i : Identifier}

theorem ext_unbanned (h : b'.unbanned = b.unbanned) :
    b'.footprint = b.footprint ∧ b'.locals = b.locals ∧ b'.items = b.items := by
  obtain ⟨footprint, locals, items, ban⟩ := b
  obtain ⟨footprint', locals', items', ban'⟩ := b'
  cases h
  exact ⟨rfl, rfl, rfl⟩

theorem unbanned_ext (hfootprint : b'.footprint = b.footprint) (hlocals : b'.locals = b.locals)
    (hitems : b'.items = b.items) : b'.unbanned = b.unbanned := by
  rw [unbanned, unbanned, hfootprint, hlocals, hitems]

namespace Twin

theorem resolves (h : b.Twin b') (i : Identifier) : b'.resolves i = b.resolves i := by
  obtain ⟨hfootprint, hlocals, -⟩ := ext_unbanned h.same
  rw [Block.resolves, Block.resolves, hfootprint, hlocals]

theorem touch (h : b.Twin b') (f : Footprint) : (b.touch f).Twin (b'.touch f) := by
  obtain ⟨hfootprint, hlocals, hitems⟩ := ext_unbanned h.same
  exact ⟨unbanned_ext (congrArg (·.union f) hfootprint) hlocals hitems, h.ban, h.calm⟩

theorem snoc (h : b.Twin b') {item : BlockItem} (hcalm : b.ban ≠ none → ∃ r, item = .record r) :
    (b.snoc item).Twin (b'.snoc item) := by
  obtain ⟨hfootprint, hlocals, hitems⟩ := ext_unbanned h.same
  refine ⟨unbanned_ext hfootprint hlocals (congrArg (· ++ [item]) hitems), h.ban, fun hban => ?_⟩
  obtain ⟨r, rfl⟩ := hcalm hban
  have hcalm := h.calm hban
  simp only [awaitsLoop, Block.snoc, List.any_append, List.any_cons, List.any_nil] at hcalm ⊢
  rw [hcalm]
  rfl

theorem declare (h : b.Twin b') (i : Identifier) :
    ({ b with locals := b.locals.insert i .declare } : Block).Twin
      { b' with locals := b'.locals.insert i .declare } := by
  obtain ⟨hfootprint, hlocals, hitems⟩ := ext_unbanned h.same
  exact ⟨unbanned_ext hfootprint (congrArg (·.insert i .declare) hlocals) hitems, h.ban, h.calm⟩

end Twin

end Block

/-- The blocks of the run in the box: twins of the blocks of the other run, and around them the
block of the box, which has the records that the other run has added to the store. -/
inductive Boxed (added : List Instruction) : List Block → List Block → Prop
  | box {b : Block} : b.ban ≠ none → b.items = added.map .record → Boxed added [] [b]
  | inner {b b' : Block} {blocks blocks' : List Block} : b.Twin b' → Boxed added blocks blocks' →
      Boxed added (b :: blocks) (b' :: blocks')

theorem Boxed.captureThrough {added : List Instruction} {blocks blocks' : List Block}
    (h : Boxed added blocks blocks') (i : Identifier) :
    Boxed added (captureThrough i blocks) (captureThrough i blocks') := by
  -- on the nesting of the blocks; twins resolve the same identifiers, so a use goes through both
  -- or stops at both, and the box stops it or not
  induction h with
  | box hban hitems =>
    rename_i b
    unfold QuantumCircuit.captureThrough
    split
    · exact .box hban hitems
    · exact .box hban hitems
  | inner htwin hrest ih =>
    unfold QuantumCircuit.captureThrough
    rw [htwin.resolves]
    split
    · exact .inner htwin hrest
    · exact .inner (htwin.touch _) ih

/-! ## What depends on the bits only -/

namespace Content

variable {c d : Content}

theorem resolveAll_congr (h : ∀ k, d.bits k = c.bits k) {k : BitKind} {operation : Option String}
    {bits : List (Bit k)} : d.resolveAll operation bits = c.resolveAll operation bits := by
  induction bits with
  | nil => rfl
  | cons bit rest ih =>
    unfold resolveAll
    rw [h, ih]

theorem resolveSpec_congr (h : ∀ k, d.bits k = c.bits k) (k : BitKind) :
    (d.resolveSpec : BitSpec k → Except CircuitError (List Nat)) = c.resolveSpec := by
  funext spec
  cases spec with
  | position n | positions ns =>
    unfold resolveSpec checkedPositions
    rw [h]
  | range start stop =>
    unfold resolveSpec checkedRange
    rw [h]
  | bit b | bits bs | register r => exact resolveAll_congr h

theorem instructionOf_congr (h : ∀ k, d.bits k = c.bits k) (i : HandleInstruction) :
    d.instructionOf i = c.instructionOf i := by
  unfold instructionOf
  rw [resolveAll_congr h, resolveAll_congr h]

end Content

/-- The records that a call on the scope adds depend on the bits of the store only. -/
theorem Circuit.Call.records_congr {c d : Circuit} (h : ∀ k, d.content.bits k = c.content.bits k)
    (k : Call) : k.records d = k.records c := by
  have hexpand : ∀ op qubits clbits, d.expand op qubits clbits = c.expand op qubits clbits := by
    intro op qubits clbits
    unfold expand
    rw [Content.resolveSpec_congr h, Content.resolveSpec_congr h]
  cases k with
  | appendHandles i => simp only [records, Content.instructionOf_congr h]
  | appendOperation op qubits clbits => exact hexpand op qubits clbits
  | barrier qubits => simp only [records, Content.resolveSpec_congr h]
  | barrierAll =>
    have hsize : d.numQubits = c.numQubits := congrArg BitList.size (h .quantum)
    simp only [records, hsize]
  | delay t qubit => exact hexpand _ _ _
  | _ => rfl

namespace Circuit

/-- That the run in the box has come to `y` when the other one has come to `x`. When they
began the store had the records in `old`; `bans` says why jumps are forbidden in the open
blocks. -/
structure Mirrors (old : List Instruction) (bans : List (Option JumpBan)) (x y : Circuit) :
    Prop where
  qubits : y.content.qubits = x.content.qubits
  clbits : y.content.clbits = x.content.clbits
  outside : y.content.records = old
  bans : x.blocks.map (·.ban) = bans
  blocks : ∃ added, x.content.records = old ++ added ∧ Boxed added x.blocks y.blocks

/-- Where the edit answers in both runs, they stay in step. -/
def Mirrored (edit : Edit Circuit Unit) : Prop :=
  ∀ old bans x y d f, Mirrors old bans x y → edit x = .ok () d → edit y = .ok () f →
    Mirrors old bans d f

variable {old : List Instruction} {bans : List (Option JumpBan)} {x y d f : Circuit}
  {i : Identifier} {r : Instruction}

theorem onTop_touch_snoc (g : Footprint) (item : BlockItem) (c : Circuit) :
    c.onTop (fun top => (top.touch g).snoc item) = (c.onTop (·.touch g)).onTop (·.snoc item) := by
  obtain ⟨name, content, blocks⟩ := c
  cases blocks <;> rfl

namespace Mirrors

theorem bits (h : Mirrors old bans x y) (k : BitKind) : y.content.bits k = x.content.bits k := by
  cases k with
  | quantum => exact h.qubits
  | classical => exact h.clbits

theorem closed_iff (h : Mirrors old bans x y) : x.blocks = [] ↔ bans = [] := by
  rw [← h.bans, List.map_eq_nil_iff]

theorem blocks_ne_nil (h : Mirrors old bans x y) : y.blocks ≠ [] := by
  obtain ⟨added, -, hblocks⟩ := h.blocks
  generalize x.blocks = inner at hblocks
  generalize y.blocks = blocks at hblocks
  cases hblocks <;> exact List.cons_ne_nil _ _

/-- Bits and records of the store count, and nothing else. -/
theorem store (h : Mirrors old bans x y) {content : Content}
    (hqubits : content.qubits = x.content.qubits) (hclbits : content.clbits = x.content.clbits)
    (hrecords : content.records = x.content.records) :
    Mirrors old bans ⟨x.name, content, x.blocks⟩ y := by
  obtain ⟨added, hadded, hblocks⟩ := h.blocks
  exact ⟨h.qubits.trans hqubits.symm, h.clbits.trans hclbits.symm, h.outside, h.bans, added,
    hrecords.trans hadded, hblocks⟩

theorem use (h : Mirrors old bans x y) (i : Identifier) :
    Mirrors old bans ⟨x.name, x.content, captureThrough i x.blocks⟩
      ⟨y.name, y.content, captureThrough i y.blocks⟩ := by
  obtain ⟨added, hadded, hblocks⟩ := h.blocks
  have hkept := map_captureThrough (i := i) (f := Block.ban) (fun _ => rfl) x.blocks
  exact ⟨h.qubits, h.clbits, h.outside, hkept.trans h.bans, added, hadded,
    hblocks.captureThrough i⟩

theorem touch (h : Mirrors old bans x y) (g : Footprint) :
    Mirrors old bans (x.onTop (·.touch g)) (y.onTop (·.touch g)) := by
  obtain ⟨added, hadded, hblocks⟩ := h.blocks
  obtain ⟨name, content, inner⟩ := x
  obtain ⟨name', content', blocks⟩ := y
  cases hblocks with
  | box hban hitems =>
    exact ⟨h.qubits, h.clbits, h.outside, h.bans, added, hadded, .box hban hitems⟩
  | inner htwin hrest =>
    exact ⟨h.qubits, h.clbits, h.outside, h.bans, added, hadded, .inner (htwin.touch g) hrest⟩

/-- A record goes to the store in the one run, and into the box in the other. -/
theorem snoc_closed (h : Mirrors old bans x y) (hclosed : x.blocks = []) (r : Instruction) :
    Mirrors old bans ⟨x.name, x.content.snoc r, x.blocks⟩ (y.onTop (·.snoc (.record r))) := by
  obtain ⟨added, hadded, hblocks⟩ := h.blocks
  obtain ⟨name, content, inner⟩ := x
  obtain ⟨name', content', blocks⟩ := y
  cases hclosed
  cases hblocks with
  | box hban hitems =>
    refine ⟨h.qubits, h.clbits, h.outside, h.bans, added ++ [r], ?_, .box hban ?_⟩
    · exact (congrArg (· ++ [r]) hadded).trans (List.append_assoc _ _ _)
    · rw [List.map_append]
      exact congrArg (· ++ [.record r]) hitems

/-- Where a block is open in both runs, an item goes into it. -/
theorem snoc_open (h : Mirrors old bans x y) (hopen : x.blocks ≠ []) {item : BlockItem}
    (hcalm : bans.head? ≠ some none → ∃ r, item = .record r) :
    Mirrors old bans (x.onTop (·.snoc item)) (y.onTop (·.snoc item)) := by
  obtain ⟨added, hadded, hblocks⟩ := h.blocks
  obtain ⟨name, content, inner⟩ := x
  obtain ⟨name', content', blocks⟩ := y
  have hbans := h.bans
  cases hblocks with
  | box hban hitems => exact absurd rfl hopen
  | inner htwin hrest =>
    refine ⟨h.qubits, h.clbits, h.outside, h.bans, added, hadded,
      .inner (htwin.snoc fun hban => hcalm fun hhead => hban ?_) hrest⟩
    rw [← hbans] at hhead
    exact Option.some.inj hhead

end Mirrors

/-! ## Calls in step -/

/-- Both runs find the same clbits at the same positions. -/
theorem Mirrors.classicalPositions (h : Mirrors old bans x y) {u : ClassicalUse}
    {positions positions' : List Nat} (hx : x.content.classicalPositions u = .ok positions)
    (hy : y.content.classicalPositions u = .ok positions') : positions' = positions := by
  obtain ⟨-, hx⟩ := Checking.seq_eq_ok_iff.1 hx
  obtain ⟨-, hy⟩ := Checking.seq_eq_ok_iff.1 hy
  rw [Content.resolveAll_congr h.bits, hx] at hy
  exact (Except.ok.inj hy).symm

/-- What the run in the box notes in addition. -/
theorem Mirrors.use_closed (h : Mirrors old bans x y) (hclosed : x.blocks = [])
    (hf : useIdentifier i y = .ok () f) : Mirrors old bans x f := by
  obtain ⟨-, hf⟩ := Checking.seq_eq_ok_iff.1 (Edit.update_eq_ok_iff.1 hf)
  cases hf
  have huse := h.use i
  obtain ⟨name, content, blocks⟩ := x
  cases hclosed
  exact huse

/-- What each edit of the box keeps in step, all of them do. -/
theorem Mirrors.each_closed {α : Type} {edit : α → Edit Circuit Unit}
    (hedit : ∀ a y f, Mirrors old bans x y → edit a y = .ok () f → Mirrors old bans x f)
    (h : Mirrors old bans x y) {l : List α} (hf : Edit.each edit l y = .ok () f) :
    Mirrors old bans x f := by
  induction l generalizing y with
  | nil =>
    cases hf
    exact h
  | cons a rest ih =>
    obtain ⟨_, u, hu, hf⟩ := Edit.bind_eq_ok_iff.1 hf
    exact ih (hedit a y u h hu) hf

theorem Mirrors.declare_closed (h : Mirrors old bans x y) (hclosed : x.blocks = [])
    (hf : declare i y = .ok () f) : Mirrors old bans x f := by
  obtain ⟨added, hadded, hblocks⟩ := h.blocks
  obtain ⟨name, content, blocks⟩ := x
  obtain ⟨name', content', blocks'⟩ := y
  cases hclosed
  cases hblocks with
  | box hban hitems =>
    obtain ⟨-, rfl⟩ := (declare_eq_ok_iff_of_open rfl).1 hf
    exact ⟨h.qubits, h.clbits, h.outside, h.bans, added, hadded, .box hban hitems⟩

theorem Mirrors.useClassical_closed (h : Mirrors old bans x y) (hclosed : x.blocks = [])
    {u : ClassicalUse} (hf : useClassical u y = .ok () f) : Mirrors old bans x f := by
  obtain ⟨positions, -, rfl⟩ := (useClassical_eq_ok_iff_of_open h.blocks_ne_nil).1 hf
  have htouch := h.touch ⟨[], positions, u.registers, []⟩
  obtain ⟨name, content, blocks⟩ := x
  cases hclosed
  exact htouch

namespace Mirrored

variable {edit : Edit Circuit Unit}

theorem done : Mirrored (pure ()) := by
  intro old bans x y d f h hd hf
  cases hd
  cases hf
  exact h

theorem bind {next : Unit → Edit Circuit Unit} (h : Mirrored edit) (hnext : Mirrored (next ())) :
    Mirrored (edit >>= next) := by
  intro old bans x y d f hxy hd hf
  obtain ⟨_, u, hu, hd⟩ := Edit.bind_eq_ok_iff.1 hd
  obtain ⟨_, v, hv, hf⟩ := Edit.bind_eq_ok_iff.1 hf
  exact hnext old bans u v d f (h old bans x y u v hxy hu hv) hd hf

theorem each {α : Type} {edit : α → Edit Circuit Unit} (h : ∀ a, Mirrored (edit a)) (l : List α) :
    Mirrored (Edit.each edit l) := by
  induction l with
  | nil => exact done
  | cons a rest ih => exact (h a).bind ih

theorem useIdentifier (i : Identifier) : Mirrored (Circuit.useIdentifier i) := by
  intro old bans x y d f h hd hf
  obtain ⟨-, rfl⟩ := useIdentifier_eq_ok_iff.1 hd
  obtain ⟨-, rfl⟩ := useIdentifier_eq_ok_iff.1 hf
  exact h.use i

theorem useClassical (u : ClassicalUse) : Mirrored (Circuit.useClassical u) := by
  intro old bans x y d f h hd hf
  -- outside every block there is nothing to note, and what the box notes does not count
  by_cases hclosed : x.blocks = []
  · obtain ⟨-, rfl⟩ := (useClassical_eq_ok_iff_of_closed hclosed).1 hd
    exact h.useClassical_closed hclosed hf
  · obtain ⟨positions, hx, rfl⟩ := (useClassical_eq_ok_iff_of_open hclosed).1 hd
    obtain ⟨positions', hy, rfl⟩ := (useClassical_eq_ok_iff_of_open h.blocks_ne_nil).1 hf
    rw [h.classicalPositions hx hy]
    exact h.touch _

/-- A record goes to the store in the one run, and to the box in the other; or to the innermost
block in both. -/
theorem append (r : Instruction) : Mirrored (Circuit.append r) := by
  intro old bans x y d f h hd hf
  obtain ⟨-, u', v', hu', hv', rfl⟩ := append_eq_ok_of_open h.blocks_ne_nil hf
  by_cases hclosed : x.blocks = []
  · obtain ⟨-, rfl⟩ := (append_eq_ok_iff_of_closed hclosed).1 hd
    have huses := h.each_closed (fun i y f h hf => h.use_closed hclosed hf) hu'
    have huses := huses.useClassical_closed hclosed hv'
    have htouched := huses.touch ⟨r.qubits, r.clbits, [], []⟩
    obtain ⟨name, content, blocks⟩ := x
    cases hclosed
    rw [onTop_touch_snoc]
    exact htouched.snoc_closed rfl r
  · obtain ⟨-, u, v, hu, hv, rfl⟩ := append_eq_ok_of_open hclosed hd
    have huses := useClassical _ old bans u u' v v'
      (each useIdentifier _ old bans x y u u' h hu hu') hv hv'
    have htouched := huses.touch ⟨r.qubits, r.clbits, [], []⟩
    rw [onTop_touch_snoc, onTop_touch_snoc]
    refine htouched.snoc_open (fun hnil => hclosed ?_) fun _ => ⟨r, rfl⟩
    exact h.closed_iff.2 (htouched.closed_iff.1 hnil)

theorem declare (i : Identifier) : Mirrored (Circuit.declare i) := by
  intro old bans x y d f h hd hf
  by_cases hclosed : x.blocks = []
  · have hright := h.declare_closed hclosed hf
    obtain ⟨name, content, blocks⟩ := x
    cases hclosed
    obtain ⟨u, hu, rfl⟩ := Edit.within_eq_ok_iff.1 hd
    obtain ⟨-, rfl⟩ := Content.addIdentifier_eq_ok_iff.1 hu
    exact hright.store rfl rfl rfl
  · obtain ⟨added, hadded, hblocks⟩ := h.blocks
    obtain ⟨name, content, blocks⟩ := x
    obtain ⟨name', content', blocks'⟩ := y
    cases hblocks with
    | box => exact absurd rfl hclosed
    | inner htwin hrest =>
      obtain ⟨-, rfl⟩ := (declare_eq_ok_iff_of_open rfl).1 hd
      obtain ⟨-, rfl⟩ := (declare_eq_ok_iff_of_open rfl).1 hf
      exact ⟨h.qubits, h.clbits, h.outside, h.bans, added, hadded, .inner (htwin.declare i) hrest⟩

/-- A jump is refused in a box, but not in a loop inside it. -/
theorem jump (j : Jump) : Mirrored (Circuit.jump j) := by
  intro old bans x y d f h hd hf
  obtain ⟨added, hadded, hblocks⟩ := h.blocks
  obtain ⟨name, content, blocks⟩ := x
  obtain ⟨name', content', blocks'⟩ := y
  cases hblocks with
  | box hban hitems => exact absurd ((jump_eq_ok_iff_of_open rfl).1 hf).1 hban
  | inner htwin hrest =>
    obtain ⟨hban, rfl⟩ := (jump_eq_ok_iff_of_open rfl).1 hd
    obtain ⟨-, rfl⟩ := (jump_eq_ok_iff_of_open rfl).1 hf
    refine h.snoc_open (List.cons_ne_nil _ _) fun hhead => absurd ?_ hhead
    rw [← h.bans, List.map_cons, List.head?_cons, hban]

/-- Calls on the scope keep the runs in step. -/
theorem call {k : Call} (hk : k.OnScope) : Mirrored k.run := by
  intro old bans x y d f h hd hf
  obtain ⟨rs, u, hrs, hfirst, hd⟩ := Call.run_eq_ok hk hd
  obtain ⟨rs', v, hrs', hfirst', hf⟩ := Call.run_eq_ok hk hf
  rw [Call.records_congr h.bits, hrs] at hrs'
  cases hrs'
  -- what comes first is a declaration, a jump or nothing
  have hmirrored : Mirrored k.first := by
    cases k with
    | addVar v initial => exact declare _
    | declare i => exact declare i
    | jump j => exact jump j
    | _ => exact done
  exact each append rs old bans u v d f (hmirrored old bans x y u v h hfirst hfirst') hd hf

end Mirrored

/-! ## Compositions in step -/

section Compose

variable {source : Circuit} {o : ComposeOptions} {p p' : Placement} {s s' : Splice}

/-- A composition that goes into the box brings no clbits and no phase, and goes to the same
places in both runs. -/
theorem Mirrors.place (h : Mirrors old bans x y) (hx : x.place source o = .ok p)
    (hy : y.place source o = .ok p') :
    p' = p ∧ p.bringClbits = false ∧ o.front = false ∧ source.content.phase.isPhase = false := by
  have hscope : y.inScope = true := by
    simp [inScope, h.blocks_ne_nil]
  have hinside := place_eq_ok_iff.1 hy
  have hbring' : p'.bringClbits = false := by simpa [hscope] using hinside.brings
  have hle : source.numClbits ≤ x.numClbits := by
    have hsize : y.numClbits = x.numClbits := congrArg BitList.size h.clbits
    exact hsize ▸ hinside.numClbits hbring'
  -- what fits into the box brings nothing outside either
  have hnone : p.bringClbits = false := by
    rw [(place_eq_ok_iff.1 hx).brings, bringsClbits]
    by_cases hzero : x.numClbits = 0
    · have hempty : source.numClbits = 0 := by omega
      simp [hempty]
    · simp [hzero]
  refine ⟨?_, hnone, by simpa [hscope] using hinside.front, by simpa [hscope] using hinside.phase⟩
  obtain ⟨hqubits, hclbits⟩ := place_targets hx
  obtain ⟨hqubits', hclbits'⟩ := place_targets hy
  obtain ⟨qubits, clbits, bring⟩ := p
  obtain ⟨qubits', clbits', bring'⟩ := p'
  cases hbring'
  cases hnone
  cases hqubits.trans hqubits'.symm
  cases hclbits.trans hclbits'.symm
  rfl

/-- The records come out the same in both runs, and no alias is made in the one if none is
made in the other. -/
theorem Mirrors.splice (h : Mirrors old bans x y) (hbring : p.bringClbits = false)
    (hx : x.splice source o p = .ok s) (hy : y.splice source o p = .ok s')
    (hnone : s'.aliases = []) : s.aliases = [] ∧ s'.records = s.records := by
  obtain ⟨images, hsettled⟩ := splice_settled hx
  obtain ⟨images', hsettled'⟩ := splice_settled hy
  cases hsettled.resolved.symm.trans hsettled'.resolved
  have hmap : y.spliceMap source p images = x.spliceMap source p images := by
    simp only [spliceMap, Placement.host, hbring, Bool.false_eq_true, if_false, h.clbits]
  have hrecords := hsettled'.records
  rw [hmap, hnone] at hrecords
  have haliases := hsettled.idle _ hrecords
  refine ⟨haliases, ?_⟩
  have hall := hsettled.records
  rw [haliases, hrecords] at hall
  exact Except.ok.inj hall

end Compose

end Circuit

namespace IdentifierPlan

variable {c source : Circuit} {o : ComposeOptions} {p : Placement} {m : Renaming}

/-- In a block a capture that is inlined is used, and anything else is declared. -/
theorem scope_of_step (hscope : c.inScope = true) {plan plan' : IdentifierPlan}
    {e : Identifier × IdentifierKind} (h : plan.step c source o p (m.apply e.1) e.2 = .ok plan') :
    plan'.uses = plan.uses ++ (if o.inlines e then [m.apply e.1] else []) ∧
      plan'.declarations = plan.declarations ++ (if o.inlines e then [] else [m.apply e.1]) := by
  simp only [step, hscope, if_true] at h
  split at h
  · rename_i hinlined
    have hinlines : o.inlines e = true := by simpa [ComposeOptions.inlines] using hinlined
    cases h
    simp [hinlines]
  · rename_i hinlined
    have hinlines : ¬ o.inlines e = true := by simpa [ComposeOptions.inlines] using hinlined
    split at h <;> cases h
    simp [hinlines]

/-- In a block the plan for identifiers depends on the source only. -/
theorem scope_of_make (hscope : c.inScope = true) {plan : IdentifierPlan}
    (h : make c source o p m = .ok plan) :
    plan.uses = (source.content.identifiers.toList.filter o.inlines).map (m.apply ·.1) ∧
      plan.declarations =
        (source.content.identifiers.toList.filter fun e => !o.inlines e).map (m.apply ·.1) := by
  refine make_keeps (P := fun done plan =>
    plan.uses = (done.filter o.inlines).map (m.apply ·.1) ∧
      plan.declarations = (done.filter fun e => !o.inlines e).map (m.apply ·.1)) ⟨rfl, rfl⟩ ?_ h
  intro done plan e plan' ⟨huses, hdeclarations⟩ hstep
  obtain ⟨huses', hdeclarations'⟩ := scope_of_step hscope hstep
  rw [huses', hdeclarations', huses, hdeclarations]
  simp only [List.filter_append, List.map_append]
  cases hinlines : o.inlines e <;> simp [hinlines]

end IdentifierPlan

namespace Circuit

variable {old : List Instruction} {bans : List (Option JumpBan)} {x y d f : Circuit}
  {source : Circuit} {o : ComposeOptions} {p : Placement} {s s' : Splice}

theorem addSpliceInScope_eq_ok (h : addSpliceInScope s x = .ok () d) : s.aliases = [] ∧
    ∃ u v, Edit.each useIdentifier s.identifiers.uses x = .ok () u ∧
      Edit.each declare s.identifiers.declarations u = .ok () v ∧
      Edit.each append s.records v = .ok () d := by
  obtain ⟨_, hnone, h⟩ := Edit.ofExcept_bind_eq_ok_iff.1 h
  obtain ⟨_, u, huses, h⟩ := Edit.bind_eq_ok_iff.1 (keepingBlocks_eq_ok_iff.1 h)
  obtain ⟨_, v, hdeclarations, h⟩ := Edit.bind_eq_ok_iff.1 h
  exact ⟨by simpa using refuseIf_eq_ok_iff.1 hnone, u, v, huses, hdeclarations, h⟩

/-- Outside every block records are appended to the store. -/
theorem each_append_of_closed {rs : List Instruction} {content : Content}
    (hclosed : x.blocks = []) (h : Edit.each Content.push rs x.content = .ok () content) :
    Edit.each append rs x = .ok () ⟨x.name, content, []⟩ := by
  induction rs generalizing x with
  | nil =>
    cases h
    obtain ⟨name, content, blocks⟩ := x
    cases hclosed
    rfl
  | cons r rest ih =>
    obtain ⟨_, u, hu, h⟩ := Edit.bind_eq_ok_iff.1 h
    refine Edit.bind_eq_ok_iff.2 ⟨(), ⟨x.name, u, x.blocks⟩, ?_, ?_⟩
    · rw [append_of_closed hclosed]
      exact Edit.within_eq_ok_iff.2 ⟨u, hu, rfl⟩
    · exact ih hclosed h

/-- A splice that only has identifiers and records to add leaves the bits alone. -/
theorem addSplice_eq_ok {content : Content} (hbring : s.placement.bringClbits = false)
    (hnone : s.aliases = [])
    (hphase : source.content.phase.isPhase = false)
    (h : Content.addSplice source.content false s x.content = .ok () content) :
    ∃ table, Edit.each append s.records ⟨x.name, { x.content with identifiers := table }, []⟩ =
      .ok () ⟨x.name, content, []⟩ := by
  unfold Content.addSplice at h
  rw [hbring, hnone, hphase] at h
  obtain ⟨_, u, hbits, h⟩ := Edit.bind_eq_ok_iff.1 h
  cases hbits
  obtain ⟨_, u, haliases, h⟩ := Edit.bind_eq_ok_iff.1 h
  cases haliases
  obtain ⟨_, u, hidentifiers, h⟩ := Edit.bind_eq_ok_iff.1 h
  obtain ⟨_, v, hrecords, h⟩ := Edit.bind_eq_ok_iff.1 h
  cases h
  have hidentifiers : Edit.each (fun e => Content.addIdentifier e.1 e.2) s.identifiers.additions
      x.content = .ok () u := hidentifiers
  obtain ⟨table, rfl⟩ := Content.frame_of_each_addIdentifier hidentifiers
  exact ⟨table, each_append_of_closed rfl hrecords⟩

/-- Records that are spliced in keep the runs in step. -/
theorem Mirrors.spliced (h : Mirrors old bans x y) (hbring : p.bringClbits = false)
    (hphase : source.content.phase.isPhase = false) (hs : x.splice source o p = .ok s)
    (hs' : y.splice source o p = .ok s')
    (hd : (if x.inScope then addSpliceInScope s
      else Edit.within contentFocus (Content.addSplice source.content false s)) x = .ok () d)
    (hf : addSpliceInScope s' y = .ok () f) : Mirrors old bans d f := by
  obtain ⟨hnone', v, w, huses', hdeclarations', hrecords'⟩ := addSpliceInScope_eq_ok hf
  obtain ⟨hnone, hrecords⟩ := h.splice hbring hs hs' hnone'
  obtain ⟨images, hsettled⟩ := splice_settled hs
  rw [hrecords] at hrecords'
  by_cases hclosed : x.blocks = []
  · -- identifiers go to the store in the one run, and into the box in the other
    have hv := h.each_closed (fun i y f h hf => h.use_closed hclosed hf) huses'
    have hw := hv.each_closed (fun i y f h hf => h.declare_closed hclosed hf) hdeclarations'
    rw [if_neg (by simp [inScope, hclosed])] at hd
    obtain ⟨content, hcontent, rfl⟩ := Edit.within_eq_ok_iff.1 hd
    obtain ⟨table, hadded⟩ :=
      addSplice_eq_ok (hsettled.placement ▸ hbring) hnone hphase hcontent
    obtain ⟨name, old', blocks⟩ := x
    cases hclosed
    have hstart : Mirrors old bans ⟨name, { old' with identifiers := table }, []⟩ w :=
      hw.store rfl rfl rfl
    exact Mirrored.each .append s.records old bans _ w _ f hstart hadded hrecords'
  · rw [if_pos (by simp [inScope, hclosed])] at hd
    -- in a block both runs make the same plan, so that they use and declare the same
    obtain ⟨-, v', w', huses, hdeclarations, hrecords⟩ := addSpliceInScope_eq_ok hd
    obtain ⟨images', hsettled'⟩ := splice_settled hs'
    cases hsettled.resolved.symm.trans hsettled'.resolved
    obtain ⟨hsame, hsame'⟩ :=
      IdentifierPlan.scope_of_make (by simp [inScope, hclosed]) hsettled.plan
    obtain ⟨hother, hother'⟩ :=
      IdentifierPlan.scope_of_make (by simp [inScope, h.blocks_ne_nil]) hsettled'.plan
    rw [hsame] at huses
    rw [hsame'] at hdeclarations
    rw [hother] at huses'
    rw [hother'] at hdeclarations'
    have hv := Mirrored.each .useIdentifier _ old bans x y v' v h huses huses'
    have hw := Mirrored.each .declare _ old bans v' v w' w hv hdeclarations hdeclarations'
    exact Mirrored.each .append _ old bans w' w d f hw hrecords hrecords'

/-- Compositions keep the runs in step. -/
theorem Mirrored.compose (source : Circuit) (o : ComposeOptions) :
    Mirrored (Circuit.compose source o) := by
  intro old bans x y d f h hd hf
  obtain ⟨_, _, hget, hd⟩ := Edit.bind_eq_ok_iff.1 hd
  cases hget
  obtain ⟨p, hp, hd⟩ := Edit.ofExcept_bind_eq_ok_iff.1 hd
  obtain ⟨_, _, hget, hf⟩ := Edit.bind_eq_ok_iff.1 hf
  cases hget
  obtain ⟨p', hp', hf⟩ := Edit.ofExcept_bind_eq_ok_iff.1 hf
  obtain ⟨rfl, hbring, hfront, hphase⟩ := h.place hp hp'
  cases hwrap : o.wrap with
  | true =>
    -- one operation, on the same bits
    simp only [hwrap, if_true, composeWrapped, hbring, hfront] at hd hf
    obtain ⟨op, hop, hd⟩ := Edit.ofExcept_bind_eq_ok_iff.1 hd
    obtain ⟨op', hop', hf⟩ := Edit.ofExcept_bind_eq_ok_iff.1 hf
    cases hop.symm.trans hop'
    exact append _ old bans _ _ d f h hd hf
  | false =>
    simp only [hwrap, Bool.false_eq_true, if_false] at hd hf
    obtain ⟨s, hs, hd⟩ := Edit.ofExcept_bind_eq_ok_iff.1 hd
    obtain ⟨s', hs', hf⟩ := Edit.ofExcept_bind_eq_ok_iff.1 hf
    have hscope : y.inScope = true := by simp [inScope, h.blocks_ne_nil]
    rw [hfront] at hd
    rw [if_pos hscope] at hf
    exact h.spliced hbring hphase hs hs' hd hf

end Circuit

end QuantumCircuit
