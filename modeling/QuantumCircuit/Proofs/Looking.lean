import QuantumCircuit.Proofs.Lapsing

/-!
# Looking up identifiers

In the bodies of builders an identifier is found by its name exactly when it has that name and can
be used, there is at most one such identifier, and what a block captures is captured by all blocks
further out, up to the one that declares it, or else down to the store
(`Circuit.Visited.look_up_exact`).

The circuits that this is about are those that calls, heads and ends of builders lead to
(`Circuit.Visited`), and a body never comes to another one (`Building.keeps_visits`). Each step
keeps the circuit a nest of bodies, of which each stands in the one around it
(`Circuit.Visited.nested`); in such a nest every block is linked to those further out (`Chained`).
-/

namespace QuantumCircuit

open Circuit (Call Closing)

/-! ## Linked blocks -/

section Chained

variable {root : Content} {blocks outer : List Block} {b : Block} {i j : Identifier}
  {name : String}

/-- A block among those around it: what can be used around it has the name of none of its locals,
and what it captures can be used around it, and resolves in the next block. -/
structure Block.Linked (root : Content) (outer : List Block) (b : Block) : Prop where
  locals : b.locals.Listed
  apart : ∀ i, b.locals.hasName i.name → ¬ Known root outer i
  captured : ∀ i ∈ b.footprint.captures, Known root outer i
  passed : ∀ next ∈ outer.head?, ∀ i ∈ b.footprint.captures, next.resolves i

/-- Every block is linked to those around it. -/
def Chained (root : Content) : List Block → Prop
  | [] => root.identifiers.Listed
  | b :: outer => b.Linked root outer ∧ Chained root outer

/-- When `j` is captured it resolves in the innermost block, and what did so before still does. -/
theorem resolves_captureThrough (outer : List Block) (h : i = j ∨ b.resolves i) :
    ∃ top rest, captureThrough j (b :: outer) = top :: rest ∧ top.resolves i := by
  by_cases hj : b.resolves j
  · refine ⟨b, outer, captureThrough_of_resolves hj, ?_⟩
    rcases h with rfl | h
    · exact hj
    · exact h
  · refine ⟨_, _, captureThrough_of_not_resolves hj, ?_⟩
    rw [Block.resolves_iff, Block.mem_captures_touch, List.mem_singleton]
    rcases h with rfl | h
    · exact .inr (.inr rfl)
    · exact (Block.resolves_iff.1 h).imp_right .inl

/-- What was captured resolves in the innermost block. -/
theorem resolves_captureAll {is : List Identifier} (outer : List Block)
    (h : i ∈ is ∨ b.resolves i) :
    ∃ top rest, captureAll is (b :: outer) = top :: rest ∧ top.resolves i := by
  induction is generalizing b outer with
  | nil => exact ⟨b, outer, rfl, h.resolve_left List.not_mem_nil⟩
  | cons j is ih =>
    show ∃ top rest, captureAll is (captureThrough j (b :: outer)) = top :: rest ∧ top.resolves i
    by_cases hnow : i = j ∨ b.resolves i
    · obtain ⟨top, rest, hblocks, htop⟩ := resolves_captureThrough outer hnow
      rw [hblocks]
      exact ih rest (.inr htop)
    · have hlater : i ∈ is := by
        rw [not_or] at hnow
        exact List.mem_of_ne_of_mem hnow.1 (h.resolve_right hnow.2)
      have hself : j = j ∨ b.resolves j := .inl rfl
      obtain ⟨top, rest, hblocks, -⟩ := resolves_captureThrough outer hself
      rw [hblocks]
      exact ih rest (.inl hlater)

namespace IdentifierTable

variable {t : IdentifierTable}

theorem Listed.get?_eq_some_iff (h : t.Listed) :
    t.get? name = some i ↔ i.name = name ∧ t.contains i := by
  rw [get?, contains_iff_find?]
  constructor
  · intro hget
    obtain ⟨e, hfind, rfl⟩ := Option.map_eq_some_iff.1 hget
    obtain rfl : e.1.name = name := h.named _ (Assoc.mem_of_find? hfind)
    exact ⟨rfl, e.2, hfind⟩
  · rintro ⟨rfl, kind, hfind⟩
    rw [hfind]
    rfl

end IdentifierTable

namespace Block.Linked

/-- What a block has under a name resolves in it. -/
theorem resolves_of_named? (h : b.Linked root outer) (hi : b.named? name = some i) :
    i.name = name ∧ b.resolves i := by
  unfold named? at hi
  rw [resolves_iff]
  split at hi
  · cases hi
    obtain ⟨hname, hlocal⟩ := h.locals.get?_eq_some_iff.1 ‹_›
    exact ⟨hname, .inl hlocal⟩
  · have hname := List.find?_some hi
    exact ⟨by simpa using hname, .inr (List.mem_of_find?_eq_some hi)⟩

/-- Where a block has nothing under a name, nothing of that name resolves in it. -/
theorem not_resolves_of_named? (h : b.Linked root outer) (hnone : b.named? i.name = none) :
    ¬ b.resolves i := by
  unfold named? at hnone
  split at hnone
  · cases hnone
  rw [resolves_iff, not_or]
  refine ⟨fun hlocal => ?_, fun hcaptured => ?_⟩
  · have hget := h.locals.get?_eq_some_iff.2 ⟨rfl, hlocal⟩
    simp_all
  · simpa using List.find?_eq_none.1 hnone i hcaptured

end Block.Linked

namespace Chained

/-- Of one name at most one identifier can be used. -/
theorem eq_of_name_eq (h : Chained root blocks) (hi : Known root blocks i)
    (hj : Known root blocks j) (hname : i.name = j.name) : i = j := by
  induction blocks with
  | nil => exact IdentifierTable.eq_of_contains (known_nil_iff.1 hi) (known_nil_iff.1 hj) hname
  | cons b outer ih =>
    obtain ⟨hb, houter⟩ := h
    -- each of the two is a local of the block, or can be used around it
    have hsplit : ∀ {i}, Known root (b :: outer) i → b.locals.contains i ∨ Known root outer i := by
      intro i hi
      rcases known_cons_iff.1 hi with hresolves | ⟨-, hi⟩
      · exact (Block.resolves_iff.1 hresolves).imp_right (hb.captured i)
      · exact .inr hi
    rcases hsplit hi with hi | hi <;> rcases hsplit hj with hj | hj
    · exact IdentifierTable.eq_of_contains hi hj hname
    · exact absurd hj (hb.apart j (hname ▸ IdentifierTable.hasName_of_contains hi))
    · exact absurd hi (hb.apart i (hname ▸ IdentifierTable.hasName_of_contains hj))
    · exact ih houter hi hj

/-- What a block captures resolves in every block further out: as a capture, up to the block that
declares it, or else down to the store. -/
theorem captures_outward (h : Chained root (b :: outer)) (hi : i ∈ b.footprint.captures) :
    (∃ between next rest, outer = between ++ next :: rest ∧
      (∀ m ∈ between, i ∈ m.footprint.captures) ∧ next.locals.contains i) ∨
    (root.identifiers.contains i ∧ ∀ m ∈ outer, i ∈ m.footprint.captures) := by
  induction outer generalizing b with
  | nil =>
    refine .inr ⟨known_nil_iff.1 (h.1.captured i hi), ?_⟩
    simp
  | cons next outer ih =>
    obtain ⟨hb, houter⟩ := h
    rcases Block.resolves_iff.1 (hb.passed next rfl i hi) with hlocal | hcaptured
    · exact .inl ⟨[], next, outer, rfl, by simp, hlocal⟩
    · rcases ih houter hcaptured with ⟨between, m, rest, rfl, hbetween, hlocal⟩ | ⟨hroot, hall⟩
      · refine .inl ⟨next :: between, m, rest, rfl, ?_, hlocal⟩
        exact List.forall_mem_cons.2 ⟨hcaptured, hbetween⟩
      · exact .inr ⟨hroot, List.forall_mem_cons.2 ⟨hcaptured, hall⟩⟩

theorem drop {inner : List Block} (h : Chained root (inner ++ blocks)) : Chained root blocks := by
  induction inner with
  | nil => exact h
  | cons b inner ih => exact ih h.2

end Chained

end Chained

namespace Circuit

variable {c : Circuit} {b : Block} {outer : List Block} {i : Identifier} {name : String}

/-- A look-up goes from the innermost block outward. -/
theorem identifier?_cons (c : Circuit) (b : Block) (outer : List Block) (name : String) :
    Circuit.identifier? ⟨c.name, c.content, b :: outer⟩ name =
      (b.named? name).or (Circuit.identifier? ⟨c.name, c.content, outer⟩ name) := by
  unfold identifier?
  rw [List.findSome?_cons]
  cases b.named? name <;> rfl

/-- In a chain a look-up finds what can be used. -/
theorem identifier?_eq_some_iff (h : Chained c.content c.blocks) :
    c.identifier? name = some i ↔ i.name = name ∧ Known c.content c.blocks i := by
  obtain ⟨circuitName, root, blocks⟩ := c
  induction blocks with
  | nil =>
    rw [known_nil_iff]
    exact IdentifierTable.Listed.get?_eq_some_iff h
  | cons b outer ih =>
    have hfull := h
    obtain ⟨hb, houter⟩ := h
    rw [identifier?_cons ⟨circuitName, root, outer⟩]
    cases hnamed : b.named? name with
    | some j =>
      obtain ⟨rfl, hj⟩ := hb.resolves_of_named? hnamed
      have hknown : Known root (b :: outer) j := known_cons_iff.2 (.inl hj)
      simp only [Option.some_or, Option.some.injEq]
      constructor
      · rintro rfl
        exact ⟨rfl, hknown⟩
      · rintro ⟨hname, hi⟩
        exact hfull.eq_of_name_eq hknown hi hname.symm
    | none =>
      simp only [Option.none_or]
      rw [ih houter]
      refine and_congr_right ?_
      rintro rfl
      have hnot := hb.not_resolves_of_named? hnamed
      refine ⟨fun hi => known_cons_iff.2 (.inr ⟨fun hhas => hb.apart i hhas hi, hi⟩), fun hi => ?_⟩
      exact ((known_cons_iff.1 hi).resolve_left hnot).2

/-! ## Nests of bodies -/

variable {L : Licence} {base d : Circuit} {U : Identifier → Prop} {is : List Identifier}

/-- A circuit outside every block, or in a body on a circuit that is itself in a nest of bodies. -/
inductive Nested (L : Licence) : Circuit → Prop
  | outside {c : Circuit} : c.blocks = [] → c.content.identifiers.Listed → Nested L c
  | inside {base c : Circuit} {U : Identifier → Prop} : Nested L base → Inside L base U c →
      Nested L c

theorem Inside.length_blocks (h : Inside L base U c) :
    c.blocks.length = base.blocks.length + 1 := by
  obtain ⟨-, top, is, hblocks, -⟩ := h
  rw [hblocks, List.length_cons, captureAll_length]

namespace Nested

/-- Only the blocks count, and the store as far as the licence lets it be another one. -/
theorem congr (h : Nested L c) (hsame : L.Same c d) (hblocks : d.blocks = c.blocks) :
    Nested L d := by
  cases h with
  | outside hnone hlisted => exact .outside (hblocks.trans hnone) (hsame.identifiers ▸ hlisted)
  | inside hbase hin => exact .inside hbase ⟨hin.same.trans hsame, hblocks ▸ hin.blocks⟩

theorem capture (h : Nested L c) (his : ∀ i ∈ is, Known c.content c.blocks i) :
    Nested L (c.capture is) := by
  cases h with
  | outside hnone hlisted =>
    refine .outside ?_ hlisted
    show captureAll is c.blocks = []
    rw [hnone, captureAll_nil]
  | inside hbase hin => exact .inside hbase (hin.capture his)

theorem touch (h : Nested L c) {f : Footprint} (hf : f.captures = []) :
    Nested L (c.onTop (·.touch f)) := by
  cases h with
  | outside hnone hlisted =>
    rw [onTop_of_closed hnone]
    exact .outside hnone hlisted
  | inside hbase hin => exact .inside hbase (hin.touch hf)

/-- A body is entered. -/
theorem enter {template : Block} (h : Nested L c) (htemplate : template.Blank) :
    Nested L { c with blocks := template :: c.blocks } :=
  .inside h (.start htemplate.captures htemplate.locals)

/-- A body is left. Its block was linked to those around it. -/
theorem leave (h : Nested L c) (hblocks : c.blocks = b :: outer) :
    Nested L ⟨c.name, c.content, outer⟩ ∧ b.Linked c.content outer := by
  cases h with
  | outside hnone _ => cases hnone.symm.trans hblocks
  | @inside base _ U hbase hin =>
    obtain ⟨hsame, top, is, htop, hstands⟩ := hin
    obtain ⟨rfl, rfl⟩ := List.cons_eq_cons.1 (htop.symm.trans hblocks)
    have hall : ∀ i ∈ is, Known base.content base.blocks i := fun i hi => ((hstands.used i).1 hi).2
    have hknown : ∀ i, Known c.content (captureAll is base.blocks) i ↔
        Known base.content base.blocks i := fun i =>
      (known_congr hsame.identifiers).trans (known_captureAll_iff hall)
    have hbefore : L.Same (base.capture is) base := .of_store rfl rfl
    have hafter : L.Same c ⟨c.name, c.content, captureAll is base.blocks⟩ := .of_store rfl rfl
    refine ⟨(hbase.capture hall).congr (hbefore.trans (hsame.trans hafter)) rfl,
      hstands.locals, fun i hi => ?_, fun i hi => ?_, fun next hnext i hi => ?_⟩
    · exact fun houter => hstands.apart i hi ((hknown i).1 houter)
    · exact (hknown i).2 (hall i ((hstands.captures i).1 hi))
    · -- the block next to it captured with it
      have hi := (hstands.captures i).1 hi
      cases hbase : base.blocks with
      | nil => simp [hbase, captureAll_nil] at hnext
      | cons around further =>
        have hcaptured : i ∈ is ∨ around.resolves i := .inl hi
        obtain ⟨top, rest, hblocks, htop⟩ := resolves_captureAll further hcaptured
        rw [hbase, hblocks] at hnext
        cases hnext
        exact htop

/-- In a nest all blocks are linked. -/
theorem chained (h : Nested L c) : Chained c.content c.blocks := by
  obtain ⟨name, content, blocks⟩ := c
  induction blocks with
  | nil =>
    cases h with
    | outside _ hlisted => exact hlisted
    | inside _ hin => exact absurd rfl hin.blocks_ne_nil
  | cons b outer ih =>
    obtain ⟨houter, hlinked⟩ := h.leave rfl
    exact ⟨hlinked, ih houter⟩

/-- A call in a body, refused or not, opens no block and closes none. -/
theorem call {k : Call} (h : Nested L c) (hopen : c.blocks ≠ []) (hk : L.Allows k)
    (hd : k.run.Leaves c d) : Nested L d ∧ d.blocks.length = c.blocks.length := by
  cases h with
  | outside hnone _ => exact absurd hnone hopen
  | inside hbase hin =>
    rcases hd with ⟨_, hd⟩ | ⟨e, hd⟩
    · have hafter := hin.call hk hd
      exact ⟨.inside hbase hafter, hafter.length_blocks.trans hin.length_blocks.symm⟩
    · have hafter := hin.refused hk hd
      exact ⟨.inside hbase hafter, hafter.length_blocks.trans hin.length_blocks.symm⟩

/-- So does the end of a builder, in a body or outside every block. -/
theorem closing {k : Closing} (h : Nested L c) (hd : k.run.Leaves c d) :
    Nested L d ∧ d.blocks.length = c.blocks.length := by
  rcases hd with ⟨_, hd⟩ | ⟨e, hd⟩
  · cases h with
    | outside hnone hlisted =>
      -- there nothing can wait, and a record leaves the identifiers alone
      obtain ⟨r, flow, -, rfl⟩ := Closing.eq_snoc_of_closed hnone hd
      exact ⟨.outside hnone hlisted, rfl⟩
    | inside hbase hin =>
      have hafter := hin.closing hd
      exact ⟨.inside hbase hafter, hafter.length_blocks.trans hin.length_blocks.symm⟩
  · obtain rfl := Closing.eq_of_refused hd
    exact ⟨h, rfl⟩

/-- What a builder reads goes into the innermost block. -/
theorem read (h : Nested L c) (r : Reading) :
    Nested L ((r.noted c).capture (r.used c)) ∧
      ((r.noted c).capture (r.used c)).blocks.length = c.blocks.length := by
  have hnoted : Nested L (r.noted c) := h.touch (r.captures_span c)
  refine ⟨hnoted.capture fun i hi => Reading.known_noted_iff.2 (Reading.known_of_mem_used hi), ?_⟩
  show (captureAll _ (r.noted c).blocks).length = _
  rw [captureAll_length]
  unfold Reading.noted onTop
  split <;> simp [*]

end Nested

/-! ## Circuits that are visited -/

/-- The circuits that the runs of builders come through: from a reached circuit outside every block
by what builders read, by bodies that are entered and left, by the calls in them, and by the ends of
builders. Each of these steps may be refused halfway. -/
inductive Visited (L : Licence) : Circuit → Prop
  | outside {c : Circuit} : Reachable .any c → c.blocks = [] → Visited L c
  | read {c d : Circuit} (b : Building L) : Visited L c → b.head.Leaves c d → Visited L d
  | enter {c : Circuit} {template : Block} : Visited L c → template.Blank →
      Visited L { c with blocks := template :: c.blocks }
  | call {c d : Circuit} (k : Call) : Visited L c → c.blocks ≠ [] → L.Allows k →
      k.run.Leaves c d → Visited L d
  | leave {c : Circuit} {top : Block} {outer : List Block} : Visited L c →
      c.blocks = top :: outer → Visited L { c with blocks := outer }
  | close {c d : Circuit} (k : Closing) : Visited L c → k.run.Leaves c d → Visited L d

/-- Wherever the runs of builders come to, the bodies are nested. -/
theorem Visited.nested (h : Visited L c) : Nested L c := by
  induction h with
  | outside hreach hnone =>
    have hnames := hreach.built.everywhere_any Content.namesFree_invariant
    exact .outside hnone hnames.here.listed
  | read b _ hd ih => exact Building.head_leaves hd ▸ (ih.read b.reading).1
  | enter _ htemplate ih => exact ih.enter htemplate
  | call k _ hopen hk hd ih => exact (ih.call hopen hk hd).1
  | leave _ hblocks ih => exact (ih.leave hblocks).1
  | close k _ hd ih => exact (ih.closing hd).1

theorem useIdentifier_answers_iff :
    (∃ d, useIdentifier i c = .ok () d) ↔ Known c.content c.blocks i := by
  constructor
  · rintro ⟨d, hd⟩
    exact (Checking.seq_eq_ok_iff.1 (Edit.update_eq_ok_iff.1 hd)).1
  · exact fun hi => ⟨_, useIdentifier_of_known hi⟩

/-- Wherever the runs of builders come to: a look-up finds an identifier under a name exactly if
that is its name and it can be used, of one name at most one identifier can be used, and what a
block has captured all blocks further out have captured, up to one that declares it, or else down
to the store, which has it. -/
theorem Visited.look_up_exact (h : Visited L c) :
    (∀ name i, c.identifier? name = some i ↔
      i.name = name ∧ ∃ d, useIdentifier i c = .ok () d) ∧
    (∀ i j d e, useIdentifier i c = .ok () d → useIdentifier j c = .ok () e → i.name = j.name →
      i = j) ∧
    (∀ inner b outer i, c.blocks = inner ++ b :: outer → i ∈ b.footprint.captures →
      (∃ between next rest, outer = between ++ next :: rest ∧
        (∀ m ∈ between, i ∈ m.footprint.captures) ∧ next.locals.contains i) ∨
      (c.content.identifiers.contains i ∧ ∀ m ∈ outer, i ∈ m.footprint.captures)) := by
  have hchained := h.nested.chained
  refine ⟨fun name i => ?_, fun i j d e hi hj hname => ?_, fun inner b outer i hblocks hi => ?_⟩
  · rw [identifier?_eq_some_iff hchained, useIdentifier_answers_iff]
  · exact hchained.eq_of_name_eq (useIdentifier_answers_iff.1 ⟨d, hi⟩)
      (useIdentifier_answers_iff.1 ⟨e, hj⟩) hname
  · rw [hblocks] at hchained
    exact hchained.drop.captures_outward hi

/-- A variable of the circuit. -/
def ready : Var := ⟨"ready", .bool, ⟨0, 0⟩⟩

/-- A loop in a box, in which the variable has been used. -/
def readyInLoop : Circuit :=
  ⟨"main", Content.empty.after [.addIdentifier (.var ready) .declare],
    captureAll [.var ready] [.empty none, .empty (some .insideBox)]⟩

/-- In the loop the variable is found by its name, and as the loop has captured it, so has the box
around it. -/
theorem look_up_exact_in_loop : Visited .scope readyInLoop ∧
    readyInLoop.identifier? "ready" = some (.var ready) ∧
    ∃ loop box, readyInLoop.blocks = [loop, box] ∧ .var ready ∈ loop.footprint.captures ∧
      .var ready ∈ box.footprint.captures := by
  let root := Content.empty.after [.addIdentifier (.var ready) .declare]
  have hreach : Reachable .any ⟨"main", root, []⟩ := .ofStore "main" (.empty_after rfl)
  have hboxed : Visited .scope ⟨"main", root, [.empty (some .insideBox)]⟩ :=
    (Visited.outside hreach rfl).enter ⟨rfl, rfl⟩
  have hlooped : Visited .scope ⟨"main", root, [.empty none, .empty (some .insideBox)]⟩ :=
    hboxed.enter ⟨rfl, rfl⟩
  have hvisited : Visited .scope readyInLoop :=
    hlooped.read (.ifTest (.expr (.var ready)) (.done (.ok ()))) (.of_ok rfl)
  obtain ⟨hfound, -, hcaptured⟩ := hvisited.look_up_exact
  refine ⟨hvisited, (hfound _ _).2 ⟨rfl, _, rfl⟩, _, _, rfl, by decide, ?_⟩
  rcases hcaptured [] _ _ (.var ready) rfl (by decide) with
    ⟨between, next, rest, hsplit, -, hlocal⟩ | ⟨-, houter⟩
  · -- neither block declares anything
    have hnext : next ∈ between ++ next :: rest := by simp
    rw [← hsplit] at hnext
    cases List.mem_singleton.1 hnext
    exact absurd hlocal (by decide)
  · exact houter _ List.mem_cons_self

end Circuit

/-! ## Runs -/

namespace Traced

variable {L : Licence} {n : Nat} {s t : Traced} {template : Block}

/-- That the circuit has `n` open blocks, and that it is visited, as all are that were seen. -/
structure Visits (L : Licence) (n : Nat) (s : Traced) : Prop where
  circuit : s.circuit.Visited L
  depth : s.circuit.blocks.length = n
  seen : ∀ e ∈ s.trail, ∀ c ∈ e.circuits, c.Visited L

theorem Visits.log {e : Event} (h : Visits L n s) (he : ∀ c ∈ e.circuits, c.Visited L) :
    Visits L n (s.log e) := by
  refine ⟨h.circuit, h.depth, fun e' he' => ?_⟩
  rcases List.mem_append.1 he' with he' | he'
  · exact h.seen e' he'
  · exact List.mem_singleton.1 he' ▸ he

theorem watch_keeps_visits {α : Type} {edit : Edit Traced α}
    {note : Circuit → Circuit → Except CircuitError Unit → Event}
    (hnote : ∀ c d answer, (note c d answer).circuits = [c, d])
    (h : edit.Keeps (Visits L n)) : (watch note edit).Keeps (Visits L n) := by
  intro s t hs ht
  have haround : ∀ u answer, Visits L n u →
      Visits L n (u.log (note s.circuit u.circuit answer)) := by
    intro u answer hu
    refine hu.log ?_
    rw [hnote]
    simp [hs.circuit, hu.circuit]
  obtain ⟨a, ht⟩ := watch_leaves ht
  rcases watch_eq_ok ht with ⟨_, u, -, hrun, rfl⟩ | ⟨e, u, -, hrun, rfl⟩
  · exact haround u _ (h s u hs (.of_ok hrun))
  · exact haround u _ (h s u hs (.of_error hrun))

/-- A call in a body. -/
theorem call_keeps_visits {k : Call} (hk : L.Allows k) :
    (Edit.within focus k.run).Keeps (Visits L (n + 1)) := by
  intro s t hs ht
  obtain ⟨d, hd, rfl⟩ := Edit.leaves_within_iff.1 ht
  have hopen : s.circuit.blocks ≠ [] := by
    intro hnone
    simpa [hnone] using hs.depth
  refine ⟨hs.circuit.call k hopen hk hd, ?_, hs.seen⟩
  exact (hs.circuit.nested.call hopen hk hd).2.trans hs.depth

/-- A body that keeps to its block, one deeper. -/
theorem runBlock_keeps_visits {body : Edit Traced Unit} (hbody : body.Keeps (Visits L (n + 1)))
    (htemplate : template.Blank) :
    (Builder.runBlock focus template body).Keeps (Visits L n) := by
  intro s t hs ht
  have hstart : Visits L (n + 1) (Builder.entered focus template s) :=
    ⟨hs.circuit.enter htemplate, congrArg (· + 1) hs.depth, hs.seen⟩
  obtain ⟨u, top, outer, hu, hblocks, rfl⟩ := Builder.Form.runBlock_leaves_outer (fun u hu => by
    have hdepth := (hbody _ u hstart hu).depth
    obtain ⟨top, outer, hblocks⟩ := List.exists_cons_of_length_eq_add_one hdepth
    refine ⟨top, outer, hblocks, ?_⟩
    rw [hblocks, List.length_cons] at hdepth
    exact (Nat.succ.inj hdepth).trans hs.depth.symm) ht
  have hends := hbody _ u hstart hu
  refine ⟨hends.circuit.leave hblocks, ?_, hends.seen⟩
  have hdepth := hends.depth
  rw [show u.circuit.blocks = top :: outer from hblocks, List.length_cons] at hdepth
  exact Nat.succ.inj hdepth

end Traced

open Traced (Visits)

namespace Building

variable {L : Licence} {n : Nat}

/-- A builder whose bodies keep to what is visited does so itself. -/
theorem run_keeps_visits {b : Building L}
    (hbodies : ∀ template : Block, template.Blank → (b.bodies template).Keeps (Visits L n)) :
    b.run.Keeps (Visits L n) := by
  intro s t hs ht
  rw [run_eq] at ht
  -- it turns to what it reads
  obtain ⟨u, hu, ht⟩ : ∃ u, Visits L n u ∧ (do
      let template ← Edit.within Traced.focus b.head
      let k ← b.bodies template
      Edit.within Traced.focus k.run : Edit Traced Unit).Leaves u t := by
    rcases Edit.leaves_bind_iff.1 ht with ⟨e, he⟩ | ⟨_, u, hturn, ht⟩
    · cases he
    · cases hturn
      exact ⟨_, hs.log (by simp [Event.circuits, hs.circuit]), ht⟩
  have hhead : ∀ d, b.head.Leaves u.circuit d → Visits L n (Traced.focus.set d u) := by
    intro d hd
    refine ⟨hu.circuit.read b hd, ?_, hu.seen⟩
    rw [head_leaves hd]
    exact (hu.circuit.nested.read b.reading).2.trans hu.depth
  rcases Edit.leaves_bind_iff.1 ht with ⟨e, he⟩ | ⟨template, v, hread, ht⟩
  · obtain ⟨d, hd, rfl⟩ := Edit.within_eq_error_iff.1 he
    exact hhead d (.of_error hd)
  obtain ⟨d, hd, rfl⟩ := Edit.within_eq_ok_iff.1 hread
  have hread := hhead d (.of_ok hd)
  have htemplate := head_blank hd
  rcases Edit.leaves_bind_iff.1 ht with ⟨e, he⟩ | ⟨k, w, hw, ht⟩
  · exact hbodies template htemplate _ t hread (.of_error he)
  -- it comes to its end
  have hw := hbodies template htemplate _ w hread (.of_ok hw)
  obtain ⟨d', hd', rfl⟩ := Edit.leaves_within_iff.1 ht
  exact ⟨hw.circuit.close k hd', (hw.circuit.nested.closing hd').2.trans hw.depth, hw.seen⟩

end Building

variable {L : Licence}

mutual

/-- Whatever a body does, it comes only to circuits that are visited. -/
theorem Script.keeps_visits (n : Nat) : ∀ body : Script L, body.run.Keeps (Visits L (n + 1))
  | .done answer => .ofExcept answer
  | .look next => fun s t hs ht => Script.keeps_visits n (next s) s t hs ht
  | .call _ hk next => (Traced.watch_keeps_visits (fun _ _ _ => rfl)
      (Traced.call_keeps_visits hk)).bind fun answer => Script.keeps_visits n (next answer)
  | .build b next => (Traced.watch_keeps_visits (fun _ _ _ => rfl)
      (Building.run_keeps_visits (Building.bodies_keep_visits (n + 1) b))).bind
        fun answer => Script.keeps_visits n (next answer)

/-- So do the bodies of a builder, one after another. -/
theorem Building.bodies_keep_visits (n : Nat) : ∀ (b : Building L) (template : Block),
    template.Blank → (b.bodies template).Keeps (Visits L n)
  | .ifTest _ body | .whileLoop _ body | .forLoop _ _ body | .box _ body => fun _ htemplate =>
    (Traced.runBlock_keeps_visits (Script.keeps_visits n body) htemplate).bind fun _ => .pure _
  | .ifElse _ t f => fun _ htemplate =>
    (Traced.runBlock_keeps_visits (Script.keeps_visits n t) htemplate).bind fun _ =>
      (Traced.runBlock_keeps_visits (Script.keeps_visits n f) htemplate).bind fun _ => .pure _
  | .switch _ cases => fun _ htemplate => (Cases.keeps_visits n cases htemplate).bind fun _ =>
    .pure _

/-- And the cases of a switch. -/
theorem Cases.keeps_visits (n : Nat) : ∀ (cases : Cases L) {sofar : SwitchCases},
    sofar.template.Blank → (cases.run sofar).Keeps (Visits L n)
  | .done answer, _, _ => (Edit.Keeps.ofExcept answer).bind fun _ => .pure _
  | .look next, _, hsofar => fun s t hs ht => Cases.keeps_visits n (next s) hsofar s t hs ht
  | .case labels body next, sofar, hsofar => by
    have hcase : (Builder.switchCase Traced.focus labels body.run sofar).Keeps (Visits L n) :=
      (Edit.Keeps.ofExcept _).bind fun _ => (Edit.Keeps.ofExcept _).bind fun _ =>
        (Traced.runBlock_keeps_visits (Script.keeps_visits n body) hsofar).bind fun _ => .pure _
    exact Traced.keeps_case (Traced.watch_keeps_visits (fun _ _ _ => rfl) hcase)
      fun answer _ hmore => Cases.keeps_visits n (next answer) (hmore ▸ hsofar)

end

/-- A builder comes only to circuits that are visited, in a body or outside every block. -/
theorem Building.keeps_visits (n : Nat) (b : Building L) : b.run.Keeps (Visits L n) :=
  b.run_keeps_visits (b.bodies_keep_visits n)

end QuantumCircuit
