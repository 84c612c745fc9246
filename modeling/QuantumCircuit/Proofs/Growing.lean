import QuantumCircuit.Proofs.Refusing

/-!
# What a store keeps while it grows

Circuits add to their stores by a few calls only: bits, classical registers, identifiers, records
and a phase. A property that these keep (`Circuit.Growth`) is kept by all that is done to a circuit
without a call on its store, also when it is refused: by calls, and by the heads and the ends of
builders (`Circuit.Growth.act`).

Of identifiers a property may count on it that they are among those that the call brings
(`Circuit.Call.Brings`): for a composition, what the identifiers of the source become.
-/

namespace QuantumCircuit

/-- What an identifier becomes, it is resolved to at some place where it is listed. -/
theorem IdentifierRemap.resolve_of_images {r : IdentifierRemap} {stamp : Nat}
    {identifiers : List Identifier} {m : Renaming} (h : r.images stamp identifiers = .ok m)
    {i : Identifier} (hi : i ∈ identifiers) :
    ∃ n, identifiers[n]? = some i ∧ r.resolve i ⟨stamp, n⟩ = .ok (m.apply i) := by
  have hkey : i ∈ Assoc.keys m := (keys_images h).symm ▸ hi
  obtain ⟨image, hfound⟩ := Option.isSome_iff_exists.1 ((Assoc.contains_iff_mem_keys i m).2 hkey)
  obtain ⟨⟨i', n⟩, hentry, hone⟩ :=
    Checking.exists_left (Checking.mapM_eq_ok_iff.1 h) (Assoc.mem_of_find? hfound)
  obtain ⟨image', himage, heq⟩ := Checking.bind_eq_ok_iff.1 hone
  cases heq
  refine ⟨n, List.mk_mem_zipIdx_iff_getElem?.1 hentry, ?_⟩
  rw [himage, Renaming.apply, hfound]
  rfl

namespace Circuit

variable {c d : Circuit}

/-! ## Anything that may be done to a circuit -/

/-- A call, an assignment in one of its other forms, or the head or the end of a builder. -/
inductive Action where
  | call (k : Call)
  | assignValues (values : List Angle)
  | assignNamed (values : List (String × Angle))
  | head (h : Head)
  | close (k : Closing)

/-- Do it. What it answers is left out. -/
def Action.run : Action → Edit Circuit Unit
  | call k => k.run
  | assignValues values => Edit.within contentFocus (Content.assignValues values)
  | assignNamed values => Edit.within contentFocus (Content.assignNamed values)
  | head h => do let _ ← h.run
  | close k => k.run

/-- Whether it is an edit of the store and nothing else. -/
def Action.onStore : Action → Bool
  | call (.store _) | assignValues _ | assignNamed _ => true
  | _ => false

/-- An edit of the store leaves the circuit with what the same edit leaves of the store alone. -/
theorem Action.leaves_of_onStore {k : Action} {c d : Circuit} (hk : k.onStore = true)
    (h : k.run.Leaves c d) : ∃ u, d = { c with content := u } ∧
      ((∃ s, k = .call (.store s) ∧ s.run.Leaves c.content u) ∨
        (∃ values, k = .assignValues values ∧ (Content.assignValues values).Leaves c.content u) ∨
        ∃ values, k = .assignNamed values ∧ (Content.assignNamed values).Leaves c.content u) := by
  match k, hk with
  | .call (.store s), _ =>
    obtain ⟨u, hu, hd⟩ := Edit.leaves_within_iff.1 h
    exact ⟨u, hd.symm, .inl ⟨s, rfl, hu⟩⟩
  | .assignValues values, _ =>
    obtain ⟨u, hu, hd⟩ := Edit.leaves_within_iff.1 h
    exact ⟨u, hd.symm, .inr (.inl ⟨values, rfl, hu⟩)⟩
  | .assignNamed values, _ =>
    obtain ⟨u, hu, hd⟩ := Edit.leaves_within_iff.1 h
    exact ⟨u, hd.symm, .inr (.inr ⟨values, rfl, hu⟩)⟩

/-- The identifiers that a call brings to a store, if it is not a call on the store itself. A
composition brings what those of the source become, but for the captures that are inlined. -/
def Call.Brings : Call → Identifier → Prop
  | addVar v _, i => i = .var v
  | declare j, i | addOuter j _, i => i = j
  | compose source o, i =>
    o.wrap = false ∧ ∃ e ∈ source.content.identifiers.toList, o.inlines e = false ∧
      ∃ n : Nat, (source.content.identifiers.toList.map (·.1))[n]? = some e.1 ∧
        o.remap.resolve e.1 ⟨o.stamp, n⟩ = .ok i
  | _, _ => False

/-- The identifiers that it brings to a store without a call on the store. -/
def Action.Brings : Action → Identifier → Prop
  | call k => k.Brings
  | _ => fun _ => False

/-- What a splice adds to the identifiers, its composition brings. -/
theorem brings_of_splice {source : Circuit} {o : ComposeOptions} {p : Placement} {s : Splice}
    (hclosed : c.blocks = []) (hwrap : o.wrap = false) (h : c.splice source o p = .ok s)
    {u : Identifier × IdentifierKind} (hu : u ∈ s.identifiers.additions) :
    (Call.compose source o).Brings u.1 := by
  obtain ⟨images, hsettled⟩ := splice_settled h
  rw [IdentifierPlan.additions_of_make hclosed hsettled.plan] at hu
  obtain ⟨e, he, rfl⟩ := List.mem_map.1 hu
  obtain ⟨he, hinlines⟩ := List.mem_filter.1 he
  refine ⟨hwrap, e, he, by simpa using hinlines, ?_⟩
  exact IdentifierRemap.resolve_of_images hsettled.resolved (List.mem_map_of_mem he)

/-! ## Growth -/

/-- A property of stores that is kept when something is added, identifiers only if they are in
`I`. Quantum registers are left out: no call on a circuit brings them in, but for the one on its
store. -/
structure Growth (I : Identifier → Prop) (P : Content → Prop) : Prop where
  addBit : ∀ {k : BitKind} (bit : Bit k), (Content.addBit bit).Keeps P
  addClassical : ∀ r : ClassicalRegister, (Content.addRegister r).Keeps P
  addIdentifier : ∀ i kind, I i → (Content.addIdentifier i kind).Keeps P
  push : ∀ i, (Content.push i).Keeps P
  insertFront : ∀ front, (Content.insertFront front).Keeps P
  setPhase : ∀ phase, (Content.setPhase phase).Keeps P

namespace Growth

variable {I : Identifier → Prop} {P : Content → Prop}

/-- Read of a circuit, a property is one of its store. -/
abbrev OfStore (P : Content → Prop) (c : Circuit) : Prop := P c.content

/-- An edit of the store that keeps the property. -/
theorem within {α : Type} {e : Edit Content α} (h : e.Keeps P) :
    (Edit.within contentFocus e).Keeps (OfStore P) :=
  .within fun c u hc hu => h c.content u hc hu

/-- An edit of the scope does not touch the store where a block is open. -/
theorem of_inScope {e : Edit Circuit Unit} (hopen : ∀ c d, c.blocks ≠ [] → e.Leaves c d →
    c.InScopeOf d) (hclosed : ∀ c d, c.blocks = [] → P c.content → e.Leaves c d → P d.content) :
    e.Keeps (OfStore P) := by
  intro c d hc hd
  by_cases hblocks : c.blocks = []
  · exact hclosed c d hblocks hc hd
  · have hsame : d.content = c.content := (hopen c d hblocks hd).2.1
    show P d.content
    rwa [hsame]

theorem useIdentifier (i : Identifier) : (Circuit.useIdentifier i).Keeps (OfStore P) := by
  intro c d hc hd
  rcases useIdentifier_leaves hd with rfl | rfl <;> exact hc

theorem useInScope (u : ClassicalUse) (identifiers : List Identifier) :
    (Circuit.useInScope u identifiers).Keeps (OfStore P) := by
  refine Edit.Keeps.bind (fun c d hc hd => ?_) fun _ => .each fun i _ => useIdentifier i
  rcases useClassical_leaves hd with rfl | ⟨positions, rfl⟩
  · exact hc
  · show P (onTop _ c).content
    rwa [onTop_content]

/-- The head of a builder notes what it reads, in the open blocks. -/
theorem head (h : Head) : h.run.Keeps (OfStore P) := h.run_keeps useInScope

section Adding

variable (g : Growth I P)
include g

theorem declare {i : Identifier} (hi : I i) : (Circuit.declare i).Keeps (OfStore P) := by
  refine of_inScope (declare_inScopeOf i) fun c d hclosed hc hd => ?_
  unfold Edit.Leaves at hd
  rw [declare_of_closed hclosed] at hd
  exact within (g.addIdentifier i .declare hi) c d hc hd

theorem append (i : Instruction) : (Circuit.append i).Keeps (OfStore P) := by
  refine of_inScope (append_inScopeOf i) fun c d hclosed hc hd => ?_
  unfold Edit.Leaves at hd
  rw [append_of_closed hclosed] at hd
  exact within (g.push i) c d hc hd

theorem jump (j : Jump) : (Circuit.jump j).Keeps (OfStore P) := by
  intro c d hc hd
  by_cases hclosed : c.blocks = []
  · unfold Edit.Leaves at hd
    rw [jump_of_closed hclosed] at hd
    exact within (g.push _) c d hc hd
  · -- a jump that is made where a block is open, or refused there, is no matter of the store
    rcases jump_leaves_of_open hclosed hd with rfl | rfl
    · exact hc
    · show P (onTop _ c).content
      rwa [onTop_content]

theorem measureAll (stamp : Nat) : (Circuit.measureAll stamp).Keeps (OfStore P) := by
  intro c d hc hd
  obtain ⟨content, hcontent, rfl⟩ :=
    Sound.content_of_measureAll g.addClassical (fun i _ => g.push i) hc hd
  exact hcontent

theorem compose {source : Circuit} {o : ComposeOptions}
    (hI : ∀ i, (Call.compose source o).Brings i → I i) :
    (Circuit.compose source o).Keeps (OfStore P) := by
  refine of_inScope (fun c d => compose_inScopeOf) fun c d hclosed hc hd => ?_
  have hscope : c.inScope = false := by simp [inScope, hclosed]
  refine Edit.Keeps.ofExcept_bind (P := OfStore P) (r := c.place source o) (fun p _ => ?_)
    c d hc hd
  by_cases hwrap : o.wrap = true
  · rw [if_pos hwrap]
    refine (Edit.Keeps.ofExcept _).bind fun op => ?_
    have hclbits := Content.addClbitsOf_keeps g.addBit g.addClassical source.content
    refine ((within hclbits).onlyIf _).bind fun _ => ?_
    split
    · exact within (g.insertFront _)
    · exact g.append _
  · rw [if_neg hwrap]
    refine .ofExcept_bind fun s hs => ?_
    rw [hscope]
    refine within (Content.addSplice_keeps g.addBit g.addClassical (fun u hu => ?_)
      (Content.addRecords_keeps (g.insertFront _) (fun i _ => g.push i) _) g.setPhase)
    exact g.addIdentifier _ _ (hI _ (brings_of_splice hclosed (by simpa using hwrap) hs hu))

/-- A call on a circuit that is not one on its store only adds to the store. -/
theorem call {k : Call} (hk : ∀ s, k ≠ .store s) (hI : ∀ i, k.Brings i → I i) :
    k.run.Keeps (OfStore P) := by
  by_cases hscope : k.OnScope
  · have hfirst : k.first.Keeps (OfStore P) := by
      cases k with
      | addVar v initial => exact g.declare (hI _ rfl)
      | declare i => exact g.declare (hI _ rfl)
      | jump j => exact g.jump j
      | _ => exact .pure ()
    exact Call.keeps_of_onScope hscope hfirst fun r _ => g.append r
  cases k with
  | store s => exact absurd rfl (hk s)
  | rename name => exact .modify fun c hc => hc
  | addOuter i kind =>
    refine .read fun _ => (Edit.Keeps.ofExcept _).bind fun _ => ?_
    exact within (g.addIdentifier i kind (hI _ rfl))
  | addLoose kind count stamp =>
    exact (Edit.Keeps.mapM fun _ _ => within (g.addBit _)).bind fun _ => .pure ()
  | measureAll stamp => exact g.measureAll stamp
  | compose source o => exact g.compose hI
  | append _ | appendHandles _ | appendOperation _ _ _ | barrier _ | barrierAll | delay _ _
  | write _ _ | addVar _ _ | declare _ | jump _ => exact absurd trivial hscope

/-- The end of a builder adds a record, or leaves something to wait in a block. -/
theorem close (k : Closing) : k.run.Keeps (OfStore P) := by
  intro c d hc hd
  rcases hd with ⟨_, hd⟩ | ⟨e, hd⟩
  · rcases Closing.run_eq_ok hd with ⟨item, -, -, rfl⟩ | ⟨-, flow, -, hadd⟩
    · show P (onTop _ c).content
      rwa [onTop_content]
    · exact g.append _ c d hc (.of_ok hadd)
  · rwa [Closing.eq_of_refused hd]

/-- All that is done to a circuit without an edit of its store only adds to the store. -/
theorem act {k : Action} (hk : k.onStore = false) (hI : ∀ i, k.Brings i → I i) :
    k.run.Keeps (OfStore P) := by
  cases k with
  | call k =>
    refine g.call (fun s hs => ?_) hI
    rw [hs] at hk
    cases hk
  | assignValues values | assignNamed values => cases hk
  | head h => exact (head h).bind fun _ => .pure ()
  | close k => exact g.close k

end Adding

end Growth

end Circuit

end QuantumCircuit
