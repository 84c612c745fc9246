import QuantumCircuit.Circuit.Scope
import QuantumCircuit.Proofs.Fitting

/-!
# Identifiers in nested scopes

The open blocks of a circuit are scopes, innermost first, around them the store. In a
well-scoped stack of blocks (`Stacked`) no name means two things, every capture is of
something declared further out and is a local or a capture of the next block too, and
whatever waits in a block for its loop to close keeps to these rules as well.

There the look-up of an identifier is what lexical scope says
(`Stacked.checkResolves_iff`), and noting a use adds the identifier to the captures of
all blocks inside the scope that declares it, and to no others (`Stacked.use`).
-/

namespace QuantumCircuit

/-! ## Tables and stores -/

namespace IdentifierTable

variable {t : IdentifierTable} {i j : Identifier} {kind : IdentifierKind}

/-- Every name comes once, with an identifier of that name. -/
structure Listed (t : IdentifierTable) : Prop where
  keys : t.names.Nodup
  named : ∀ e ∈ t.entries, e.2.1.name = e.1

theorem listed_empty : empty.Listed := ⟨.nil, fun _ he => absurd he List.not_mem_nil⟩

theorem Listed.insert (h : t.Listed) (hname : t.get? i.name = none) (kind : IdentifierKind) :
    (t.insert i kind).Listed := by
  have hmem : i.name ∉ t.names := not_mem_names_iff.1 hname
  refine ⟨?_, fun e he => ?_⟩
  · rw [names_insert hname, List.nodup_append]
    refine ⟨h.keys, by simp, fun a ha b hb => ?_⟩
    rw [List.mem_singleton] at hb
    exact fun heq => hmem (hb ▸ heq ▸ ha)
  · rw [entries_insert, Assoc.insert_of_not_mem hmem, List.mem_append, List.mem_singleton] at he
    rcases he with he | rfl
    · exact h.named e he
    · rfl

theorem Listed.names_toList (h : t.Listed) : t.toList.map (·.1.name) = t.names := by
  unfold toList names Assoc.keys
  rw [List.map_map]
  exact List.map_congr_left fun e he => h.named e he

/-- In a table two identifiers of one name are the same. -/
theorem eq_of_contains (hi : t.contains i) (hj : t.contains j) (hname : i.name = j.name) :
    i = j := by
  obtain ⟨_, hfound⟩ := contains_iff_find?.1 hi
  obtain ⟨_, hfound'⟩ := contains_iff_find?.1 hj
  rw [hname, hfound'] at hfound
  cases hfound
  rfl

theorem hasName_of_contains (h : t.contains i) : t.hasName i.name :=
  hasName_iff.2 (mem_names_of_contains h)

/-- The identifiers of a table are those it lists. -/
theorem Listed.contains_iff (h : t.Listed) : t.contains i ↔ i ∈ t.toList.map (·.1) := by
  constructor
  · intro hi
    obtain ⟨kind, hmem⟩ := mem_toList_of_contains hi
    exact List.mem_map_of_mem (f := (·.1)) hmem
  · intro hi
    obtain ⟨⟨j, kind⟩, hmem, rfl⟩ := List.mem_map.1 hi
    obtain ⟨⟨name, j', kind'⟩, hentry, heq⟩ := List.mem_map.1 hmem
    cases heq
    obtain rfl : j.name = name := h.named _ hentry
    exact contains_iff_find?.2 ⟨kind, Assoc.find?_of_mem h.keys hentry⟩

theorem hasName_insert_iff {name : String} (hnone : t.get? i.name = none) :
    (t.insert i kind).hasName name ↔ t.hasName name ∨ name = i.name := by
  rw [hasName_iff, hasName_iff, names_insert hnone, List.mem_append, List.mem_singleton]

/-- Turning all identifiers into captures brings no name in. -/
theorem Listed.asCaptures (h : t.Listed) :
    t.asCaptures.Listed ∧ ∀ name, t.asCaptures.hasName name → t.hasName name := by
  -- the new table is built from an empty one; the names still to come are not in it yet
  have hfold : ∀ (l : List (Identifier × IdentifierKind)) (out : IdentifierTable), out.Listed →
      (l.map (·.1.name)).Nodup → (∀ e ∈ l, ¬ out.hasName e.1.name) →
      (l.foldl (fun out e => out.insert e.1 .capture) out).Listed ∧
        ∀ name, (l.foldl (fun out e => out.insert e.1 .capture) out).hasName name →
          out.hasName name ∨ name ∈ l.map (·.1.name) := by
    intro l
    induction l with
    | nil => exact fun out hout _ _ => ⟨hout, fun name hname => .inl hname⟩
    | cons e rest ih =>
      intro out hout hnodup hfree
      obtain ⟨hfirst, hnodup⟩ := List.nodup_cons.1 hnodup
      obtain ⟨hnone, hfree⟩ := List.forall_mem_cons.1 hfree
      have hget : out.get? e.1.name = none :=
        not_mem_names_iff.2 fun hmem => hnone (hasName_iff.2 hmem)
      obtain ⟨hlisted, hnames⟩ := ih (out.insert e.1 .capture) (hout.insert hget .capture) hnodup
        fun e' he' hname => by
          rcases (hasName_insert_iff hget).1 hname with hname | hname
          · exact hfree e' he' hname
          · exact hfirst (List.mem_map.2 ⟨e', he', hname⟩)
      refine ⟨hlisted, fun name hname => ?_⟩
      rcases hnames name hname with hname | hname
      · rcases (hasName_insert_iff hget).1 hname with hname | rfl
        · exact .inl hname
        · exact .inr List.mem_cons_self
      · exact .inr (List.mem_cons_of_mem _ hname)
  obtain ⟨hlisted, hnames⟩ := hfold t.toList empty listed_empty
    (h.names_toList ▸ h.keys) fun e _ hname => by
      rw [hasName_iff] at hname
      exact absurd hname List.not_mem_nil
  refine ⟨hlisted, fun name hname => ?_⟩
  rcases hnames name hname with hname | hname
  · rw [hasName_iff] at hname
    exact absurd hname List.not_mem_nil
  · rwa [h.names_toList, ← hasName_iff] at hname

end IdentifierTable

namespace Content

/-- The identifiers are listed by their names, none of which is a register's. -/
structure NamesFree (c : Content) : Prop where
  listed : c.identifiers.Listed
  apart : ∀ name, c.identifiers.hasName name → c.clbits.register? name = none

namespace NamesFree

variable {c d : Content}

theorem congr (h : c.NamesFree) (hidentifiers : d.identifiers = c.identifiers)
    (hregisters : d.clbits.registers = c.clbits.registers) : d.NamesFree := by
  refine ⟨hidentifiers ▸ h.listed, fun name hname => ?_⟩
  rw [BitList.register?_eq_none_iff, hregisters, ← BitList.register?_eq_none_iff]
  exact h.apart name (hidentifiers ▸ hname)

theorem withBits {k : BitKind} {l : BitList k} (h : c.NamesFree)
    (hl : l.registers = ((bitFocus k).get c).registers) : ((bitFocus k).set l c).NamesFree := by
  cases k with
  | quantum => exact h.congr rfl rfl
  | classical => exact h.congr rfl hl

theorem addBit {k : BitKind} (bit : Bit k) : (Content.addBit bit).Keeps NamesFree :=
  .within fun _ _ hc hu => hc.withBits (BitList.registers_of_add hu)

theorem addRegister {k : BitKind} (r : Register k) : (Content.addRegister r).Keeps NamesFree := by
  cases k with
  | quantum => exact .within fun _ _ hc _ => hc.congr rfl rfl
  | classical =>
    refine .get_bind fun c hc d hd => ?_
    rcases Edit.leaves_bind_iff.1 hd with ⟨e, he⟩ | ⟨_, u, hu, hd⟩
    · exact (Edit.ofExcept_eq_error_iff.1 he).2 ▸ hc
    · obtain ⟨hname, rfl⟩ := Edit.ofExcept_eq_ok_iff.1 hu
      have hname : c.identifiers.hasName r.name = false := refuseIf_eq_ok_iff.1 hname
      obtain ⟨l, hl, rfl⟩ := Edit.leaves_within_iff.1 hd
      refine ⟨hc.listed, fun name hid => ?_⟩
      have hold := BitList.register?_eq_none_iff.1 (hc.apart name hid)
      refine BitList.register?_eq_none_iff.2 fun hmem => ?_
      rcases BitList.registers_of_addRegister hl with hsame | hmore
      · exact hold (hsame ▸ hmem)
      · replace hmem : name ∈ l.registers.map (·.name) := hmem
        rw [hmore, List.map_append, List.mem_append, List.map_singleton, List.mem_singleton] at hmem
        rcases hmem with hmem | rfl
        · exact hold hmem
        · exact Bool.false_ne_true (hname.symm.trans hid)

theorem addIdentifier (i : Identifier) (kind : IdentifierKind) :
    (Content.addIdentifier i kind).Keeps NamesFree := by
  intro c d hc hd
  rcases hd with ⟨_, hd⟩ | ⟨e, hd⟩
  · obtain ⟨hcheck, rfl⟩ := addIdentifier_eq_ok_iff.1 hd
    obtain ⟨hfree, htable⟩ := checkIdentifier_eq_ok_iff.1 hcheck
    have hnone := IdentifierTable.get?_eq_none_of_check htable
    refine ⟨hc.listed.insert hnone kind, fun name hname => ?_⟩
    rcases (IdentifierTable.hasName_insert_iff hnone).1 hname with hname | rfl
    · exact hc.apart name hname
    · simpa using hfree
  · rwa [(addIdentifier_eq_error_iff.1 hd).2]

end NamesFree

theorem namesFree_invariant : Invariant .any NamesFree where
  empty := ⟨IdentifierTable.listed_empty, fun _ _ => rfl⟩
  addBit := .addBit
  addRegister := .addRegister
  addIdentifier := .addIdentifier
  snoc c i hc _ := hc.congr rfl rfl
  front c front hc _ _ := hc.congr rfl rfl
  pop c i d hc hd := by
    obtain ⟨-, rfl⟩ := pop?_eq_some_iff.1 hd
    exact hc.congr rfl rfl
  clear c hc := hc.congr rfl rfl
  setPhase phase c d hc hd := by
    rcases setPhase_leaves hd with rfl | rfl <;> exact hc.congr rfl rfl
  setDuration t c hc := hc.congr rfl rfl
  listParameters c d hc hd := by
    obtain rfl := listParameters_leaves_iff.1 hd
    exact hc.congr rfl rfl
  copyEmpty c mode hc := by
    cases mode with
    | alike => exact hc.congr rfl rfl
    | captures =>
      obtain ⟨hlisted, hnames⟩ := hc.listed.asCaptures
      exact ⟨hlisted, fun name hname => hc.apart name (hnames name hname)⟩
    | drop => exact ⟨IdentifierTable.listed_empty, fun _ hname => absurd hname Bool.false_ne_true⟩
  assign c s d hc _ hd := by
    obtain ⟨-, hclbits, hidentifiers⟩ := assign_frame hd
    exact hc.congr hidentifiers (congrArg _ hclbits)

end Content

/-! ## What waits in a block -/

namespace BlockItem

/-- The blocks that wait in an item for the loop to close. -/
def blocks : BlockItem → List Block
  | record _ | jump _ => []
  | branch _ t f => t :: f.toList
  | dispatch _ arms => arms.map (·.block)

/-- The identifiers that the item needs by itself, those of its blocks left out. -/
def identifiers : BlockItem → List Identifier
  | record i => i.operation.identifiers
  | jump _ => []
  | branch condition _ _ => condition.identifiers
  | dispatch target _ => target.identifiers

end BlockItem

namespace Block

/-- The blocks that wait in a block, one level deep. -/
def waiting (b : Block) : List Block := b.items.flatMap (·.blocks)

/-- That `p` is the block, or waits in it at some depth. -/
inductive Inside : Block → Block → Prop
  | here (b : Block) : Inside b b
  | deeper {b t p : Block} : t ∈ b.waiting → Inside t p → Inside b p

theorem inside_iff {b p : Block} : b.Inside p ↔ p = b ∨ ∃ t ∈ b.waiting, t.Inside p := by
  constructor
  · rintro (_ | ⟨ht, hp⟩)
    · exact .inl rfl
    · exact .inr ⟨_, ht, hp⟩
  · rintro (rfl | ⟨t, ht, hp⟩)
    · exact .here p
    · exact .deeper ht hp

/-- The rules inside one block: what its records and the blocks in it need resolves in it. -/
structure Kept (root : Content) (b : Block) : Prop where
  locals : b.locals.Listed
  nodup : b.footprint.captures.Nodup
  registers : ∀ r ∈ b.footprint.registers, root.clbits.register? r.name ≠ none
  items : ∀ item ∈ b.items, ∀ i ∈ item.identifiers, b.resolves i
  waiting : ∀ t ∈ b.waiting, ∀ i ∈ t.footprint.captures, b.resolves i

/-- The rules in a block and at every depth in it, with no local under a name that is
taken around it. -/
def Settled (root : Content) (Taken : String → Prop) (b : Block) : Prop :=
  ∀ p, b.Inside p → p.Kept root ∧ ∀ name, p.locals.hasName name → ¬ Taken name

theorem resolves_iff {b : Block} {i : Identifier} :
    b.resolves i ↔ b.locals.contains i ∨ i ∈ b.footprint.captures := by
  simp [resolves]

theorem Settled.mono {root : Content} {S T : String → Prop} {b : Block} (h : b.Settled root T)
    (hST : ∀ name, S name → T name) : b.Settled root S :=
  fun p hp => ⟨(h p hp).1, fun name hname hs => (h p hp).2 name hname (hST name hs)⟩

end Block

/-! ## Stacks of blocks -/

section Stacks

variable {root : Content} {blocks outer : List Block} {b : Block} {i j : Identifier}

/-- That the store or one of the blocks declares the identifier. -/
def Declares (root : Content) (blocks : List Block) (i : Identifier) : Prop :=
  root.identifiers.contains i ∨ ∃ b ∈ blocks, b.locals.contains i

/-- That a register, an identifier of the store or a local of one of the blocks has the name. -/
def NameTaken (root : Content) (blocks : List Block) (name : String) : Prop :=
  root.clbits.register? name ≠ none ∨ root.identifiers.hasName name ∨
    ∃ b ∈ blocks, b.locals.hasName name

theorem declares_cons_iff :
    Declares root (b :: outer) i ↔ b.locals.contains i ∨ Declares root outer i := by
  simp [Declares, or_left_comm]

theorem nameTaken_cons_iff {name : String} :
    NameTaken root (b :: outer) name ↔ b.locals.hasName name ∨ NameTaken root outer name := by
  simp only [NameTaken, List.mem_cons, exists_eq_or_imp]
  tauto

theorem Declares.nameTaken (h : Declares root blocks i) : NameTaken root blocks i.name := by
  rcases h with h | ⟨b, hb, h⟩
  · exact .inr (.inl (IdentifierTable.hasName_of_contains h))
  · exact .inr (.inr ⟨b, hb, IdentifierTable.hasName_of_contains h⟩)

theorem Declares.of_tail (h : Declares root blocks.tail i) : Declares root blocks i :=
  h.imp id fun ⟨b, hb, hi⟩ => ⟨b, List.mem_of_mem_tail hb, hi⟩

/-- A block in its place: its captures are declared further out and pass through the
next block, and no local of it, or of a block in it, has a name that is taken there. -/
structure Block.Scoped (root : Content) (outer : List Block) (b : Block) : Prop where
  captured : ∀ i ∈ b.footprint.captures, Declares root outer i
  passed : ∀ next ∈ outer.head?, ∀ i ∈ b.footprint.captures, next.resolves i
  kept : b.Kept root
  free : ∀ name, b.locals.hasName name → ¬ NameTaken root outer name
  waiting : ∀ t ∈ b.waiting, t.Settled root (NameTaken root outer)
  /-- Nothing waits for a loop where none can be left. -/
  ban : b.ban ≠ none → ∀ item ∈ b.items, ∃ i, item = .record i

/-- Each block in its place among those around it. -/
def Stacked (root : Content) : List Block → Prop
  | [] => True
  | b :: outer => b.Scoped root outer ∧ Stacked root outer

namespace Block.Scoped

theorem settled (h : b.Scoped root outer) : b.Settled root (NameTaken root outer) := by
  intro p hp
  rcases inside_iff.1 hp with rfl | ⟨t, ht, hp⟩
  · exact ⟨h.kept, h.free⟩
  · exact h.waiting t ht p hp

/-- A local of the block is not declared around it. -/
theorem not_declares (h : b.Scoped root outer) (hi : b.locals.contains i) :
    ¬ Declares root outer i :=
  fun hd => h.free _ (IdentifierTable.hasName_of_contains hi) hd.nameTaken

/-- What is declared around a block resolves in it only as a capture. -/
theorem captures_of_resolves (h : b.Scoped root outer) (hi : b.resolves i)
    (hd : Declares root outer i) : i ∈ b.footprint.captures :=
  (resolves_iff.1 hi).resolve_left fun hlocal => h.not_declares hlocal hd

end Block.Scoped

namespace Stacked

/-- Two identifiers of one name that are declared are the same. -/
theorem eq_of_name_eq (h : Stacked root blocks) (hi : Declares root blocks i)
    (hj : Declares root blocks j) (hname : i.name = j.name) : i = j := by
  induction blocks with
  | nil =>
    have hroot : ∀ {i}, Declares root [] i → root.identifiers.contains i := by
      rintro i (h | ⟨b, hb, -⟩)
      · exact h
      · exact absurd hb List.not_mem_nil
    exact IdentifierTable.eq_of_contains (hroot hi) (hroot hj) hname
  | cons b outer ih =>
    obtain ⟨hb, houter⟩ := h
    rcases declares_cons_iff.1 hi with hi | hi <;> rcases declares_cons_iff.1 hj with hj | hj
    · exact IdentifierTable.eq_of_contains hi hj hname
    · refine absurd hj.nameTaken (hb.free _ ?_)
      exact hname ▸ IdentifierTable.hasName_of_contains hi
    · refine absurd hi.nameTaken (hb.free _ ?_)
      exact hname ▸ IdentifierTable.hasName_of_contains hj
    · exact ih houter hi hj

/-- An identifier is found exactly when an open scope declares it. -/
theorem checkResolves_iff (h : Stacked root blocks) :
    checkResolves root i blocks = .ok () ↔ Declares root blocks i := by
  induction blocks with
  | nil =>
    unfold checkResolves
    split <;> simp [Declares, *]
  | cons b outer ih =>
    obtain ⟨hb, houter⟩ := h
    unfold checkResolves
    split
    · rename_i hres
      simp only [true_iff]
      rcases Block.resolves_iff.1 hres with hlocal | hcaptured
      · exact declares_cons_iff.2 (.inl hlocal)
      · exact declares_cons_iff.2 (.inr (hb.captured i hcaptured))
    · rename_i hres
      have hlocal : ¬ b.locals.contains i := fun hlocal => hres (Block.resolves_iff.2 (.inl hlocal))
      rw [declares_cons_iff, or_iff_right hlocal]
      split
      · rename_i hname
        simp only [reduceCtorEq, false_iff]
        exact fun hd => hb.free _ hname hd.nameTaken
      · exact ih houter

end Stacked

end Stacks

end QuantumCircuit
