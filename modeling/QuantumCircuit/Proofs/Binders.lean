import QuantumCircuit.Proofs.ParameterNames

/-!
# Loops that bind what an assignment brings in

An assignment puts its replacements in as they are. A parameter of a replacement that comes to
stand in the body of a loop over that parameter is bound by the loop from then on, and so it is not
free where the assignment was made.

After an assignment the free parameters are those that were free and are no keys, and those of each
replacement whose key was free outside the loops over them (`Circuit.Reachable.parameters_assign`).
Where a circuit has no loop over a parameter, it does not matter where the key was free.
-/

namespace QuantumCircuit

/-! ## Free outside the loops over a parameter -/

mutual

/-- That `q` is free in the operation, at the slot, at a place outside all loops over `p`. -/
inductive Operation.FreeOutside (p q : Parameter) : Operation → Nat → Prop
  | param {op : Operation} {slot : Nat} {e : Angle} :
      op.params[slot]? = some e → q ∈ e.symbols → Operation.FreeOutside p q op slot
  | body {flow : ControlFlow} {slot : Nat} {b : Circuit} :
      flow.bodies[slot]? = some b → flow.loopParameter? ≠ some q → flow.loopParameter? ≠ some p →
      Content.FreeOutside p q b.content → Operation.FreeOutside p q (.control flow) slot

/-- That `q` is free in the content at a place outside all loops over `p`. -/
inductive Content.FreeOutside (p q : Parameter) : Content → Prop
  | phase {c : Content} : q ∈ c.phase.symbols → Content.FreeOutside p q c
  | record {c : Content} {k slot : Nat} {i : Instruction} :
      c.records[k]? = some i → Operation.FreeOutside p q i.operation slot →
      Content.FreeOutside p q c

end

mutual

/-- That the operation is a loop over `p`, or has one in a body. -/
inductive Operation.LoopsOver (p : Parameter) : Operation → Prop
  | here {flow : ControlFlow} : flow.loopParameter? = some p → Operation.LoopsOver p (.control flow)
  | body {flow : ControlFlow} {b : Circuit} :
      b ∈ flow.bodies → Content.LoopsOver p b.content → Operation.LoopsOver p (.control flow)

/-- That some record is a loop over `p`, or has one in a body. -/
inductive Content.LoopsOver (p : Parameter) : Content → Prop
  | record {c : Content} {i : Instruction} :
      i ∈ c.records → Operation.LoopsOver p i.operation → Content.LoopsOver p c

end

section Places

variable {p q : Parameter} {s : Binding Float} {flow : ControlFlow}

mutual

theorem Operation.FreeOutside.free {op : Operation} {slot : Nat} :
    op.FreeOutside p q slot → op.FreeAt q slot
  | .param he hq => .param he hq
  | .body hb hq _ h => .body hb hq h.free

theorem Content.FreeOutside.free {c : Content} : c.FreeOutside p q → c.Free q
  | .phase hq => .phase hq
  | .record hk h => .record hk h.free

end

mutual

/-- A free parameter is outside the loops over itself, and outside loops that are not there. -/
theorem Operation.FreeAt.outside {op : Operation} {slot : Nat} (hp : p = q ∨ ¬ op.LoopsOver p) :
    op.FreeAt q slot → op.FreeOutside p q slot
  | .param he hq => .param he hq
  | .body hb hq h =>
    .body hb hq (hp.elim (fun heq => heq ▸ hq) fun hnone hover => hnone (.here hover))
      (h.outside (hp.imp_right fun hnone hover =>
        hnone (.body (List.mem_of_getElem? hb) hover)))

theorem Content.Free.outside {c : Content} (hp : p = q ∨ ¬ c.LoopsOver p) :
    c.Free q → c.FreeOutside p q
  | .phase hq => .phase hq
  | .record hk h => .record hk (h.outside (hp.imp_right fun hnone hover =>
      hnone (.record (List.mem_of_getElem? hk) hover)))

end

/-- A loop hands a replacement on to its body unless it binds the key. -/
theorem ParamExpr.image_innerBinding (hq : flow.loopParameter? ≠ some q) :
    ParamExpr.image (flow.innerBinding s) q = ParamExpr.image s q := by
  unfold ControlFlow.innerBinding
  cases hloop : flow.loopParameter? with
  | none => rfl
  | some r =>
    have hne : r ≠ q := fun heq => hq (hloop.trans (congrArg some heq))
    show (Assoc.find? q (Assoc.erase r s)).getD _ = _
    rw [Assoc.find?_erase, if_neg hne]
    rfl

/-- The key that it binds stands for itself there. -/
theorem ParamExpr.image_innerBinding_bound (hq : flow.loopParameter? = some q) :
    ParamExpr.image (flow.innerBinding s) q = .sym q := by
  refine Content.image_of_not_key fun hkey => ?_
  exact (Content.mem_keys_innerBinding hkey).2 hq

mutual

/-- What is free after an assignment comes from a place outside the loops over it. -/
theorem Operation.FreeAfter.outside {s : Binding Float} {op : Operation} {slot : Nat} :
    op.FreeAfter p s slot → ∃ q, op.FreeOutside p q slot ∧ p ∈ (ParamExpr.image s q).symbols
  | .param he hq hp => ⟨_, .param he hq, hp⟩
  | @Operation.FreeAfter.body _ _ flow _ _ hb hne h => by
    obtain ⟨q, hq, hp⟩ := h.outside
    by_cases hbound : flow.loopParameter? = some q
    · rw [ParamExpr.image_innerBinding_bound hbound] at hp
      obtain rfl : p = q := List.mem_singleton.1 hp
      exact absurd hbound hne
    · rw [ParamExpr.image_innerBinding hbound] at hp
      exact ⟨q, .body hb hbound hne hq, hp⟩

theorem Content.FreeAfter.outside {s : Binding Float} {c : Content} :
    c.FreeAfter p s → ∃ q, c.FreeOutside p q ∧ p ∈ (ParamExpr.image s q).symbols
  | .phase hq hp => ⟨_, .phase hq, hp⟩
  | .record hk h => by
    obtain ⟨q, hq, hp⟩ := h.outside
    exact ⟨q, .record hk hq, hp⟩

end

mutual

/-- And whatever a place outside the loops over it gives is free. -/
theorem Operation.FreeOutside.after {s : Binding Float} {op : Operation} {slot : Nat}
    (hp : p ∈ (ParamExpr.image s q).symbols) : op.FreeOutside p q slot → op.FreeAfter p s slot
  | .param he hq => .param he hq hp
  | .body hb hq hne h => .body hb hne (h.after (by rwa [ParamExpr.image_innerBinding hq]))

theorem Content.FreeOutside.after {s : Binding Float} {c : Content}
    (hp : p ∈ (ParamExpr.image s q).symbols) : c.FreeOutside p q → c.FreeAfter p s
  | .phase hq => .phase hq hp
  | .record hk h => .record hk (h.after hp)

end

end Places

/-! ## Free parameters after an assignment -/

namespace Content

variable {c d : Content} {s : Binding Float} {strict : Bool} {p : Parameter}

theorem Everywhere.mem_parameters_iff (h : Everywhere Indexed c) : p ∈ c.parameters ↔ c.Free p := by
  rw [free_iff_occursAt, show c.parameters = c.table.sorted from rfl,
    h.here.wellFormed.mem_sorted_iff, h.here.wellFormed.contains_iff]
  exact exists_congr fun site => h.notes_iff_occursAt

theorem assign_of_assignParameters (h : assignParameters s strict c = .ok () d) :
    c.assign s = .ok d := by
  have hd := Edit.update_eq_ok_iff.1 h
  split at hd
  · cases hd
  · exact hd

/-- Free after an assignment is what stands for a parameter at a place outside the loops over it. -/
theorem Everywhere.free_assign_iff (h : Everywhere Indexed c) (hd : c.assign s = .ok d) :
    d.Free p ↔ ∃ q, c.FreeOutside p q ∧ p ∈ (ParamExpr.image s q).symbols := by
  have hafter : d.Free p ↔ c.FreeAfter p s := by
    rw [free_iff_occursAt, freeAfter_iff_occursAfter]
    exact exists_congr fun site => h.occursAt_assign_iff hd site
  rw [hafter]
  constructor
  · exact FreeAfter.outside
  · rintro ⟨q, hq, hp⟩
    exact hq.after hp

/-- That `p` is free after substitution for the keys wherever they are free. -/
def FreeOnceReplaced (c : Content) (s : Binding Float) (p : Parameter) : Prop :=
  p ∈ c.parameters ∧ p ∉ Assoc.keys s ∨
    ∃ q e, Assoc.find? q s = some e ∧ p ∈ e.symbols ∧ q ∈ c.parameters

end Content

/-- After an assignment to a reached circuit: the free parameters are those that were free and are
no keys, and those parameters of a replacement whose key was free at a place outside all loops over
them. For a parameter that no loop of the circuit is over, the place does not matter. -/
theorem Circuit.Reachable.parameters_assign {A : Policy} {c : Circuit} (hc : c.Reachable A)
    {s : Binding Float} {strict : Bool} {d : Content}
    (h : Content.assignParameters s strict c.content = .ok () d) :
    (∀ p, p ∈ d.parameters ↔ p ∈ c.parameters ∧ p ∉ Assoc.keys s ∨
      ∃ q e, Assoc.find? q s = some e ∧ p ∈ e.symbols ∧ c.content.FreeOutside p q) ∧
    ∀ p, ¬ c.content.LoopsOver p → (p ∈ d.parameters ↔ c.content.FreeOnceReplaced s p) := by
  have hassign := Content.assign_of_assignParameters h
  have heverywhere := hc.built.everywhere_any Content.indexed_invariant
  have hleft : Content.Everywhere Content.Indexed d :=
    heverywhere.assign hassign fun _ _ _ _ hindexed hd => hindexed.assign hd
  have hfree : ∀ p, p ∈ c.parameters ↔ c.content.Free p := fun p => heverywhere.mem_parameters_iff
  have hexact : ∀ p, p ∈ d.parameters ↔ p ∈ c.parameters ∧ p ∉ Assoc.keys s ∨
      ∃ q e, Assoc.find? q s = some e ∧ p ∈ e.symbols ∧ c.content.FreeOutside p q := by
    intro p
    rw [hleft.mem_parameters_iff, heverywhere.free_assign_iff hassign, hfree]
    simp only [Content.mem_symbols_image_iff]
    constructor
    · rintro ⟨q, hq, ⟨rfl, hkey⟩ | ⟨e, hfound, hp⟩⟩
      · exact .inl ⟨hq.free, hkey⟩
      · exact .inr ⟨q, e, hfound, hp, hq⟩
    · rintro (⟨hp, hkey⟩ | ⟨q, e, hfound, hp, hq⟩)
      · exact ⟨p, hp.outside (.inl rfl), .inl ⟨rfl, hkey⟩⟩
      · exact ⟨q, hq, .inr ⟨e, hfound, hp⟩⟩
  refine ⟨hexact, fun p hnone => (hexact p).trans (or_congr_right ?_)⟩
  refine exists_congr fun q => exists_congr fun e => ?_
  refine and_congr_right fun _ => and_congr_right fun _ => ?_
  rw [show q ∈ c.content.parameters ↔ c.content.Free q from hfree q]
  exact ⟨Content.FreeOutside.free, Content.Free.outside (.inr hnone)⟩

/-! ### A replacement that a loop binds -/

/-- That the operation names all that is free in its definition, if it has one. -/
def Operation.NamesFree (op : Operation) : Prop :=
  ∀ o b, op = .custom o → o.definition = some b →
    ∀ p, b.content.Free p → ∃ e ∈ o.params, p ∈ e.symbols

namespace Circuit

/-- The parameter that the loop is over. -/
def loopX : Parameter := ⟨"x", ⟨0, 0⟩, none⟩

/-- The parameter that is free in the loop. -/
def freeY : Parameter := ⟨"y", ⟨0, 1⟩, none⟩

/-- A parameter that does not occur. -/
def otherZ : Parameter := ⟨"z", ⟨0, 2⟩, none⟩

theorem loopOverX_reachable : loopOverX.Reachable .any := by
  refine .ofStore "c" (Content.Built.empty.after_of_circuits fun e he => ?_)
  rw [List.mem_singleton.1 he]
  exact .empty_after rfl

theorem freeOutside_loopOverX : loopOverX.content.FreeOutside otherZ freeY := by
  have hgate : Operation.FreeOutside otherZ freeY (.gate (.rotation .rz (.sym freeY))) 0 :=
    .param rfl (List.mem_singleton.2 rfl)
  refine @Content.FreeOutside.record _ _ _ 0 0 _ rfl (.body rfl (by decide) (by decide) ?_)
  exact .record (k := 1) (i := .make (.gate (.rotation .rz (.sym freeY))) [0] []) rfl hgate

/-- In a loop over `x` the parameter `y` is replaced by `x + z`. Then `z` is free and `x` is not. -/
theorem parameters_assign_loop : loopOverX.Reachable .any ∧
    ∃ d, Content.assignParameters [(freeY, .add (.sym loopX) (.sym otherZ))] true
        loopOverX.content = .ok () d ∧ otherZ ∈ d.parameters ∧ loopX ∉ d.parameters := by
  obtain ⟨d, hd⟩ : ∃ d, Content.assignParameters [(freeY, .add (.sym loopX) (.sym otherZ))] true
      loopOverX.content = .ok () d := ⟨_, rfl⟩
  obtain ⟨hexact, -⟩ := loopOverX_reachable.parameters_assign hd
  refine ⟨loopOverX_reachable, d, hd, (hexact otherZ).2 (.inr ⟨freeY, _, rfl, ?_, ?_⟩), ?_⟩
  · exact List.mem_cons_of_mem _ (List.mem_singleton.2 rfl)
  · exact freeOutside_loopOverX
  · cases hd
    decide +kernel

/-- What a replacement brings in is not free wherever its key was. -/
theorem parameters_assign_may_bind : ¬ ∀ (c : Circuit) (s : Binding Float) strict d,
    c.Reachable .any →
      Content.Everywhere (fun e => ∀ i ∈ e.records, i.operation.NamesFree) c.content →
      Content.assignParameters s strict c.content = .ok () d →
      ∀ p, p ∈ d.parameters ↔ c.content.FreeOnceReplaced s p := by
  intro hclaim
  have hnames : Content.Everywhere (fun e => ∀ i ∈ e.records, i.operation.NamesFree)
      loopOverX.content := by
    -- there are two gates in the body of the one loop
    have hplain : ∀ i ∈ loopOverX.content.records, ∀ o, i.operation ≠ .custom o := by
      intro i hi o heq
      rw [List.mem_singleton.1 hi] at heq
      cases heq
    refine .intro (fun i hi o b heq => absurd heq (hplain i hi o)) fun body hbody => ?_
    have hgates : ∀ i ∈ body.content.records, ∃ g, i.operation = .gate g := by
      rw [List.mem_singleton.1 hbody]
      intro i hi
      rcases List.mem_cons.1 hi with rfl | hi
      · exact ⟨_, rfl⟩
      · rw [List.mem_singleton.1 hi]
        exact ⟨_, rfl⟩
    refine .intro (fun i hi o b heq => ?_) fun inner hinner => ?_
    · obtain ⟨g, hg⟩ := hgates i hi
      rw [hg] at heq
      cases heq
    · obtain ⟨i, hi, hinner⟩ := Content.mem_circuits_iff.1 hinner
      obtain ⟨g, hg⟩ := hgates i hi
      rw [hg] at hinner
      exact absurd hinner List.not_mem_nil
  obtain ⟨d, hd⟩ : ∃ d, Content.assignParameters [(freeY, .sym loopX)] true
      loopOverX.content = .ok () d := ⟨_, rfl⟩
  have hfree : loopX ∈ d.parameters := by
    refine (hclaim loopOverX _ true d loopOverX_reachable hnames hd loopX).2 ?_
    exact .inr ⟨freeY, _, rfl, List.mem_singleton.2 rfl, by decide +kernel⟩
  have hbound : loopX ∉ d.parameters := by
    cases hd
    decide +kernel
  exact hbound hfree

end Circuit

end QuantumCircuit
