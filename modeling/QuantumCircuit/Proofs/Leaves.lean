import QuantumCircuit.Proofs.Bodies
import QuantumCircuit.Proofs.Fitting

/-!
# What is named after leaves are replaced

Replacing leaves may change a state on the way, and what may be named may grow with
the state. `Carries I T Q e` says of an edit that, started with `I`, it ends with
`I`, loses nothing that `T` allowed and answers with something that is good in what
`T` allows at the end.

If replacing one leaf carries, and gives a leaf of the same sort that is allowed
(`ReplacesLeaves`), so it goes for expressions, stores, durations, conditions and
switch targets, and for all that control flow names itself
(`ControlFlow.mapLeaves_carries`).
-/

namespace QuantumCircuit

namespace Surroundings

/-- All that is allowed in the one is allowed in the other. -/
structure Within (S U : Surroundings) : Prop where
  identifiers : ∀ i, S.identifiers i → U.identifiers i
  clbits : ∀ bit, S.clbits bit → U.clbits bit
  registers : ∀ r, S.registers r → U.registers r

theorem Within.refl (S : Surroundings) : S.Within S := ⟨fun _ h => h, fun _ h => h, fun _ h => h⟩

theorem Within.trans {S U V : Surroundings} (hSU : S.Within U) (hUV : U.Within V) : S.Within V :=
  ⟨fun i h => hUV.identifiers i (hSU.identifiers i h),
    fun bit h => hUV.clbits bit (hSU.clbits bit h),
    fun r h => hUV.registers r (hSU.registers r h)⟩

/-- Whether the node itself, not what is under it, is allowed. -/
def Allows (S : Surroundings) : Expr → Prop
  | .var v => S.identifiers (.var v)
  | .stretch s => S.identifiers (.stretch s)
  | .clbit bit => S.clbits bit
  | .register r => S.registers r
  | _ => True

end Surroundings

theorem Surroundings.Cover.within {S U : Surroundings} {identifiers : List Identifier}
    {use : ClassicalUse} (h : S.Cover identifiers use) (hSU : S.Within U) :
    U.Cover identifiers use :=
  ⟨fun i hi => hSU.identifiers i (h.identifiers i hi),
    fun bit hbit => hSU.clbits bit (h.clbits bit hbit),
    fun r hr => hSU.registers r (h.registers r hr)⟩

/-- The expression names nothing else. -/
abbrev Expr.ReadsOnly (S : Surroundings) (e : Expr) : Prop :=
  S.Cover e.identifiers (.ofExpr e)

namespace Expr

variable {e : Expr}

theorem mem_identifiers_iff {i : Identifier} :
    i ∈ e.identifiers ↔ ∃ n ∈ e.nodes, n.ownIdentifier? = some i := by
  unfold identifiers Distinct.ofList
  simp [Distinct.mem_union]

theorem readsOnly_iff {S : Surroundings} : e.ReadsOnly S ↔ ∀ n ∈ e.nodes, S.Allows n := by
  have hclbits : ∀ bit, bit ∈ e.clbits ↔ ∃ n ∈ e.nodes, n.ownClbit? = some bit := fun bit => by
    simp [clbits]
  have hregisters : ∀ r, r ∈ e.registers ↔ ∃ n ∈ e.nodes, n.ownRegister? = some r := fun r => by
    simp [registers]
  constructor
  · rintro ⟨hi, hb, hr⟩ n hn
    cases n with
    | var v => exact hi _ (mem_identifiers_iff.2 ⟨_, hn, rfl⟩)
    | stretch s => exact hi _ (mem_identifiers_iff.2 ⟨_, hn, rfl⟩)
    | clbit bit => exact hb _ ((hclbits _).2 ⟨_, hn, rfl⟩)
    | register r => exact hr _ ((hregisters _).2 ⟨_, hn, rfl⟩)
    | value v t | unary op e t | binary op l r t | cast e t i | index e i t => trivial
  · intro h
    refine ⟨fun i hi => ?_, fun bit hbit => ?_, fun r hr => ?_⟩
    · obtain ⟨n, hn, heq⟩ := mem_identifiers_iff.1 hi
      cases n <;> cases heq <;> exact h _ hn
    · obtain ⟨n, hn, heq⟩ := (hclbits bit).1 hbit
      cases n <;> cases heq
      exact h _ hn
    · obtain ⟨n, hn, heq⟩ := (hregisters r).1 hr
      cases n <;> cases heq
      exact h _ hn

end Expr

/-! ## Edits that carry what is allowed -/

section Carrying

variable {σ α β : Type} {I : σ → Prop} {T : σ → Surroundings}

/-- Whenever the edit answers, from a state with `I`: the state it leaves has `I`, what
was allowed is allowed still, and the answer is good in what is allowed then. -/
def Carries (I : σ → Prop) (T : σ → Surroundings) (Q : α → Surroundings → Prop)
    (e : Edit σ α) : Prop :=
  ∀ s a s', I s → e s = .ok a s' → I s' ∧ (T s).Within (T s') ∧ Q a (T s')

theorem Carries.answer {Q : α → Surroundings → Prop} {a : α} (h : ∀ s, Q a (T s)) :
    Carries I T Q (Pure.pure a : Edit σ α) := by
  intro s b s' hs heq
  cases heq
  exact ⟨hs, .refl _, h s⟩

theorem Carries.pure {Q : α → Surroundings → Prop} {a : α} (h : ∀ U, Q a U) :
    Carries I T Q (Pure.pure a : Edit σ α) := .answer fun s => h (T s)

theorem Carries.bind {Q : α → Surroundings → Prop} {R : β → Surroundings → Prop}
    {e : Edit σ α} {k : α → Edit σ β} (he : Carries I T Q e)
    (hQ : ∀ a U V, U.Within V → Q a U → Q a V)
    (hk : ∀ a, Carries I T (fun b U => Q a U → R b U) (k a)) : Carries I T R (e >>= k) := by
  intro s b s' hs heq
  obtain ⟨a, u, ha, hb⟩ := Edit.bind_eq_ok_iff.1 heq
  obtain ⟨hu, hsu, hQa⟩ := he s a u hs ha
  obtain ⟨hs', hus', hR⟩ := hk a u b s' hu hb
  exact ⟨hs', hsu.trans hus', hR (hQ a _ _ hus' hQa)⟩

theorem Carries.ofExcept_bind {R : β → Surroundings → Prop} {r : Except CircuitError α}
    {k : α → Edit σ β} (hk : ∀ a, r = .ok a → Carries I T R (k a)) :
    Carries I T R (Edit.ofExcept r >>= k) := by
  intro s b s' hs heq
  obtain ⟨a, hr, hb⟩ := Edit.ofExcept_bind_eq_ok_iff.1 heq
  exact hk a hr s b s' hs hb

/-- Replacing a leaf carries, if it is no identifier outside `S`; an identifier gives
an identifier, a clbit a clbit and a register a register. -/
structure ReplacesLeaves (I : σ → Prop) (S : Identifier → Prop) (T : σ → Surroundings)
    (f : Expr → Edit σ (Option Expr)) : Prop where
  identifier : ∀ i, S i → Carries I T (fun o U => ∃ j, U.identifiers j ∧
    o.getD (.ofIdentifier i) = .ofIdentifier j) (f (.ofIdentifier i))
  clbit : ∀ bit, Carries I T (fun o U => ∃ bit', U.clbits bit' ∧ o = some (.clbit bit'))
    (f (.clbit bit))
  register : ∀ r, Carries I T (fun o U => ∃ r', U.registers r' ∧ o = some (.register r'))
    (f (.register r))
  value : ∀ v t, Carries I T (fun o _ => o = none) (f (.value v t))

variable {S : Identifier → Prop} {f : Expr → Edit σ (Option Expr)}

theorem Expr.readsOnly_ofIdentifier {U : Surroundings} {i : Identifier} (h : U.identifiers i) :
    (Expr.ofIdentifier i).ReadsOnly U := by
  rw [Expr.readsOnly_iff]
  cases i with
  | var v | stretch s => exact fun n hn => List.mem_singleton.1 hn ▸ h

/-- The end of replacing leaves, where a leaf is reached. -/
theorem Carries.leaf {e : Expr} {Q : Option Expr → Surroundings → Prop}
    (h : Carries I T Q (f e)) (hQ : ∀ o U, Q o U → (o.getD e).ReadsOnly U) :
    Carries I T (fun e' U => e'.ReadsOnly U) (do return (← f e).getD e) := by
  intro s e' s' hs heq
  obtain ⟨o, u, ho, heq⟩ := Edit.bind_eq_ok_iff.1 heq
  cases heq
  obtain ⟨hs', hwithin, hq⟩ := h s o _ hs ho
  exact ⟨hs', hwithin, hQ o _ hq⟩

/-- Replacing the leaves of an expression. -/
theorem Expr.mapLeaves_carries (hf : ReplacesLeaves I S T f) {e : Expr}
    (he : ∀ i ∈ e.identifiers, S i) :
    Carries I T (fun e' U => e'.ReadsOnly U) (e.mapLeaves f) := by
  replace he : ∀ n ∈ e.nodes, ∀ i, n.ownIdentifier? = some i → S i := fun n hn i hi =>
    he i (mem_identifiers_iff.2 ⟨n, hn, hi⟩)
  -- a leaf is replaced by what `f` says; a compound reads what its parts read
  induction e with
  | var v =>
    refine (hf.identifier (.var v) (he _ List.mem_cons_self _ rfl)).leaf ?_
    rintro o U ⟨j, hj, heq⟩
    exact heq ▸ Expr.readsOnly_ofIdentifier hj
  | stretch s =>
    refine (hf.identifier (.stretch s) (he _ List.mem_cons_self _ rfl)).leaf ?_
    rintro o U ⟨j, hj, heq⟩
    exact heq ▸ Expr.readsOnly_ofIdentifier hj
  | clbit bit =>
    refine (hf.clbit bit).leaf ?_
    rintro o U ⟨bit', hbit, rfl⟩
    exact Expr.readsOnly_iff.2 fun n hn => List.mem_singleton.1 hn ▸ hbit
  | register r =>
    refine (hf.register r).leaf ?_
    rintro o U ⟨r', hr, rfl⟩
    exact Expr.readsOnly_iff.2 fun n hn => List.mem_singleton.1 hn ▸ hr
  | value v t =>
    refine (hf.value v t).leaf ?_
    rintro o U rfl
    exact Expr.readsOnly_iff.2 fun n hn => List.mem_singleton.1 hn ▸ trivial
  | unary op e t ih | cast e t i ih =>
    refine (ih fun n hn => he n (List.mem_cons_of_mem _ hn)).bind
      (fun _ _ _ hUV h => h.within hUV) fun e' => .pure fun U he' => ?_
    rw [Expr.readsOnly_iff] at he' ⊢
    exact List.forall_mem_cons.2 ⟨trivial, he'⟩
  | binary op l r t ihl ihr | index l r t ihl ihr =>
    have hl := ihl fun n hn => he n (List.mem_cons_of_mem _ (List.mem_append_left _ hn))
    have hr := ihr fun n hn => he n (List.mem_cons_of_mem _ (List.mem_append_right _ hn))
    refine hl.bind (fun _ _ _ hUV h => h.within hUV) fun l' => ?_
    refine hr.bind (fun _ _ _ hUV h => h.within hUV) fun r' => .pure fun U hr' hl' => ?_
    rw [Expr.readsOnly_iff] at hl' hr' ⊢
    exact List.forall_mem_cons.2 ⟨trivial, List.forall_mem_append.2 ⟨hl', hr'⟩⟩

/-! ## Stores, durations, conditions, targets -/

theorem Surroundings.cover_nil (U : Surroundings) : U.Cover [] .none :=
  ⟨fun _ h => absurd h List.not_mem_nil, fun _ h => absurd h List.not_mem_nil,
    fun _ h => absurd h List.not_mem_nil⟩

theorem Surroundings.cover_clbit {U : Surroundings} {bit : Clbit} (h : U.clbits bit) :
    U.Cover [] ⟨[bit], []⟩ :=
  ⟨U.cover_nil.identifiers, fun _ hb => List.mem_singleton.1 hb ▸ h, U.cover_nil.registers⟩

theorem Surroundings.cover_register {U : Surroundings} {r : ClassicalRegister}
    (h : U.registers r) : U.Cover [] ⟨[], [r]⟩ :=
  ⟨U.cover_nil.identifiers, U.cover_nil.clbits, fun _ hr => List.mem_singleton.1 hr ▸ h⟩

theorem Surroundings.Cover.append {U : Surroundings} {is js : List Identifier}
    {u v : ClassicalUse} (hu : U.Cover is u) (hv : U.Cover js v) :
    U.Cover (Distinct.union is js) (.append u v) where
  identifiers i hi := by
    rcases (Distinct.mem_union i is js).1 hi with hi | hi
    · exact hu.identifiers i hi
    · exact hv.identifiers i hi
  clbits := List.forall_mem_append.2 ⟨hu.clbits, hv.clbits⟩
  registers := List.forall_mem_append.2 ⟨hu.registers, hv.registers⟩

/-- Of a duration only the identifiers count. -/
theorem Duration.mapLeaves_carries (hf : ReplacesLeaves I S T f) {d : Duration}
    (hd : ∀ i ∈ d.identifiers, S i) :
    Carries I T (fun d' U => U.Cover d'.identifiers .none) (d.mapLeaves f) := by
  cases d with
  | dt steps => exact .pure fun U => U.cover_nil
  | expr e =>
    refine (Expr.mapLeaves_carries hf hd).bind (fun _ _ _ hUV h => h.within hUV) fun e' => ?_
    exact .pure fun U he' =>
      ⟨he'.identifiers, U.cover_nil.clbits, U.cover_nil.registers⟩

theorem Store.mapLeaves_carries (hf : ReplacesLeaves I S T f) {a : Store}
    (ha : ∀ i ∈ a.identifiers, S i) :
    Carries I T (fun a' U => U.Cover a'.identifiers
      (.append (.ofExpr a'.target) (.ofExpr a'.value))) (a.mapLeaves f) := by
  have htarget : ∀ i ∈ a.target.identifiers, S i := fun i hi =>
    ha i ((Distinct.mem_union i _ _).2 (.inl hi))
  have hvalue : ∀ i ∈ a.value.identifiers, S i := fun i hi =>
    ha i ((Distinct.mem_union i _ _).2 (.inr hi))
  refine (Expr.mapLeaves_carries hf htarget).bind (fun _ _ _ hUV h => h.within hUV) fun t => ?_
  refine (Expr.mapLeaves_carries hf hvalue).bind (fun _ _ _ hUV h => h.within hUV) fun v => ?_
  exact .pure fun U hv ht => ht.append hv

theorem Condition.mapLeaves_carries (hf : ReplacesLeaves I S T f) {c : Condition}
    (hc : ∀ i ∈ c.identifiers, S i) :
    Carries I T (fun c' U => U.Cover c'.identifiers c'.classicalUse) (c.mapLeaves f) := by
  cases c with
  | expr e =>
    refine (Expr.mapLeaves_carries hf hc).bind (fun _ _ _ hUV h => h.within hUV) fun e' => ?_
    exact .pure fun U he' => he'
  | clbit bit v =>
    intro s c' s' hs heq
    obtain ⟨o, u, ho, heq⟩ := Edit.bind_eq_ok_iff.1 heq
    obtain ⟨hu, hwithin, bit', hbit, rfl⟩ := hf.clbit bit s o u hs ho
    cases heq
    exact ⟨hu, hwithin, Surroundings.cover_clbit hbit⟩
  | register r v =>
    intro s c' s' hs heq
    obtain ⟨o, u, ho, heq⟩ := Edit.bind_eq_ok_iff.1 heq
    obtain ⟨hu, hwithin, r', hr, rfl⟩ := hf.register r s o u hs ho
    cases heq
    exact ⟨hu, hwithin, Surroundings.cover_register hr⟩

theorem SwitchTarget.mapLeaves_carries (hf : ReplacesLeaves I S T f) {t : SwitchTarget}
    (ht : ∀ i ∈ t.identifiers, S i) :
    Carries I T (fun t' U => U.Cover t'.identifiers t'.classicalUse) (t.mapLeaves f) := by
  cases t with
  | expr e =>
    refine (Expr.mapLeaves_carries hf ht).bind (fun _ _ _ hUV h => h.within hUV) fun e' => ?_
    exact .pure fun U he' => he'
  | clbit bit =>
    intro s c' s' hs heq
    obtain ⟨o, u, ho, heq⟩ := Edit.bind_eq_ok_iff.1 heq
    obtain ⟨hu, hwithin, bit', hbit, rfl⟩ := hf.clbit bit s o u hs ho
    cases heq
    exact ⟨hu, hwithin, Surroundings.cover_clbit hbit⟩
  | register r =>
    intro s c' s' hs heq
    obtain ⟨o, u, ho, heq⟩ := Edit.bind_eq_ok_iff.1 heq
    obtain ⟨hu, hwithin, r', hr, rfl⟩ := hf.register r s o u hs ho
    cases heq
    exact ⟨hu, hwithin, Surroundings.cover_register hr⟩

/-- Replacing the leaves of control flow: what it names itself is allowed. -/
theorem ControlFlow.mapLeaves_carries (hf : ReplacesLeaves I S T f) {flow : ControlFlow}
    (hflow : ∀ i ∈ flow.ownIdentifiers, S i) :
    Carries I T (fun flow' U => U.Cover flow'.ownIdentifiers flow'.classicalUse)
      (flow.mapLeaves f) := by
  cases flow with
  | ifElse c t e =>
    refine (Condition.mapLeaves_carries hf hflow).bind (fun _ _ _ hUV h => h.within hUV)
      fun c' => ?_
    exact .pure fun U hc' => hc'
  | whileLoop c b =>
    refine (Condition.mapLeaves_carries hf hflow).bind (fun _ _ _ hUV h => h.within hUV)
      fun c' => ?_
    exact .pure fun U hc' => hc'
  | switchCase t arms =>
    refine (SwitchTarget.mapLeaves_carries hf hflow).bind (fun _ _ _ hUV h => h.within hUV)
      fun t' => ?_
    exact .pure fun U ht' => ht'
  | box b d =>
    cases d with
    | none => exact .pure fun U => U.cover_nil
    | some d =>
      refine (Duration.mapLeaves_carries hf hflow).bind (fun _ _ _ hUV h => h.within hUV)
        fun d' => ?_
      exact .pure fun U hd' => hd'
  | forLoop i p b | jump j q c => exact .pure fun U => U.cover_nil

end Carrying

end QuantumCircuit
