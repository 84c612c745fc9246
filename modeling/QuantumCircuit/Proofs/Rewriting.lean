import QuantumCircuit.Proofs.Standing

/-!
# Leaves replaced at every depth

A `Replacement` says what the leaves of expressions become: an identifier goes to one of its own
sort and type, a clbit to a clbit and a register to one of the same size. A rewritten expression
is the same tree over other leaves, with the type that every node had (`Expr.Rewritten`), and a
rewritten store can still be assigned to and is still well typed (`Store.Rewritten`). From there
it goes on to operations, and through the bodies of control flow to circuits
(`Circuit.Rewritten`).

Whatever replaces single leaves as the replacement says rewrites all that leaves stand in
(`ControlFlow.rewritten_of_mapLeaves`). So the bodies of the records that a composition moves are
rewritten at every depth, clbits and registers staying (`LeafMap.Body.rewritten`), and the records
themselves with clbits and registers of the destination
(`LeafMap.rewritten_of_operationAmong`).
-/

namespace QuantumCircuit

/-- What takes the place of leaves. -/
structure Replacement where
  image : Identifier → Identifier
  clbit : Clbit → Clbit → Prop
  register : ClassicalRegister → ClassicalRegister → Prop
  sort_image : ∀ i, (image i).sort = i.sort
  type_image : ∀ i, (image i).type = i.type
  size_eq : ∀ r r', register r r' → r'.size = r.size

/-! ## Expressions and what they stand in -/

/-- The same tree over other leaves. Operators, literals and the types that inner nodes store
stay. -/
inductive Expr.Relabelled (ρ : Replacement) : Expr → Expr → Prop
  | var {v w : Var} : ρ.image (.var v) = .var w → Relabelled ρ (.var v) (.var w)
  | stretch {s t : Stretch} :
      ρ.image (.stretch s) = .stretch t → Relabelled ρ (.stretch s) (.stretch t)
  | clbit {b b' : Clbit} : ρ.clbit b b' → Relabelled ρ (.clbit b) (.clbit b')
  | register {r r' : ClassicalRegister} :
      ρ.register r r' → Relabelled ρ (.register r) (.register r')
  | value {v : Value} {t : Ty} : Relabelled ρ (.value v t) (.value v t)
  | unary {op : UnaryOp} {e e' : Expr} {t : Ty} :
      Relabelled ρ e e' → Relabelled ρ (.unary op e t) (.unary op e' t)
  | binary {op : BinaryOp} {l l' r r' : Expr} {t : Ty} :
      Relabelled ρ l l' → Relabelled ρ r r' → Relabelled ρ (.binary op l r t) (.binary op l' r' t)
  | cast {e e' : Expr} {t : Ty} {implicit : Bool} :
      Relabelled ρ e e' → Relabelled ρ (.cast e t implicit) (.cast e' t implicit)
  | index {e e' i i' : Expr} {t : Ty} :
      Relabelled ρ e e' → Relabelled ρ i i' → Relabelled ρ (.index e i t) (.index e' i' t)

/-- The expression with its leaves replaced, and the type of every node, inner node or leaf. -/
structure Expr.Rewritten (ρ : Replacement) (e e' : Expr) : Prop where
  tree : e.Relabelled ρ e'
  types : e'.nodes.map Expr.type = e.nodes.map Expr.type

/-- Both sides with their leaves replaced. -/
structure Store.Rewritten (ρ : Replacement) (a a' : Store) : Prop where
  target : a.target.Rewritten ρ a'.target
  value : a.value.Rewritten ρ a'.value
  typed : a.target.type = a.value.type → a'.target.type = a'.value.type
  assignable : a.target.isLvalue = true → a'.target.isLvalue = true

/-- The duration with the leaves of its expression replaced. -/
inductive Duration.Rewritten (ρ : Replacement) : Duration → Duration → Prop
  | dt {steps : UInt64} : Rewritten ρ (.dt steps) (.dt steps)
  | expr {e e' : Expr} : e.Rewritten ρ e' → Rewritten ρ (.expr e) (.expr e')

/-- The condition with its leaves replaced. -/
inductive Condition.Rewritten (ρ : Replacement) : Condition → Condition → Prop
  | clbit {b b' : Clbit} {v : Bool} : ρ.clbit b b' → Rewritten ρ (.clbit b v) (.clbit b' v)
  | register {r r' : ClassicalRegister} {v : UInt64} :
      ρ.register r r' → Rewritten ρ (.register r v) (.register r' v)
  | expr {e e' : Expr} : e.Rewritten ρ e' → Rewritten ρ (.expr e) (.expr e')

/-- The switch target with its leaves replaced. -/
inductive SwitchTarget.Rewritten (ρ : Replacement) : SwitchTarget → SwitchTarget → Prop
  | clbit {b b' : Clbit} : ρ.clbit b b' → Rewritten ρ (.clbit b) (.clbit b')
  | register {r r' : ClassicalRegister} :
      ρ.register r r' → Rewritten ρ (.register r) (.register r')
  | expr {e e' : Expr} : e.Rewritten ρ e' → Rewritten ρ (.expr e) (.expr e')

/-! ## Operations and circuits -/

/-- The same case around a related body. -/
inductive SwitchArm.Rewritten (B : Circuit → Circuit → Prop) : SwitchArm → SwitchArm → Prop
  | intro {labels : List CaseLabel} {b b' : Circuit} : B b b' → Rewritten B ⟨labels, b⟩ ⟨labels, b'⟩

/-- The same control flow with the leaves of its own replaced, around related bodies. -/
inductive ControlFlow.Rewritten (ρ : Replacement) (B : Circuit → Circuit → Prop) :
    ControlFlow → ControlFlow → Prop
  | ifElse {c c' : Condition} {t t' : Circuit} {e e' : Option Circuit} :
      c.Rewritten ρ c' → B t t' → Option.Rel B e e' →
      Rewritten ρ B (.ifElse c t e) (.ifElse c' t' e')
  | whileLoop {c c' : Condition} {b b' : Circuit} :
      c.Rewritten ρ c' → B b b' → Rewritten ρ B (.whileLoop c b) (.whileLoop c' b')
  | forLoop {indices : LoopIndices} {parameter : Option Parameter} {b b' : Circuit} :
      B b b' → Rewritten ρ B (.forLoop indices parameter b) (.forLoop indices parameter b')
  | switchCase {t t' : SwitchTarget} {arms arms' : List SwitchArm} :
      t.Rewritten ρ t' → List.Forall₂ (SwitchArm.Rewritten B) arms arms' →
      Rewritten ρ B (.switchCase t arms) (.switchCase t' arms')
  | box {b b' : Circuit} {d d' : Option Duration} :
      B b b' → Option.Rel (Duration.Rewritten ρ) d d' → Rewritten ρ B (.box b d) (.box b' d')
  | jump {j : Jump} {qubits clbits : Nat} :
      Rewritten ρ B (.jump j qubits clbits) (.jump j qubits clbits)

/-- The same operation with its leaves replaced, around related bodies. Custom operations keep
their definitions. -/
inductive Operation.Rewritten (ρ : Replacement) (B : Circuit → Circuit → Prop) :
    Operation → Operation → Prop
  | gate {g : Gate} : Rewritten ρ B (.gate g) (.gate g)
  | custom {op : CustomOp} : Rewritten ρ B (.custom op) (.custom op)
  | measure : Rewritten ρ B .measure .measure
  | reset : Rewritten ρ B .reset .reset
  | barrier {width : Nat} : Rewritten ρ B (.barrier width) (.barrier width)
  | delay {d d' : Duration} : d.Rewritten ρ d' → Rewritten ρ B (.delay d) (.delay d')
  | store {a a' : Store} : a.Rewritten ρ a' → Rewritten ρ B (.store a) (.store a')
  | control {flow flow' : ControlFlow} :
      flow.Rewritten ρ B flow' → Rewritten ρ B (.control flow) (.control flow')

/-- The same record on related operands. -/
inductive Instruction.Rewritten (ρ : Replacement) (B : Circuit → Circuit → Prop)
    (Q C : Nat → Nat → Prop) : Instruction → Instruction → Prop
  | intro {op op' : Operation} {qubits qubits' clbits clbits' : List Nat} {label : Option String} :
      op.Rewritten ρ B op' → List.Forall₂ Q qubits qubits' → List.Forall₂ C clbits clbits' →
      Rewritten ρ B Q C ⟨op, qubits, clbits, label⟩ ⟨op', qubits', clbits', label⟩

theorem Instruction.Rewritten.of_fields {ρ : Replacement} {B : Circuit → Circuit → Prop}
    {Q C : Nat → Nat → Prop} {i i' : Instruction}
    (hoperation : i.operation.Rewritten ρ B i'.operation)
    (hqubits : List.Forall₂ Q i.qubits i'.qubits) (hclbits : List.Forall₂ C i.clbits i'.clbits)
    (hlabel : i'.label = i.label) : i.Rewritten ρ B Q C i' := by
  cases i
  cases i'
  cases hlabel
  exact .intro hoperation hqubits hclbits

/-- The circuit with its leaves replaced at every depth, and its list of identifiers with them.
The kinds in which identifiers came in, the bits, the registers and the operands stay. -/
inductive Circuit.Rewritten (ρ : Replacement) : Circuit → Circuit → Prop
  | intro {b b' : Circuit} : b'.name = b.name → b'.content.qubits = b.content.qubits →
      b'.content.clbits = b.content.clbits → b'.content.phase = b.content.phase →
      b'.content.identifiers.toList =
        b.content.identifiers.toList.map (fun e => (ρ.image e.1, e.2)) →
      List.Forall₂ (Instruction.Rewritten ρ (Circuit.Rewritten ρ) Eq Eq) b.content.records
        b'.content.records → Circuit.Rewritten ρ b b'

/-! ## Types and assignability -/

section

variable {ρ : Replacement} {e e' : Expr}

theorem Expr.Relabelled.type_eq (h : e.Relabelled ρ e') : e'.type = e.type := by
  cases h with
  | @var v w h =>
    have htype := ρ.type_image (.var v)
    rw [h] at htype
    exact htype
  | register h => exact congrArg (fun size => Ty.uint (UInt32.ofNat size)) (ρ.size_eq _ _ h)
  | stretch | clbit | value | unary | binary | cast | index => rfl

/-- A leaf has the type of the leaf whose place it takes, so no node changes its type. -/
theorem Expr.Relabelled.types (h : e.Relabelled ρ e') :
    e'.nodes.map Expr.type = e.nodes.map Expr.type := by
  induction h with
  | var h => exact congrArg (fun t => [t]) (Relabelled.type_eq (.var h))
  | register h => exact congrArg (fun t => [t]) (Relabelled.type_eq (.register h))
  | stretch | clbit | value => rfl
  | unary _ ih | cast _ ih => exact congrArg (_ :: ·) ih
  | binary _ _ ihl ihr | index _ _ ihl ihr =>
    simp only [nodes, List.map_cons, List.map_append, ihl, ihr]
    rfl

theorem Expr.Relabelled.isLvalue_eq (h : e.Relabelled ρ e') : e'.isLvalue = e.isLvalue := by
  induction h with
  | index _ _ ih _ => exact ih
  | var | stretch | clbit | register | value | unary | binary | cast => rfl

theorem Expr.Relabelled.rewritten (h : e.Relabelled ρ e') : e.Rewritten ρ e' := ⟨h, h.types⟩

theorem Store.Rewritten.ofTrees {a a' : Store} (htarget : a.target.Relabelled ρ a'.target)
    (hvalue : a.value.Relabelled ρ a'.value) : a.Rewritten ρ a' where
  target := htarget.rewritten
  value := hvalue.rewritten
  typed h := htarget.type_eq.trans (h.trans hvalue.type_eq.symm)
  assignable h := htarget.isLvalue_eq.trans h

theorem Expr.relabelled_ofIdentifier (i : Identifier) :
    (Expr.ofIdentifier i).Relabelled ρ (.ofIdentifier (ρ.image i)) := by
  have hsort := ρ.sort_image i
  cases i with
  | var v =>
    cases himage : ρ.image (.var v) with
    | var w => exact .var himage
    | stretch t =>
      rw [himage] at hsort
      cases hsort
  | stretch s =>
    cases himage : ρ.image (.stretch s) with
    | var w =>
      rw [himage] at hsort
      cases hsort
    | stretch t => exact .stretch himage

end

/-- Each case around its own new body. -/
theorem SwitchArm.rewritten_zipWith {B : Circuit → Circuit → Prop} {arms : List SwitchArm}
    {bodies : List Circuit} (h : List.Forall₂ (fun arm b => B arm.body b) arms bodies) :
    List.Forall₂ (SwitchArm.Rewritten B) arms
      (List.zipWith (fun arm body => { arm with body := body }) arms bodies) := by
  induction h with
  | nil => exact .nil
  | @cons arm _ _ _ hb _ ih =>
    obtain ⟨labels, body⟩ := arm
    exact .cons (.intro hb) ih

/-! ## Replacing single leaves rewrites all -/

/-- That `f` replaces single leaves so; a literal stays. -/
structure Replacement.MadeBy (ρ : Replacement) (f : Expr → Except CircuitError (Option Expr)) :
    Prop where
  identifier : ∀ i o, f (.ofIdentifier i) = .ok o →
    o.getD (.ofIdentifier i) = .ofIdentifier (ρ.image i)
  clbit : ∀ b o, f (.clbit b) = .ok o → ∃ b', ρ.clbit b b' ∧ o.getD (.clbit b) = .clbit b'
  register : ∀ r o, f (.register r) = .ok o →
    ∃ r', ρ.register r r' ∧ o.getD (.register r) = .register r'
  value : ∀ v t o, f (.value v t) = .ok o → o.getD (.value v t) = .value v t

section MapLeaves

variable {ρ : Replacement} {f : Expr → Except CircuitError (Option Expr)} (hf : ρ.MadeBy f)
include hf

/-- A clbit is replaced by a clbit, or may take its own place. -/
theorem Replacement.MadeBy.clbit_cases {b : Clbit} {o : Option Expr} (ho : f (.clbit b) = .ok o) :
    (o = none ∧ ρ.clbit b b) ∨ ∃ b', o = some (.clbit b') ∧ ρ.clbit b b' := by
  obtain ⟨b', hb, hleaf⟩ := hf.clbit b o ho
  cases o with
  | none =>
    cases hleaf
    exact .inl ⟨rfl, hb⟩
  | some e => exact .inr ⟨b', congrArg some hleaf, hb⟩

/-- A register is replaced by a register, or may take its own place. -/
theorem Replacement.MadeBy.register_cases {r : ClassicalRegister} {o : Option Expr}
    (ho : f (.register r) = .ok o) :
    (o = none ∧ ρ.register r r) ∨ ∃ r', o = some (.register r') ∧ ρ.register r r' := by
  obtain ⟨r', hr, hleaf⟩ := hf.register r o ho
  cases o with
  | none =>
    cases hleaf
    exact .inl ⟨rfl, hr⟩
  | some e => exact .inr ⟨r', congrArg some hleaf, hr⟩

theorem Expr.relabelled_of_mapLeaves {e e' : Expr} (h : e.mapLeaves f = .ok e') :
    e.Relabelled ρ e' := by
  induction e generalizing e' with
  | var v =>
    obtain ⟨o, ho, h⟩ := Checking.bind_eq_ok_iff.1 h
    cases h
    have hleaf : o.getD (.var v) = _ := hf.identifier (.var v) o ho
    exact hleaf ▸ relabelled_ofIdentifier (.var v)
  | stretch s =>
    obtain ⟨o, ho, h⟩ := Checking.bind_eq_ok_iff.1 h
    cases h
    have hleaf : o.getD (.stretch s) = _ := hf.identifier (.stretch s) o ho
    exact hleaf ▸ relabelled_ofIdentifier (.stretch s)
  | clbit b =>
    obtain ⟨o, ho, h⟩ := Checking.bind_eq_ok_iff.1 h
    cases h
    obtain ⟨b', hb, hleaf⟩ := hf.clbit b o ho
    exact hleaf ▸ .clbit hb
  | register r =>
    obtain ⟨o, ho, h⟩ := Checking.bind_eq_ok_iff.1 h
    cases h
    obtain ⟨r', hr, hleaf⟩ := hf.register r o ho
    exact hleaf ▸ .register hr
  | value v t =>
    obtain ⟨o, ho, h⟩ := Checking.bind_eq_ok_iff.1 h
    cases h
    rw [hf.value v t o ho]
    exact .value
  | unary op e t ih =>
    obtain ⟨x, hx, h⟩ := Checking.bind_eq_ok_iff.1 h
    cases h
    exact .unary (ih hx)
  | cast e t i ih =>
    obtain ⟨x, hx, h⟩ := Checking.bind_eq_ok_iff.1 h
    cases h
    exact .cast (ih hx)
  | binary op l r t ihl ihr =>
    obtain ⟨x, hx, h⟩ := Checking.bind_eq_ok_iff.1 h
    obtain ⟨y, hy, h⟩ := Checking.bind_eq_ok_iff.1 h
    cases h
    exact .binary (ihl hx) (ihr hy)
  | index e i t ihe ihi =>
    obtain ⟨x, hx, h⟩ := Checking.bind_eq_ok_iff.1 h
    obtain ⟨y, hy, h⟩ := Checking.bind_eq_ok_iff.1 h
    cases h
    exact .index (ihe hx) (ihi hy)

theorem Expr.rewritten_of_mapLeaves {e e' : Expr} (h : e.mapLeaves f = .ok e') :
    e.Rewritten ρ e' := (relabelled_of_mapLeaves hf h).rewritten

theorem Store.rewritten_of_mapLeaves {a a' : Store} (h : a.mapLeaves f = .ok a') :
    a.Rewritten ρ a' := by
  obtain ⟨target, htarget, h⟩ := Checking.bind_eq_ok_iff.1 h
  obtain ⟨value, hvalue, h⟩ := Checking.bind_eq_ok_iff.1 h
  cases h
  exact .ofTrees (Expr.relabelled_of_mapLeaves hf htarget) (Expr.relabelled_of_mapLeaves hf hvalue)

theorem Duration.rewritten_of_mapLeaves {d d' : Duration} (h : d.mapLeaves f = .ok d') :
    d.Rewritten ρ d' := by
  cases d with
  | dt steps =>
    cases h
    exact .dt
  | expr e =>
    obtain ⟨e', he, h⟩ := Checking.bind_eq_ok_iff.1 h
    cases h
    exact .expr (Expr.rewritten_of_mapLeaves hf he)

theorem Condition.rewritten_of_mapLeaves {c c' : Condition} (h : c.mapLeaves f = .ok c') :
    c.Rewritten ρ c' := by
  cases c with
  | clbit b v =>
    obtain ⟨o, ho, h⟩ := Checking.bind_eq_ok_iff.1 h
    rcases hf.clbit_cases ho with ⟨rfl, hb⟩ | ⟨b', rfl, hb⟩
    all_goals
      cases h
      exact .clbit hb
  | register r v =>
    obtain ⟨o, ho, h⟩ := Checking.bind_eq_ok_iff.1 h
    rcases hf.register_cases ho with ⟨rfl, hr⟩ | ⟨r', rfl, hr⟩
    all_goals
      cases h
      exact .register hr
  | expr e =>
    obtain ⟨e', he, h⟩ := Checking.bind_eq_ok_iff.1 h
    cases h
    exact .expr (Expr.rewritten_of_mapLeaves hf he)

theorem SwitchTarget.rewritten_of_mapLeaves {t t' : SwitchTarget} (h : t.mapLeaves f = .ok t') :
    t.Rewritten ρ t' := by
  cases t with
  | clbit b =>
    obtain ⟨o, ho, h⟩ := Checking.bind_eq_ok_iff.1 h
    rcases hf.clbit_cases ho with ⟨rfl, hb⟩ | ⟨b', rfl, hb⟩
    all_goals
      cases h
      exact .clbit hb
  | register r =>
    obtain ⟨o, ho, h⟩ := Checking.bind_eq_ok_iff.1 h
    rcases hf.register_cases ho with ⟨rfl, hr⟩ | ⟨r', rfl, hr⟩
    all_goals
      cases h
      exact .register hr
  | expr e =>
    obtain ⟨e', he, h⟩ := Checking.bind_eq_ok_iff.1 h
    cases h
    exact .expr (Expr.rewritten_of_mapLeaves hf he)

/-- Leaves replaced first, then bodies. -/
theorem ControlFlow.rewritten_of_mapLeaves {B : Circuit → Circuit → Prop}
    {flow mapped : ControlFlow} {bodies : List Circuit} (h : flow.mapLeaves f = .ok mapped)
    (hbodies : List.Forall₂ B flow.bodies bodies) :
    flow.Rewritten ρ B (mapped.withBodies bodies) := by
  cases flow with
  | ifElse c t e =>
    obtain ⟨c', hc, h⟩ := Checking.bind_eq_ok_iff.1 h
    cases h
    have hcondition := Condition.rewritten_of_mapLeaves hf hc
    cases e with
    | none =>
      obtain ⟨t', _, ht, hnil, rfl⟩ := List.forall₂_cons_left_iff.1 hbodies
      exact .ifElse hcondition ht .none
    | some e =>
      obtain ⟨t', _, ht, hrest, rfl⟩ := List.forall₂_cons_left_iff.1 hbodies
      obtain ⟨e', _, he, hnil, rfl⟩ := List.forall₂_cons_left_iff.1 hrest
      exact .ifElse hcondition ht (.some he)
  | whileLoop c b =>
    obtain ⟨c', hc, h⟩ := Checking.bind_eq_ok_iff.1 h
    cases h
    obtain ⟨b', _, hb, -, rfl⟩ := List.forall₂_cons_left_iff.1 hbodies
    exact .whileLoop (Condition.rewritten_of_mapLeaves hf hc) hb
  | forLoop i p b =>
    cases h
    obtain ⟨b', _, hb, -, rfl⟩ := List.forall₂_cons_left_iff.1 hbodies
    exact .forLoop hb
  | switchCase t arms =>
    obtain ⟨t', ht, h⟩ := Checking.bind_eq_ok_iff.1 h
    cases h
    exact .switchCase (SwitchTarget.rewritten_of_mapLeaves hf ht)
      (SwitchArm.rewritten_zipWith (List.forall₂_map_left_iff.1 hbodies))
  | box b d =>
    obtain ⟨b', _, hb, -, rfl⟩ := List.forall₂_cons_left_iff.1 hbodies
    cases d with
    | none =>
      cases h
      exact .box hb .none
    | some d =>
      obtain ⟨d', hd, h⟩ := Checking.bind_eq_ok_iff.1 h
      cases h
      exact .box hb (.some (Duration.rewritten_of_mapLeaves hf hd))
  | jump j q c =>
    cases h
    exact .jump

end MapLeaves

namespace ControlFlow

variable {flow flow' : ControlFlow} {bodies : List Circuit}

/-- Bodies that are taken in stand in the place of those that were there. -/
theorem eq_withBodies_of_replaced (h : flow.replaceBodies bodies = .ok flow') :
    flow' = flow.withBodies bodies := by
  have hbodies := replaceBodies_eq_ok h
  rcases eq_withBodies_of_replaceBodies h with rfl | rfl
  · rfl
  · rw [← hbodies, withBodies_bodies]

end ControlFlow

/-! ## What stays -/

/-- That anything may take its own place. -/
structure Replacement.Idle (ρ : Replacement) : Prop where
  image : ∀ i, ρ.image i = i
  clbit : ∀ b, ρ.clbit b b
  register : ∀ r, ρ.register r r

section Idle

variable {ρ : Replacement} (hρ : ρ.Idle)
include hρ

theorem Expr.relabelled_self (e : Expr) : e.Relabelled ρ e := by
  induction e with
  | var v => exact .var (hρ.image _)
  | stretch s => exact .stretch (hρ.image _)
  | clbit b => exact .clbit (hρ.clbit b)
  | register r => exact .register (hρ.register r)
  | value v t => exact .value
  | unary op e t ih => exact .unary ih
  | cast e t i ih => exact .cast ih
  | binary op l r t ihl ihr => exact .binary ihl ihr
  | index e i t ihe ihi => exact .index ihe ihi

theorem Duration.rewritten_self (d : Duration) : d.Rewritten ρ d := by
  cases d with
  | dt steps => exact .dt
  | expr e => exact .expr (e.relabelled_self hρ).rewritten

theorem Condition.rewritten_self (c : Condition) : c.Rewritten ρ c := by
  cases c with
  | clbit b v => exact .clbit (hρ.clbit b)
  | register r v => exact .register (hρ.register r)
  | expr e => exact .expr (e.relabelled_self hρ).rewritten

theorem SwitchTarget.rewritten_self (t : SwitchTarget) : t.Rewritten ρ t := by
  cases t with
  | clbit b => exact .clbit (hρ.clbit b)
  | register r => exact .register (hρ.register r)
  | expr e => exact .expr (e.relabelled_self hρ).rewritten

variable {B : Circuit → Circuit → Prop}

theorem ControlFlow.rewritten_self (flow : ControlFlow) (hB : ∀ b ∈ flow.bodies, B b b) :
    flow.Rewritten ρ B flow := by
  cases flow with
  | ifElse c t e =>
    obtain ⟨ht, he⟩ := List.forall_mem_cons.1 hB
    refine .ifElse (c.rewritten_self hρ) ht ?_
    cases e with
    | none => exact .none
    | some e => exact .some (he e List.mem_cons_self)
  | whileLoop c b => exact .whileLoop (c.rewritten_self hρ) (hB b List.mem_cons_self)
  | forLoop i p b => exact .forLoop (hB b List.mem_cons_self)
  | switchCase t arms =>
    refine .switchCase (t.rewritten_self hρ) (List.forall₂_same.2 fun arm harm => ?_)
    have hbody := hB _ (List.mem_map_of_mem harm)
    obtain ⟨labels, body⟩ := arm
    exact .intro hbody
  | box b d =>
    refine .box (hB b List.mem_cons_self) ?_
    cases d with
    | none => exact .none
    | some d => exact .some (d.rewritten_self hρ)
  | jump j q c => exact .jump

theorem Operation.rewritten_self (op : Operation) (hB : ∀ b ∈ op.circuits, B b b) :
    op.Rewritten ρ B op := by
  cases op with
  | store a => exact .store (.ofTrees (a.target.relabelled_self hρ) (a.value.relabelled_self hρ))
  | delay d => exact .delay (d.rewritten_self hρ)
  | control flow => exact .control (flow.rewritten_self hρ hB)
  | gate | custom | measure | reset | barrier => constructor

end Idle

/-! ## Operations under a renaming -/

/-- The operation with its leaves replaced and its bodies renamed. -/
def Operation.moveBy (f : Expr → Except CircuitError (Option Expr)) (r : Renaming) :
    Operation → Except CircuitError Operation
  | .store s => do return .store (← s.mapLeaves f)
  | .delay d => do return .delay (← d.mapLeaves f)
  | .control flow => do
    let mapped ← flow.mapLeaves f
    if r.changesAny then
      let bodies ← flow.renameBodies r
      return .control (← mapped.replaceBodies bodies)
    else return .control mapped
  | op => .ok op

theorem Operation.rename_eq_moveBy (r : Renaming) (op : Operation) :
    op.rename r = op.moveBy r.leaf r := by
  cases op <;> simp only [rename] <;> rfl

theorem LeafMap.operationAmong_eq_moveBy (m : LeafMap) (aliases : List ClassicalRegister)
    (op : Operation) :
    m.operationAmong aliases op = op.moveBy (m.leafAmong aliases) m.identifiers := by
  cases op <;> rfl

/-- Moving rewrites the operation, if it rewrites the bodies. -/
theorem Operation.rewritten_of_moveBy {ρ : Replacement}
    {f : Expr → Except CircuitError (Option Expr)} (hf : ρ.MadeBy f) {r : Renaming}
    {B : Circuit → Circuit → Prop} {op op' : Operation}
    (hB : ∀ b ∈ op.circuits, ∀ b', (r.changesAny = false ∧ b' = b) ∨
      (r.changesAny = true ∧ b.rename r = .ok b') → B b b')
    (h : op.moveBy f r = .ok op') : op.Rewritten ρ B op' := by
  cases op with
  | store a =>
    obtain ⟨a', ha, h⟩ := Checking.bind_eq_ok_iff.1 h
    cases h
    exact .store (Store.rewritten_of_mapLeaves hf ha)
  | delay d =>
    obtain ⟨d', hd, h⟩ := Checking.bind_eq_ok_iff.1 h
    cases h
    exact .delay (Duration.rewritten_of_mapLeaves hf hd)
  | control flow =>
    obtain ⟨mapped, hmapped, h⟩ := Checking.bind_eq_ok_iff.1 h
    -- bodies stay as they are if the renaming changes nothing
    split at h
    · rename_i hchanges
      obtain ⟨bodies, hbodies, h⟩ := Checking.bind_eq_ok_iff.1 h
      obtain ⟨flow', hreplace, h⟩ := Checking.bind_eq_ok_iff.1 h
      cases h
      obtain rfl := ControlFlow.eq_withBodies_of_replaced hreplace
      have hrelated := ((List.forall₂_and_left _ _).2
        ⟨hB, ControlFlow.renameBodies_eq_ok hbodies⟩).imp fun b b' hb =>
          hb.1 b' (.inr ⟨hchanges, hb.2⟩)
      exact .control (ControlFlow.rewritten_of_mapLeaves hf hmapped hrelated)
    · rename_i hsame
      cases h
      have hbodies : flow.bodies = mapped.bodies :=
        (ControlFlow.mapLeaves_eq_ok hmapped).bodies.symm
      have hrelated : List.Forall₂ B flow.bodies mapped.bodies := hbodies ▸
        List.forall₂_same.2 fun b hb => hB b hb b (.inl ⟨by simpa using hsame, rfl⟩)
      have hrewritten := ControlFlow.rewritten_of_mapLeaves hf hmapped hrelated
      rw [ControlFlow.withBodies_bodies] at hrewritten
      exact .control hrewritten
  | gate | custom | measure | reset | barrier =>
    cases h
    constructor

/-! ## Renamings as replacements -/

namespace Renaming

variable {r : Renaming}

/-- That every identifier goes to one of its own sort and type. -/
structure Typed (r : Renaming) : Prop where
  sort : ∀ i, (r.apply i).sort = i.sort
  type : ∀ i, (r.apply i).type = i.type

theorem Typed.keepsSorts (hr : r.Typed) : LeafMap.KeepsSorts r := by
  intro i j hij
  have hsort := hr.sort i
  rwa [apply, hij] at hsort

/-- What takes the place of leaves in a body: nothing but identifiers changes. -/
def Typed.inBodies (hr : r.Typed) : Replacement where
  image := r.apply
  clbit := Eq
  register := Eq
  sort_image := hr.sort
  type_image := hr.type
  size_eq _ _ h := congrArg Register.size h.symm

/-- What takes the place of leaves where clbits go as `C` says: a register goes to one over the
clbits that its own go to. -/
def Typed.onto (hr : r.Typed) (C : Clbit → Clbit → Prop) : Replacement where
  image := r.apply
  clbit := C
  register q q' := List.Forall₂ C q.bits q'.bits
  sort_image := hr.sort
  type_image := hr.type
  size_eq _ _ h := h.length_eq.symm

theorem Typed.madeBy_leaf (hr : r.Typed) : hr.inBodies.MadeBy r.leaf where
  identifier i o ho := by
    cases ho
    exact LeafMap.leaf?_ofIdentifier hr.keepsSorts i
  clbit b o ho := by
    cases ho
    exact ⟨b, rfl, rfl⟩
  register q o ho := by
    cases ho
    exact ⟨q, rfl, rfl⟩
  value v t o ho := by
    cases ho
    rfl

theorem Typed.idle_inBodies (hr : r.Typed) (hsame : r.changesAny = false) : hr.inBodies.Idle where
  image := LeafMap.apply_of_not_changesAny hsame
  clbit _ := rfl
  register _ := rfl

end Renaming

theorem Circuit.name_rename {r : Renaming} {b b' : Circuit} (h : b.rename r = .ok b') :
    b'.name = b.name := by
  obtain ⟨name, ⟨qubits, clbits, records, table, phase, identifiers, duration⟩, blocks⟩ := b
  simp only [Circuit.rename] at h
  obtain ⟨content, -, h⟩ := Checking.bind_eq_ok_iff.1 h
  cases h
  rfl

namespace LeafMap

variable {m : LeafMap} {aliases : List ClassicalRegister} {r : Renaming}

/-- A body that is moved is rewritten, and so are the bodies in it, at every depth. -/
theorem Body.rewritten {A : Policy} (hr : r.Typed) {b b' : Circuit} (hb : b.content.Built A)
    (h : Body r b b') : b.Rewritten hr.inBodies b' := by
  have heverywhere := hb.everywhere_any Content.indexed_invariant
  generalize hcontent : b.content = content at heverywhere
  -- the induction is on the depth
  induction heverywhere generalizing b b' with
  | @intro content _ _ ih =>
    subst hcontent
    have hinside : ∀ i ∈ b.content.records, ∀ e ∈ i.operation.circuits, ∀ e',
        Body r e e' → e.Rewritten hr.inBodies e' := fun i hi e he e' hbody =>
      have hmem := Content.mem_circuits_iff.2 ⟨i, hi, he⟩
      ih e hmem (hb.inside hmem) hbody rfl
    rcases h with ⟨hsame, rfl⟩ | h
    · have hidle := hr.idle_inBodies hsame
      have himage : ∀ e : Identifier × IdentifierKind, (hr.inBodies.image e.1, e.2) = e := fun e =>
        Prod.ext (hidle.image e.1) rfl
      refine .intro rfl rfl rfl rfl (List.map_id'' himage _).symm
        (List.forall₂_same.2 fun i hi => ?_)
      have hoperation := i.operation.rewritten_self hidle fun e he =>
        hinside i hi e he e (.inl ⟨hsame, rfl⟩)
      exact .of_fields hoperation (List.forall₂_refl _) (List.forall₂_refl _) rfl
    · obtain ⟨hqubits, hclbits, hphase, hidentifiers, hrecords⟩ := Circuit.rename_eq_ok h
      refine .intro (Circuit.name_rename h) hqubits hclbits hphase hidentifiers ?_
      refine ((List.forall₂_and_left _ _).2 ⟨hinside, hrecords⟩).imp fun i i' hi => ?_
      obtain ⟨hbodies, op, hop, rfl⟩ := hi
      rw [Operation.rename_eq_moveBy] at hop
      have hoperation := Operation.rewritten_of_moveBy hr.madeBy_leaf
        (fun e he e' hbody => hbodies e he e' (hbody.imp_right And.right)) hop
      exact .of_fields hoperation (List.forall₂_refl _) (List.forall₂_refl _) rfl

theorem madeBy_leafAmong (hm : m.identifiers.Typed) {C : Clbit → Clbit → Prop}
    (hC : ∀ b b', m.clbit b = .ok b' → C b b') : (hm.onto C).MadeBy (m.leafAmong aliases) where
  identifier i o ho := by
    cases (leafAmong_ofIdentifier aliases i).symm.trans ho
    exact leaf?_ofIdentifier hm.keepsSorts i
  clbit b o ho := by
    obtain ⟨b', hb, ho⟩ := Checking.bind_eq_ok_iff.1 ho
    cases ho
    exact ⟨b', hC b b' hb, rfl⟩
  register q o ho := by
    obtain ⟨q', hq, ho⟩ := Checking.bind_eq_ok_iff.1 ho
    cases ho
    exact ⟨q', (standIn_bits hq).2.imp hC, rfl⟩
  value v t o ho := by
    cases ho
    rfl

/-- An operation that a composition moves is rewritten: in bodies identifiers are replaced, and
at its own level clbits and registers too. -/
theorem rewritten_of_operationAmong {A : Policy} (hm : m.identifiers.Typed)
    {C : Clbit → Clbit → Prop} (hC : ∀ b b', m.clbit b = .ok b' → C b b') {op op' : Operation}
    (hbuilt : ∀ e ∈ op.circuits, e.content.Built A) (h : m.operationAmong aliases op = .ok op') :
    op.Rewritten (hm.onto C) (Circuit.Rewritten hm.inBodies) op' := by
  rw [operationAmong_eq_moveBy] at h
  exact Operation.rewritten_of_moveBy (madeBy_leafAmong hm hC)
    (fun b hb b' hbody => Body.rewritten hm (hbuilt b hb) (hbody.imp_right And.right)) h

end LeafMap

end QuantumCircuit
