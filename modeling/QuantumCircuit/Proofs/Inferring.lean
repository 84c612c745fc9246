import QuantumCircuit.Proofs.Reporting

/-!
# Types stay inferred

The types stored in the inner nodes of an expression are those that the constructors infer
(`Expr.WellTyped`): the constructors build no other expressions. Replacing leaves copies the stored
types. As a constructor looks at nothing of its operands but their types, this comes to the same as
putting the tree together again from the new leaves (`Expr.remake`), provided that every leaf is
replaced by one of its type. `Expr.types_stay_inferred` says so for replacements that may fail and
may keep a state from leaf to leaf.
-/

namespace QuantumCircuit

namespace Expr

variable {σ : Type} {f : Expr → Edit σ (Option Expr)} {e e' : Expr} {s s' : σ}

/-! ## Well-typed expressions -/

/-- That every node is what its constructor makes of its parts: none is refused, and the stored type
is the one inferred. A literal is what lifting makes of it at its type. -/
def WellTyped : Expr → Prop
  | var _ | stretch _ | clbit _ | register _ => True
  | value v t => lift (literal v) (some t) = .ok (value v t)
  | unary op e t => e.WellTyped ∧ makeUnary op e = .ok (unary op e t)
  | binary op l r t => l.WellTyped ∧ r.WellTyped ∧ makeBinary op l r = .ok (binary op l r t)
  | cast e _ _ => e.WellTyped
  | index e i t => e.WellTyped ∧ i.WellTyped ∧ makeIndex e i = .ok (index e i t)

/-- What the constructors build from well-typed leaves. -/
inductive Constructed : Expr → Prop
  | leaf {e : Expr} : e.isLeaf = true → e.WellTyped → Constructed e
  | literal (v : Value) : Constructed (literal v)
  | unary {op : UnaryOp} {e e' : Expr} : Constructed e → makeUnary op e = .ok e' → Constructed e'
  | binary {op : BinaryOp} {l r e' : Expr} : Constructed l → Constructed r →
      makeBinary op l r = .ok e' → Constructed e'
  | cast {e : Expr} (t : Ty) : Constructed e → Constructed (makeCast e t)
  | index {e i e' : Expr} : Constructed e → Constructed i → makeIndex e i = .ok e' → Constructed e'
  | lift {e e' : Expr} {t : Option Ty} : Constructed e → lift e t = .ok e' → Constructed e'

/-- The same nodes with the same stored types, over other leaves. -/
inductive SameShape : Expr → Expr → Prop
  | leaf {x y : Expr} : x.isLeaf = true → y.isLeaf = true → SameShape x y
  | unary {op : UnaryOp} {e e' : Expr} {t : Ty} : SameShape e e' →
      SameShape (unary op e t) (unary op e' t)
  | binary {op : BinaryOp} {l r l' r' : Expr} {t : Ty} : SameShape l l' → SameShape r r' →
      SameShape (binary op l r t) (binary op l' r' t)
  | cast {e e' : Expr} {t : Ty} {implicit : Bool} : SameShape e e' →
      SameShape (cast e t implicit) (cast e' t implicit)
  | index {e i e' i' : Expr} {t : Ty} : SameShape e e' → SameShape i i' →
      SameShape (index e i t) (index e' i' t)

/-- Put the tree together again from what `f` makes of its leaves: the constructors infer the types,
and the stored ones are not looked at. A cast that was put in by inference stays marked. -/
def remake (f : Expr → Edit σ (Option Expr)) : Expr → Edit σ Expr
  | unary op e _ => do
    let e ← e.remake f
    Edit.ofExcept (makeUnary op e)
  | binary op l r _ => do
    let l ← l.remake f
    let r ← r.remake f
    Edit.ofExcept (makeBinary op l r)
  | cast e t implicit => do
    let e ← e.remake f
    return if implicit then cast e t true else makeCast e t
  | index e i _ => do
    let e ← e.remake f
    let i ← i.remake f
    Edit.ofExcept (makeIndex e i)
  | leaf => do return (← f leaf).getD leaf

/-- That `f` fails, keeps a leaf, or replaces it by a well-typed leaf of its type. -/
def KeepsTypes (f : Expr → Edit σ (Option Expr)) (xs : List Expr) : Prop :=
  ∀ x ∈ xs, ∀ s r s', f x s = .ok (some r) s' → r.isLeaf = true ∧ r.WellTyped ∧ r.type = x.type

/-! ## Constructors look at types -/

theorem makeUnary_eq_ok_iff {op : UnaryOp} :
    makeUnary op e = .ok e' ↔ ∃ t, op.result? e.type = some t ∧ e' = unary op e t := by
  unfold makeUnary
  cases op.result? e.type <;> simp [eq_comm]

theorem makeBinary_eq_ok_iff {op : BinaryOp} {l r : Expr} :
    makeBinary op l r = .ok e' ↔ ∃ t, op.result? l.type r.type = some t ∧ e' = binary op l r t := by
  unfold makeBinary
  cases op.result? l.type r.type <;> simp [eq_comm]

theorem makeIndex_eq_ok_iff {i : Expr} :
    makeIndex e i = .ok e' ↔ (∃ m n, e.type = .uint m ∧ i.type = .uint n) ∧
      e' = index e i .bool := by
  unfold makeIndex
  cases e.type <;> cases i.type <;> simp [eq_comm]

theorem makeUnary_of_type {op : UnaryOp} {t : Ty} (h : makeUnary op e = .ok (unary op e t))
    (htype : e'.type = e.type) : makeUnary op e' = .ok (unary op e' t) := by
  obtain ⟨u, hu, heq⟩ := makeUnary_eq_ok_iff.1 h
  cases heq
  exact makeUnary_eq_ok_iff.2 ⟨t, htype ▸ hu, rfl⟩

theorem makeBinary_of_type {op : BinaryOp} {l r l' r' : Expr} {t : Ty}
    (h : makeBinary op l r = .ok (binary op l r t)) (hl : l'.type = l.type)
    (hr : r'.type = r.type) : makeBinary op l' r' = .ok (binary op l' r' t) := by
  obtain ⟨u, hu, heq⟩ := makeBinary_eq_ok_iff.1 h
  cases heq
  exact makeBinary_eq_ok_iff.2 ⟨t, by rw [hl, hr, hu], rfl⟩

theorem makeIndex_of_type {i i' : Expr} {t : Ty} (h : makeIndex e i = .ok (index e i t))
    (he : e'.type = e.type) (hi : i'.type = i.type) :
    makeIndex e' i' = .ok (index e' i' t) := by
  obtain ⟨⟨m, n, hm, hn⟩, heq⟩ := makeIndex_eq_ok_iff.1 h
  cases heq
  exact makeIndex_eq_ok_iff.2 ⟨⟨m, n, he.trans hm, hi.trans hn⟩, rfl⟩

/-! ## What is constructed is well typed -/

theorem lift_eq_ok {t : Option Ty} (h : lift e t = .ok e') :
    e' = e ∨ ∃ v u, v.fits u = true ∧ e' = value v u := by
  unfold lift at h
  split at h
  · cases h
    exact .inl rfl
  · rename_i t
    simp only at h
    split at h
    · rename_i r hretyped
      cases h
      split at hretyped
      · rename_i v _
        split at hretyped
        · rename_i hfits
          cases hretyped
          exact .inr ⟨v, t, hfits, rfl⟩
        · cases hretyped
      · cases hretyped
    · split at h
      · cases h
        exact .inl rfl
      · cases h

theorem lift_literal_of_fits {v : Value} {t : Ty} (h : v.fits t = true) :
    lift (literal v) (some t) = .ok (value v t) := by
  simp [lift, literal, h]

theorem wellTyped_literal (v : Value) : (literal v).WellTyped := by
  show lift (literal v) (some v.naturalType) = .ok (literal v)
  by_cases h : v.fits v.naturalType = true
  · exact lift_literal_of_fits h
  · simp [lift, literal, h, type]

theorem Constructed.wellTyped (h : e.Constructed) : e.WellTyped := by
  induction h with
  | leaf _ h => exact h
  | literal v => exact wellTyped_literal v
  | unary _ hmake ih =>
    obtain ⟨t, -, rfl⟩ := makeUnary_eq_ok_iff.1 hmake
    exact ⟨ih, hmake⟩
  | binary _ _ hmake ihl ihr =>
    obtain ⟨t, -, rfl⟩ := makeBinary_eq_ok_iff.1 hmake
    exact ⟨ihl, ihr, hmake⟩
  | cast t _ ih => exact ih
  | index _ _ hmake ihe ihi =>
    obtain ⟨-, rfl⟩ := makeIndex_eq_ok_iff.1 hmake
    exact ⟨ihe, ihi, hmake⟩
  | lift _ hlift ih =>
    rcases lift_eq_ok hlift with rfl | ⟨v, t, hfits, rfl⟩
    · exact ih
    · exact lift_literal_of_fits hfits

/-! ## Replacing leaves -/

theorem leaves_of_isLeaf (h : e.isLeaf = true) : e.leaves = [e] := by
  cases e <;> first | rfl | cases h

@[simp] theorem leaves_unary (op : UnaryOp) (e : Expr) (t : Ty) :
    (unary op e t).leaves = e.leaves := rfl

@[simp] theorem leaves_cast (e : Expr) (t : Ty) (implicit : Bool) :
    (cast e t implicit).leaves = e.leaves := rfl

@[simp] theorem leaves_binary (op : BinaryOp) (l r : Expr) (t : Ty) :
    (binary op l r t).leaves = l.leaves ++ r.leaves := by
  simp [leaves, nodes, isLeaf]

@[simp] theorem leaves_index (e i : Expr) (t : Ty) :
    (index e i t).leaves = e.leaves ++ i.leaves := by
  simp [leaves, nodes, isLeaf]

theorem mapLeaves_of_isLeaf (f : Expr → Edit σ (Option Expr)) (h : e.isLeaf = true) :
    e.mapLeaves f = (f e >>= fun o => pure (o.getD e)) := by
  cases e <;> first | rfl | cases h

theorem remake_of_isLeaf (f : Expr → Edit σ (Option Expr)) (h : e.isLeaf = true) :
    e.remake f = e.mapLeaves f := by
  cases e <;> first | rfl | cases h

/-- Replacing the leaves asks `f` for one after another, from left to right. -/
theorem each_leaves (f : Expr → Edit σ (Option Expr)) (e : Expr) :
    Edit.each (fun x => do let _ ← f x) e.leaves = (e.mapLeaves f >>= fun _ => pure ()) := by
  induction e with
  | var v | stretch t | clbit b | register r | value v t =>
    rw [leaves_of_isLeaf rfl, mapLeaves_of_isLeaf f rfl]
    simp only [Edit.each, bind_assoc, pure_bind]
  | unary op e t ih | cast e t i ih =>
    simp only [leaves_unary, leaves_cast, mapLeaves, ih, bind_assoc, pure_bind]
  | binary op l r t ihl ihr | index l r t ihl ihr =>
    simp only [leaves_binary, leaves_index, mapLeaves, Edit.each_append, ihl, ihr, bind_assoc,
      pure_bind]

theorem KeepsTypes.mono {xs ys : List Expr} (h : KeepsTypes f ys) (hsub : xs ⊆ ys) :
    KeepsTypes f xs := fun x hx => h x (hsub hx)

theorem KeepsTypes.left {xs ys : List Expr} (h : KeepsTypes f (xs ++ ys)) : KeepsTypes f xs :=
  h.mono (List.subset_append_left xs ys)

theorem KeepsTypes.right {xs ys : List Expr} (h : KeepsTypes f (xs ++ ys)) : KeepsTypes f ys :=
  h.mono (List.subset_append_right xs ys)

/-- A leaf is kept, or replaced by what `f` answers. -/
theorem mapLeaves_leaf_eq_ok (hleaf : e.isLeaf = true) (h : e.mapLeaves f s = .ok e' s') :
    e' = e ∨ f e s = .ok (some e') s' := by
  rw [mapLeaves_of_isLeaf f hleaf] at h
  obtain ⟨o, u, ho, heq⟩ := Edit.bind_eq_ok_iff.1 h
  cases heq
  cases o with
  | none => exact .inl rfl
  | some r => exact .inr ho

/-- With leaves of the same types the stored types are still right. -/
theorem WellTyped.mapLeaves (h : e.WellTyped) (hf : KeepsTypes f e.leaves)
    (hm : e.mapLeaves f s = .ok e' s') : e'.WellTyped ∧ e.SameShape e' ∧ e'.type = e.type := by
  induction e generalizing e' s s' with
  | var v | stretch t | clbit b | register r | value v t =>
    rcases mapLeaves_leaf_eq_ok rfl hm with rfl | hanswer
    · exact ⟨h, .leaf rfl rfl, rfl⟩
    · rw [leaves_of_isLeaf rfl] at hf
      obtain ⟨hleaf, htyped, htype⟩ := hf _ List.mem_cons_self _ _ _ hanswer
      exact ⟨htyped, .leaf rfl hleaf, htype⟩
  | unary op e t ih =>
    obtain ⟨he, hmake⟩ := h
    obtain ⟨e₁, u, he₁, heq⟩ := Edit.bind_eq_ok_iff.1 hm
    cases heq
    obtain ⟨htyped, hshape, htype⟩ := ih he hf he₁
    exact ⟨⟨htyped, makeUnary_of_type hmake htype⟩, .unary hshape, rfl⟩
  | cast e t i ih =>
    obtain ⟨e₁, u, he₁, heq⟩ := Edit.bind_eq_ok_iff.1 hm
    cases heq
    obtain ⟨htyped, hshape, -⟩ := ih h hf he₁
    exact ⟨htyped, .cast hshape, rfl⟩
  | binary op l r t ihl ihr =>
    obtain ⟨hl, hr, hmake⟩ := h
    rw [leaves_binary] at hf
    obtain ⟨l₁, u, hl₁, hm⟩ := Edit.bind_eq_ok_iff.1 hm
    obtain ⟨r₁, v, hr₁, heq⟩ := Edit.bind_eq_ok_iff.1 hm
    cases heq
    obtain ⟨hltyped, hlshape, hltype⟩ := ihl hl hf.left hl₁
    obtain ⟨hrtyped, hrshape, hrtype⟩ := ihr hr hf.right hr₁
    exact ⟨⟨hltyped, hrtyped, makeBinary_of_type hmake hltype hrtype⟩, .binary hlshape hrshape, rfl⟩
  | index e i t ihe ihi =>
    obtain ⟨he, hi, hmake⟩ := h
    rw [leaves_index] at hf
    obtain ⟨e₁, u, he₁, hm⟩ := Edit.bind_eq_ok_iff.1 hm
    obtain ⟨i₁, v, hi₁, heq⟩ := Edit.bind_eq_ok_iff.1 hm
    cases heq
    obtain ⟨hetyped, heshape, hetype⟩ := ihe he hf.left he₁
    obtain ⟨hityped, hishape, hitype⟩ := ihi hi hf.right hi₁
    exact ⟨⟨hetyped, hityped, makeIndex_of_type hmake hetype hitype⟩, .index heshape hishape, rfl⟩

/-- So the constructors would infer the types that were copied, and refuse nothing. -/
theorem WellTyped.remake_eq (h : e.WellTyped) (hf : KeepsTypes f e.leaves) :
    e.remake f s = e.mapLeaves f s := by
  induction e generalizing s with
  | var v | stretch t | clbit b | register r | value v t => rw [remake_of_isLeaf f rfl]
  | unary op e t ih =>
    obtain ⟨he, hmake⟩ := h
    have hsame : e.remake f = e.mapLeaves f := funext fun s => ih he hf
    rw [remake, Expr.mapLeaves, hsame]
    refine Edit.bind_congr_of_ok fun e₁ u he₁ => ?_
    obtain ⟨-, -, htype⟩ := WellTyped.mapLeaves he hf he₁
    rw [makeUnary_of_type hmake htype]
    rfl
  | cast e t i ih =>
    have hsame : e.remake f = e.mapLeaves f := funext fun s => ih h hf
    rw [remake, Expr.mapLeaves, hsame]
    cases i <;> rfl
  | binary op l r t ihl ihr =>
    obtain ⟨hl, hr, hmake⟩ := h
    rw [leaves_binary] at hf
    have hleft : l.remake f = l.mapLeaves f := funext fun s => ihl hl hf.left
    have hright : r.remake f = r.mapLeaves f := funext fun s => ihr hr hf.right
    rw [remake, Expr.mapLeaves, hleft, hright]
    refine Edit.bind_congr_of_ok fun l₁ u hl₁ => Edit.bind_congr_of_ok fun r₁ v hr₁ => ?_
    obtain ⟨-, -, hltype⟩ := WellTyped.mapLeaves hl hf.left hl₁
    obtain ⟨-, -, hrtype⟩ := WellTyped.mapLeaves hr hf.right hr₁
    rw [makeBinary_of_type hmake hltype hrtype]
    rfl
  | index e i t ihe ihi =>
    obtain ⟨he, hi, hmake⟩ := h
    rw [leaves_index] at hf
    have hleft : e.remake f = e.mapLeaves f := funext fun s => ihe he hf.left
    have hright : i.remake f = i.mapLeaves f := funext fun s => ihi hi hf.right
    rw [remake, Expr.mapLeaves, hleft, hright]
    refine Edit.bind_congr_of_ok fun e₁ u he₁ => Edit.bind_congr_of_ok fun i₁ v hi₁ => ?_
    obtain ⟨-, -, hetype⟩ := WellTyped.mapLeaves he hf.left he₁
    obtain ⟨-, -, hitype⟩ := WellTyped.mapLeaves hi hf.right hi₁
    rw [makeIndex_of_type hmake hetype hitype]
    rfl

/-- Whatever holds between leaves and their replacements as to being assignable holds of the whole,
as an expression is assignable for its first leaf. -/
theorem isLvalue_mapLeaves (R : Bool → Bool → Prop) (hR : ∀ b, R b b)
    (hf : ∀ x ∈ e.leaves, ∀ s r s', f x s = .ok (some r) s' → R x.isLvalue r.isLvalue)
    (hm : e.mapLeaves f s = .ok e' s') : R e.isLvalue e'.isLvalue := by
  induction e generalizing e' s s' with
  | var v | stretch t | clbit b | register r | value v t =>
    rcases mapLeaves_leaf_eq_ok rfl hm with rfl | hanswer
    · exact hR _
    · exact hf _ (by rw [leaves_of_isLeaf rfl]; exact List.mem_cons_self) _ _ _ hanswer
  | unary op e t ih | cast e t i ih =>
    obtain ⟨e₁, u, -, heq⟩ := Edit.bind_eq_ok_iff.1 hm
    cases heq
    exact hR false
  | binary op l r t ihl ihr =>
    obtain ⟨l₁, u, -, hm⟩ := Edit.bind_eq_ok_iff.1 hm
    obtain ⟨r₁, v, -, heq⟩ := Edit.bind_eq_ok_iff.1 hm
    cases heq
    exact hR false
  | index e i t ihe ihi =>
    obtain ⟨e₁, u, he₁, hm⟩ := Edit.bind_eq_ok_iff.1 hm
    obtain ⟨i₁, v, -, heq⟩ := Edit.bind_eq_ok_iff.1 hm
    cases heq
    rw [leaves_index] at hf
    show R e.isLvalue e₁.isLvalue
    exact ihe (fun x hx => hf x (List.mem_append_left _ hx)) he₁

/-- The constructors build well-typed expressions only. If the leaves of a well-typed expression are
replaced by leaves of their types, the answer is that of the constructors on the new leaves; it is
the failure of the first leaf that fails, from left to right, or else a well-typed expression of
the same shape and type. It is assignable if the old one was and what is put in for assignable
leaves is assignable, and only then if nothing assignable is put in for other leaves. -/
theorem types_stay_inferred :
    (∀ e : Expr, e.Constructed → e.WellTyped) ∧
    ∀ (σ : Type) (f : Expr → Edit σ (Option Expr)) (e : Expr) (s : σ), e.WellTyped →
      KeepsTypes f e.leaves →
      e.mapLeaves f s = e.remake f s ∧
      (∀ c s', e.mapLeaves f s = .error c s' → ∃ before x after u, e.leaves = before ++ x :: after ∧
        Edit.each (fun y => do let _ ← f y) before s = .ok () u ∧ f x u = .error c s') ∧
      ∀ e' s', e.mapLeaves f s = .ok e' s' →
        Edit.each (fun y => do let _ ← f y) e.leaves s = .ok () s' ∧
        e'.WellTyped ∧ e.SameShape e' ∧ e'.type = e.type ∧
        ((∀ x ∈ e.leaves, x.isLvalue = true → ∀ u r v, f x u = .ok (some r) v →
          r.isLvalue = true) → e.isLvalue = true → e'.isLvalue = true) ∧
        ((∀ x ∈ e.leaves, ∀ u r v, f x u = .ok (some r) v → r.isLvalue = x.isLvalue) →
          e'.isLvalue = e.isLvalue) := by
  refine ⟨fun e => Constructed.wellTyped, fun σ f e s h hf => ⟨(h.remake_eq hf).symm, ?_, ?_⟩⟩
  · intro c s' hm
    have hasked : Edit.each (fun y => do let _ ← f y) e.leaves s = .error c s' := by
      rw [each_leaves]
      exact Edit.bind_eq_error_iff.2 (.inl hm)
    obtain ⟨before, x, after, u, heq, hbefore, hx⟩ := Edit.each_eq_error_iff.1 hasked
    refine ⟨before, x, after, u, heq, hbefore, ?_⟩
    rcases Edit.bind_eq_error_iff.1 hx with hx | ⟨o, v, -, hpure⟩
    · exact hx
    · cases hpure
  · intro e' s' hm
    obtain ⟨htyped, hshape, htype⟩ := h.mapLeaves hf hm
    refine ⟨?_, htyped, hshape, htype, fun hlvalues => ?_, fun hlvalues => ?_⟩
    · rw [each_leaves]
      exact Edit.bind_eq_ok_iff.2 ⟨e', s', hm, rfl⟩
    · refine isLvalue_mapLeaves (fun a b => a = true → b = true) (fun _ => id) ?_ hm
      intro x hx u r v hanswer hlvalue
      exact hlvalues x hx hlvalue u r v hanswer
    · exact isLvalue_mapLeaves (fun a b => b = a) (fun _ => rfl) hlvalues hm

/-- A register of two bits. -/
def twoBits : ClassicalRegister :=
  ⟨"r", [.loose .classical ⟨0, 0⟩, .loose .classical ⟨0, 1⟩], false⟩

/-- The second bit of the register. -/
def secondBit : Expr := index (register twoBits) (literal (.uint 1)) .bool

/-- Put a variable of two bits in for a register, and count the leaves that were asked for. -/
def intoVariable : Expr → Edit Nat (Option Expr)
  | register _ => fun n => .ok (some (var ⟨"v", .uint 2, ⟨1, 0⟩⟩)) (n + 1)
  | _ => fun n => .ok none (n + 1)

/-- The bit of the register becomes a bit of the variable, which is assignable as well. -/
theorem secondBit_stays_inferred : secondBit.WellTyped ∧ KeepsTypes intoVariable secondBit.leaves ∧
    ∃ e, secondBit.mapLeaves intoVariable 0 = .ok e 2 ∧ secondBit.remake intoVariable 0 = .ok e 2 ∧
      e.WellTyped ∧ secondBit.SameShape e ∧ e.type = .bool ∧ e.isLvalue = true := by
  have hregister : (register twoBits).Constructed := .leaf rfl trivial
  have hmade : makeIndex (register twoBits) (literal (.uint 1)) = .ok secondBit := rfl
  have htyped := types_stay_inferred.1 secondBit (.index hregister (.literal _) hmade)
  have hkeeps : KeepsTypes intoVariable secondBit.leaves := by
    refine List.forall_mem_cons.2 ⟨fun s r s' hanswer => ?_, List.forall_mem_singleton.2 ?_⟩
    · cases hanswer
      exact ⟨rfl, trivial, rfl⟩
    · intro s r s' hanswer
      cases hanswer
  obtain ⟨hremake, -, hanswers⟩ := types_stay_inferred.2 Nat intoVariable secondBit 0 htyped hkeeps
  obtain ⟨e, he⟩ : ∃ e, secondBit.mapLeaves intoVariable 0 = .ok e 2 := ⟨_, rfl⟩
  obtain ⟨-, hnew, hshape, htype, hlvalue, -⟩ := hanswers e 2 he
  refine ⟨htyped, hkeeps, e, he, hremake.symm.trans he, hnew, hshape, htype, hlvalue ?_ rfl⟩
  refine List.forall_mem_cons.2 ⟨fun _ u r v hanswer => ?_, List.forall_mem_singleton.2 ?_⟩
  · cases hanswer
    rfl
  · intro hliteral
    cases hliteral

end Expr

end QuantumCircuit
