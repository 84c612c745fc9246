import QuantumCircuit.Proofs.Chaining

/-!
# Simplifying loses nothing

Simplifying folds what has a value and drops zeros from sums and differences. What is folded has a
value and so no parameters, and what is dropped is a zero beside a term without a value. So the
value, or that there is none, and the parameters in their order stay as they were, whatever the
operations on constants do.

A term without a value may get one by a substitution, and then the dropped zero would have been
added to it. So for a substitution made afterwards zeros have to be neutral
(`Arithmetic.ZeroNeutral`); then simplifying before it gives the same value
(`ParamExpr.eval_replace_simplify`). `ParamExpr.simplify_loses_nothing` has it all.
-/

namespace QuantumCircuit

/-- That adding a zero on either side, or subtracting one, changes nothing. There may be several
zeros. -/
structure Arithmetic.ZeroNeutral (R : Type) [Arithmetic R] : Prop where
  zero_add : ∀ z x : R, isZero z = true → add z x = x
  add_zero : ∀ x z : R, isZero z = true → add x z = x
  sub_zero : ∀ x z : R, isZero z = true → sub x z = x

namespace ParamExpr

variable {R : Type} [Arithmetic R] {s : Binding R} {a b e : ParamExpr R}

/-! ## Parameters -/

theorem isSymbolic_simplify (e : ParamExpr R) : e.simplify.isSymbolic = e.isSymbolic := by
  rw [Bool.eq_iff_iff, ← Bool.not_eq_false, ← Bool.not_eq_false, isSymbolic_eq_false_iff,
    isSymbolic_eq_false_iff, symbols_simplify]

theorem parameters_simplify (e : ParamExpr R) : e.simplify.parameters = e.parameters :=
  congrArg Distinct.ofList (symbols_simplify e)

/-! ## Values after a substitution -/

/-- What has a value keeps it, as there is nothing to replace. -/
theorem eval_replace_of_eval {x : R} (h : e.eval = some x) : (e.replace s).eval = some x := by
  rw [replace_of_symbols_eq_nil (symbols_eq_nil_of_eval h), h]

section Zeros

variable {z : R}

theorem eval_zero_add (hzero : Arithmetic.ZeroNeutral R) (ha : a.eval = some z)
    (hz : Arithmetic.isZero z = true) : (add a b).eval = b.eval := by
  rw [eval, ha]
  cases b.eval with
  | none => rfl
  | some y => exact congrArg some (hzero.zero_add z y hz)

theorem eval_add_zero (hzero : Arithmetic.ZeroNeutral R) (hb : b.eval = some z)
    (hz : Arithmetic.isZero z = true) : (add a b).eval = a.eval := by
  rw [eval, hb]
  cases a.eval with
  | none => rfl
  | some x => exact congrArg some (hzero.add_zero x z hz)

theorem eval_sub_zero (hzero : Arithmetic.ZeroNeutral R) (hb : b.eval = some z)
    (hz : Arithmetic.isZero z = true) : (sub a b).eval = a.eval := by
  rw [eval, hb]
  cases a.eval with
  | none => rfl
  | some x => exact congrArg some (hzero.sub_zero x z hz)

end Zeros

theorem eval_replace_simplifiedAdd (hzero : Arithmetic.ZeroNeutral R) (a b : ParamExpr R) :
    ((simplifiedAdd a b).replace s).eval = ((add a b).replace s).eval := by
  unfold simplifiedAdd
  split
  · rename_i x y ha hb
    rw [replace, replace, eval, eval, eval_replace_of_eval ha, eval_replace_of_eval hb]
    rfl
  · rename_i x ha hb
    split
    · rename_i hx
      exact (eval_zero_add hzero (eval_replace_of_eval ha) hx).symm
    · rfl
  · rename_i y ha hb
    split
    · rename_i hy
      exact (eval_add_zero hzero (eval_replace_of_eval hb) hy).symm
    · rfl
  · rfl

theorem eval_replace_simplifiedSub (hzero : Arithmetic.ZeroNeutral R) (a b : ParamExpr R) :
    ((simplifiedSub a b).replace s).eval = ((sub a b).replace s).eval := by
  unfold simplifiedSub
  split
  · rename_i x y ha hb
    rw [replace, replace, eval, eval, eval_replace_of_eval ha, eval_replace_of_eval hb]
    rfl
  · rename_i y ha hb
    split
    · rename_i hy
      exact (eval_sub_zero hzero (eval_replace_of_eval hb) hy).symm
    · rfl
  · rfl

/-- Products and quotients are only folded, and so no law is asked for. -/
theorem eval_replace_simplifiedMul (a b : ParamExpr R) :
    ((simplifiedMul a b).replace s).eval = ((mul a b).replace s).eval := by
  unfold simplifiedMul
  split
  · rename_i x y ha hb
    rw [replace, replace, eval, eval, eval_replace_of_eval ha, eval_replace_of_eval hb]
    rfl
  · rfl

theorem eval_replace_simplifiedDiv (a b : ParamExpr R) :
    ((simplifiedDiv a b).replace s).eval = ((div a b).replace s).eval := by
  unfold simplifiedDiv
  split
  · rename_i x y ha hb
    split
    · rfl
    · rename_i hy
      rw [replace, replace, eval, eval, eval_replace_of_eval ha, eval_replace_of_eval hb]
      simp [hy]
  · rfl

/-- What has a value is folded to it, so only the rest is to be looked at. -/
theorem eval_replace_simplify_of
    (h : e.eval = none → (e.simplify.replace s).eval = (e.replace s).eval) :
    (e.simplify.replace s).eval = (e.replace s).eval := by
  cases hvalue : e.eval with
  | none => exact h hvalue
  | some x =>
    rw [simplify_of_eval hvalue, eval_replace_of_eval hvalue]
    rfl

/-- Where zeros are neutral, a substitution may be made before simplifying or after it. -/
theorem eval_replace_simplify (hzero : Arithmetic.ZeroNeutral R) (s : Binding R)
    (e : ParamExpr R) : (e.simplify.replace s).eval = (e.replace s).eval := by
  induction e with
  | const x | pi | sym q => rfl
  | neg a ih =>
    refine eval_replace_simplify_of fun h => ?_
    have ha : a.simplify.eval = none := (eval_simplify a).trans (Option.map_eq_none_iff.1 h)
    rw [simplify_neg h ha, replace, replace, eval, eval, ih]
  | add a b iha ihb =>
    refine eval_replace_simplify_of fun h => ?_
    rw [simplify_add h, eval_replace_simplifiedAdd hzero, replace, replace, eval, eval, iha, ihb]
  | sub a b iha ihb =>
    refine eval_replace_simplify_of fun h => ?_
    rw [simplify_sub h, eval_replace_simplifiedSub hzero, replace, replace, eval, eval, iha, ihb]
  | mul a b iha ihb =>
    refine eval_replace_simplify_of fun h => ?_
    rw [simplify_mul h, eval_replace_simplifiedMul, replace, replace, eval, eval, iha, ihb]
  | div a b iha ihb =>
    refine eval_replace_simplify_of fun h => ?_
    rw [simplify_div h, eval_replace_simplifiedDiv, replace, replace, eval, eval, iha, ihb]

/-- What was simplified stays as it is, and has the value of the expression, if there is one, and
its parameters in their order. If zeros are neutral, it also has the same value after every
substitution. -/
theorem simplify_loses_nothing (e : ParamExpr R) :
    e.simplify.simplify = e.simplify ∧ e.simplify.eval = e.eval ∧
    e.simplify.isSymbolic = e.isSymbolic ∧ e.simplify.parameters = e.parameters ∧
    (Arithmetic.ZeroNeutral R → ∀ s : Binding R, (e.simplify.subst s).eval = (e.subst s).eval) := by
  refine ⟨simplify_simplify e, eval_simplify e, isSymbolic_simplify e, parameters_simplify e,
    fun hzero s => ?_⟩
  rw [eval_subst, eval_subst]
  exact eval_replace_simplify hzero s e

/-- Whole numbers, with `π` and quotients rounded. -/
instance : Arithmetic Int where
  pi := 3
  neg x := -x
  add := (· + ·)
  sub := (· - ·)
  mul := (· * ·)
  div := (· / ·)
  isZero x := x == 0

theorem zeroNeutral_int : Arithmetic.ZeroNeutral Int where
  zero_add z x hz := by
    obtain rfl : z = 0 := eq_of_beq hz
    exact Int.zero_add x
  add_zero x z hz := by
    obtain rfl : z = 0 := eq_of_beq hz
    exact Int.add_zero x
  sub_zero x z hz := by
    obtain rfl : z = 0 := eq_of_beq hz
    exact Int.sub_zero x

/-- `(0 + x - 0) / (y + 0)` becomes `x / y`, and both come to 3 when 6 and 2 are put in. With 0 put
in below neither has a value, though no parameter is left. -/
theorem simplify_quotient_loses_nothing :
    let e : ParamExpr Int := .div (.sub (.add (.const 0) (.sym numerator)) (.const 0))
      (.add (.sym denominator) (.const 0))
    let below (y : Int) : Binding Int := [(numerator, .const 6), (denominator, .const y)]
    Arithmetic.ZeroNeutral Int ∧ e.simplify = .div (.sym numerator) (.sym denominator) ∧
      (e.simplify.subst (below 2)).eval = some 3 ∧
      (e.simplify.subst (below 0)).eval = none ∧ (e.simplify.subst (below 0)).isSymbolic = false := by
  intro e below
  obtain ⟨-, -, -, -, hsubst⟩ := simplify_loses_nothing e
  refine ⟨zeroNeutral_int, rfl, ?_, ?_, rfl⟩
  · exact (hsubst zeroNeutral_int (below 2)).trans rfl
  · exact (hsubst zeroNeutral_int (below 0)).trans rfl

end ParamExpr

end QuantumCircuit
