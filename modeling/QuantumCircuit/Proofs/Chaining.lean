import QuantumCircuit.Proofs.Folding
import QuantumCircuit.Proofs.Occurrence

/-!
# One substitution after another

To substitute twice is to substitute once, with the second substitution made in the replacements of
the first as well (`Binding.andThen`). The two ways fold at different moments, so the trees may
differ, but neither the value nor the parameters do: folding changes neither, and both are read off
the replacements (`ParamExpr.eval_replace_replace`, `ParamExpr.symbols_replace_replace`). Where the
first replacements have no parameters the trees are the same (`ParamExpr.subst_subst_of_unites`).
`ParamExpr.subst_composes` has it all.
-/

namespace QuantumCircuit

namespace Binding

variable {R : Type}

/-- Both substitutions at once: the replacements of the first with the second made in them, and
those of the second for what the first leaves alone. -/
def andThen [Arithmetic R] (s t : Binding R) : Binding R :=
  s.map (fun u => (u.1, u.2.subst t)) ++ t

/-- That `u` replaces as `s` does with `t` made in the replacements, and as `t` does what `s` leaves
alone. -/
def Composes [Arithmetic R] (u s t : Binding R) : Prop :=
  ∀ p, Assoc.find? p u = ((Assoc.find? p s).map (·.subst t)).or (Assoc.find? p t)

theorem composes_andThen [Arithmetic R] (s t : Binding R) : (s.andThen t).Composes s t := by
  intro p
  rw [andThen, Assoc.find?_append, Assoc.find?_map]

/-- That `w` has the replacements of both, and no others. -/
def Unites (w s t : Binding R) : Prop :=
  ∀ p r, Assoc.find? p w = some r ↔ Assoc.find? p s = some r ∨ Assoc.find? p t = some r

theorem Unites.symm {w s t : Binding R} (h : w.Unites s t) : w.Unites t s :=
  fun p r => (h p r).trans or_comm

/-- Substitutions without a common key may be written one after the other. -/
theorem unites_append {s t : Binding R} (h : ∀ p ∈ Assoc.keys s, p ∉ Assoc.keys t) :
    (s ++ t).Unites s t := by
  intro p r
  rw [Assoc.find?_append_eq_ite]
  split
  · rename_i hkey
    simp [(Assoc.find?_eq_none_iff p t).2 (h p hkey)]
  · rename_i hkey
    simp [(Assoc.find?_eq_none_iff p s).2 hkey]

end Binding

namespace ParamExpr

variable {R : Type} {p : Parameter} {s t u w : Binding R} {e : ParamExpr R}

theorem image_eq_of_unites (h : w.Unites s t) (q : Parameter) : image w q = image (s ++ t) q := by
  unfold image
  congr 1
  refine Option.ext fun r => ?_
  rw [h q r, Assoc.find?_append]
  cases hs : Assoc.find? q s with
  | none => simp
  | some x =>
    -- the union has one replacement for `q`, so the other map has no different one
    have hx : Assoc.find? q w = some x := (h q x).2 (.inl hs)
    simp only [Option.some_or, Option.some.injEq, or_iff_left_iff_imp]
    intro ht
    have hr : Assoc.find? q w = some r := (h q r).2 (.inr ht)
    exact Option.some.inj (hx.symm.trans hr)

/-- A parameter without a replacement in the first is left to the second. -/
theorem replace_image_of_not_key {q : Parameter} (h : q ∉ Assoc.keys s) :
    (image s q).replace t = image t q := by
  rw [Content.image_of_not_key h]
  rfl

section Arithmetic

variable [Arithmetic R]

/-! ## Values -/

theorem eval_subst (s : Binding R) (e : ParamExpr R) : (e.subst s).eval = (e.replace s).eval := by
  unfold subst
  simp only
  split
  · rfl
  · exact eval_simplify _

theorem symbols_subst (s : Binding R) (e : ParamExpr R) :
    (e.subst s).symbols = (e.replace s).symbols := by
  unfold subst
  simp only
  split
  · rfl
  · exact symbols_simplify _

/-- The replacement of a parameter in both substitutions at once. -/
theorem image_composes (h : u.Composes s t) (q : Parameter) :
    image u q = if q ∈ Assoc.keys s then (image s q).subst t else image t q := by
  unfold image
  rw [h q]
  cases hs : Assoc.find? q s with
  | none => simp [(Assoc.find?_eq_none_iff q s).1 hs]
  | some r =>
    have hkey : q ∈ Assoc.keys s := List.mem_map_of_mem (f := Prod.fst) (Assoc.mem_of_find? hs)
    simp [hkey]

theorem eval_replace_replace (h : u.Composes s t) (e : ParamExpr R) :
    ((e.replace s).replace t).eval = (e.replace u).eval := by
  induction e with
  | const x | pi => rfl
  | sym q =>
    show ((image s q).replace t).eval = (image u q).eval
    rw [image_composes h]
    split
    · exact (eval_subst t _).symm
    · rename_i hkey
      rw [replace_image_of_not_key hkey]
  | neg a ih => simp only [replace, eval, ih]
  | add a b iha ihb | sub a b iha ihb | mul a b iha ihb | div a b iha ihb =>
    simp only [replace, eval, iha, ihb]

theorem symbols_replace_replace (h : u.Composes s t) (e : ParamExpr R) :
    ((e.replace s).replace t).symbols = (e.replace u).symbols := by
  induction e with
  | const x | pi => rfl
  | sym q =>
    show ((image s q).replace t).symbols = (image u q).symbols
    rw [image_composes h]
    split
    · exact (symbols_subst t _).symm
    · rename_i hkey
      rw [replace_image_of_not_key hkey]
  | neg a ih => exact ih
  | add a b iha ihb | sub a b iha ihb | mul a b iha ihb | div a b iha ihb =>
    simp only [replace, symbols, iha, ihb]

/-- What was folded after the first substitution has nothing left for the second. -/
theorem replace_subst_cases (s t : Binding R) (e : ParamExpr R) :
    (e.subst s).replace t = (e.replace s).replace t ∨
      (e.replace s).replace t = e.replace s ∧ (e.subst s).replace t = (e.replace s).simplify := by
  cases hleft : (e.replace s).isSymbolic with
  | true => exact .inl (by simp only [subst, hleft, if_true])
  | false =>
    have hnone : (e.replace s).symbols = [] := isSymbolic_eq_false_iff.1 hleft
    refine .inr ⟨replace_of_symbols_eq_nil hnone, ?_⟩
    simp only [subst, hleft, Bool.false_eq_true, if_false]
    exact replace_of_symbols_eq_nil (by rw [symbols_simplify, hnone])

theorem eval_subst_subst (h : u.Composes s t) (e : ParamExpr R) :
    ((e.subst s).subst t).eval = (e.subst u).eval := by
  rw [eval_subst, eval_subst, ← eval_replace_replace h]
  rcases replace_subst_cases s t e with hleft | ⟨hsame, hfolded⟩
  · rw [hleft]
  · rw [hfolded, hsame, eval_simplify]

theorem symbols_subst_subst (h : u.Composes s t) (e : ParamExpr R) :
    ((e.subst s).subst t).symbols = (e.subst u).symbols := by
  rw [symbols_subst, symbols_subst, ← symbols_replace_replace h]
  rcases replace_subst_cases s t e with hleft | ⟨hsame, hfolded⟩
  · rw [hleft]
  · rw [hfolded, hsame, symbols_simplify]

/-! ## Trees and parameters -/

/-- Without parameters in the first replacements nothing is folded too early. -/
theorem subst_subst_of_unites (hs : s.Numeric) (hw : w.Unites s t) (e : ParamExpr R) :
    (e.subst s).subst t = e.subst w :=
  (subst_subst hs e).trans (subst_congr fun q _ => image_eq_of_unites hw q).symm

/-- Left are the parameters without a replacement, and those of the replacements put in. -/
theorem mem_parameters_subst_iff : p ∈ (e.subst s).parameters ↔
    p ∈ e.parameters ∧ p ∉ Assoc.keys s ∨
      ∃ q ∈ e.parameters, ∃ r, Assoc.find? q s = some r ∧ p ∈ r.parameters := by
  simp only [mem_parameters_iff, mem_symbols_subst_iff, Content.mem_symbols_image_iff]
  constructor
  · rintro ⟨q, hq, ⟨rfl, hkey⟩ | hreplaced⟩
    · exact .inl ⟨hq, hkey⟩
    · exact .inr ⟨q, hq, hreplaced⟩
  · rintro (⟨hp, hkey⟩ | ⟨q, hq, hreplaced⟩)
    · exact ⟨p, hp, .inl ⟨rfl, hkey⟩⟩
    · exact ⟨q, hq, .inr hreplaced⟩

/-- To substitute twice gives the value and the parameters, in their order, that the two
substitutions at once give; and it gives the same tree as their union if they have no key in common
and the replacements of the first have no parameters. Left by a substitution are the parameters that
it does not replace and those of the replacements it puts in. -/
theorem subst_composes (s t : Binding R) (e : ParamExpr R) :
    ((s.andThen t).Composes s t ∧ ∀ u : Binding R, u.Composes s t →
      ((e.subst s).subst t).eval = (e.subst u).eval ∧
      ((e.subst s).subst t).parameters = (e.subst u).parameters) ∧
    ((∀ p ∈ Assoc.keys s, p ∉ Assoc.keys t) → s.Numeric →
      (s ++ t).Unites s t ∧ ∀ w : Binding R, w.Unites s t → (e.subst s).subst t = e.subst w) ∧
    ∀ p, p ∈ (e.subst s).parameters ↔ p ∈ e.parameters ∧ p ∉ Assoc.keys s ∨
      ∃ q ∈ e.parameters, ∃ r, Assoc.find? q s = some r ∧ p ∈ r.parameters := by
  refine ⟨⟨Binding.composes_andThen s t, fun u hu => ⟨eval_subst_subst hu e, ?_⟩⟩,
    fun hdisjoint hs => ⟨Binding.unites_append hdisjoint, fun w hw => ?_⟩,
    fun p => mem_parameters_subst_iff⟩
  · exact congrArg Distinct.ofList (symbols_subst_subst hu e)
  · exact subst_subst_of_unites hs hw e

end Arithmetic

def numerator : Parameter := ⟨"x", ⟨0, 0⟩, none⟩

def denominator : Parameter := ⟨"y", ⟨1, 0⟩, none⟩

/-- A quotient that has no value once `0` is put below. To put it there before or after the number
above leaves one tree; and `y` may come to stand above first, with `0 / 0` left in the end. -/
theorem quotient_composes :
    let e : ParamExpr Float := .div (.sym numerator) (.sym denominator)
    let above : Binding Float := [(numerator, .const 1)]
    let below : Binding Float := [(denominator, .const 0)]
    (e.subst above).subst below = e.subst (below ++ above) ∧
      ((e.subst [(numerator, .sym denominator)]).subst below).eval =
        (e.subst [(numerator, .const 0), (denominator, .const 0)]).eval := by
  intro e above below
  have hdisjoint : ∀ p ∈ Assoc.keys above, p ∉ Assoc.keys below := by decide
  have habove : above.Numeric := fun u hu => by obtain rfl := List.mem_singleton.1 hu; rfl
  obtain ⟨⟨hcomposes, hsame⟩, -⟩ := subst_composes [(numerator, .sym denominator)] below e
  refine ⟨?_, (hsame _ hcomposes).1⟩
  refine ((subst_composes above below e).2.1 hdisjoint habove).2 _ ?_
  exact (Binding.unites_append (by decide)).symm

end ParamExpr

end QuantumCircuit
