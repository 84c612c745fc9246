import QuantumCircuit.Proofs.Substitution

/-!
# Folding and substituting again

Simplifying neither gives nor takes a value (`ParamExpr.eval_simplify`), and what was
simplified stays as it is (`ParamExpr.simplify_simplify`). No law of the arithmetic is
used: where a number is dropped, a parameter is left or a division is by zero.

A substitution depends on the replacements of the parameters that occur, and on no others
(`ParamExpr.subst_congr`). Replacements without parameters may be put in one part after
another: nothing is folded before the last parameter is gone, and what is folded then is
no longer changed (`ParamExpr.subst_subst`).
-/

namespace QuantumCircuit

/-- That no replacement has a parameter. -/
def Binding.Numeric {R : Type} (s : Binding R) : Prop := ∀ u ∈ s, u.2.isSymbolic = false

namespace ParamExpr

variable {R : Type} {p : Parameter} {s t : Binding R} {e : ParamExpr R}

theorem isSymbolic_eq_false_iff : e.isSymbolic = false ↔ e.symbols = [] := by
  induction e with
  | const x | pi | sym q => simp [isSymbolic, symbols]
  | neg a ih => exact ih
  | add a b iha ihb | sub a b iha ihb | mul a b iha ihb | div a b iha ihb =>
    simp only [isSymbolic, symbols, Bool.or_eq_false_iff, List.append_eq_nil_iff, iha, ihb]

/-! ## Replacements -/

theorem replace_nil (e : ParamExpr R) : e.replace [] = e := by
  induction e with
  | const x | pi | sym q => rfl
  | neg a ih => rw [replace, ih]
  | add a b iha ihb | sub a b iha ihb | mul a b iha ihb | div a b iha ihb =>
    rw [replace, iha, ihb]

theorem replace_congr (h : ∀ q ∈ e.symbols, image s q = image t q) :
    e.replace s = e.replace t := by
  induction e with
  | const x | pi => rfl
  | sym q => exact h q (List.mem_singleton.2 rfl)
  | neg a ih => rw [replace, replace, ih h]
  | add a b iha ihb | sub a b iha ihb | mul a b iha ihb | div a b iha ihb =>
    have ha := iha fun q hq => h q (List.mem_append_left _ hq)
    have hb := ihb fun q hq => h q (List.mem_append_right _ hq)
    rw [replace, replace, ha, hb]

theorem replace_of_not_key (h : ∀ q ∈ e.symbols, q ∉ Assoc.keys s) : e.replace s = e := by
  refine (replace_congr fun q hq => ?_).trans (replace_nil e)
  exact Content.image_of_not_key (h q hq)

theorem replace_of_symbols_eq_nil (h : e.symbols = []) : e.replace s = e :=
  replace_of_not_key fun _ hq => absurd (h ▸ hq) List.not_mem_nil

theorem image_append (s t : Binding R) (q : Parameter) :
    image (s ++ t) q = if q ∈ Assoc.keys s then image s q else image t q := by
  unfold image
  rw [Assoc.find?_append_eq_ite]
  split <;> rfl

end ParamExpr

namespace Binding.Numeric

variable {R : Type} {p : Parameter} {s t : Binding R}

theorem append (hs : s.Numeric) (ht : t.Numeric) : (s ++ t).Numeric := by
  intro u hu
  rcases List.mem_append.1 hu with hu | hu
  · exact hs u hu
  · exact ht u hu

theorem symbols_of_find? {r : ParamExpr R} (hs : s.Numeric) (h : Assoc.find? p s = some r) :
    r.symbols = [] :=
  ParamExpr.isSymbolic_eq_false_iff.1 (hs _ (Assoc.mem_of_find? h))

/-- Numbers stand for themselves only where no key is. -/
theorem mem_symbols_image_iff {q : Parameter} (hs : s.Numeric) :
    p ∈ (ParamExpr.image s q).symbols ↔ p = q ∧ q ∉ Assoc.keys s := by
  rw [Content.mem_symbols_image_iff]
  refine or_iff_left ?_
  rintro ⟨r, hr, hp⟩
  rw [hs.symbols_of_find? hr] at hp
  exact List.not_mem_nil hp

/-- What stands for a key has no parameter. -/
theorem symbols_image (hs : s.Numeric) (hp : p ∈ Assoc.keys s) :
    (ParamExpr.image s p).symbols = [] :=
  List.eq_nil_iff_forall_not_mem.2 fun _ hq => (hs.mem_symbols_image_iff.1 hq).2 hp

end Binding.Numeric

namespace ParamExpr

variable {R : Type} {p : Parameter} {s t : Binding R} {e : ParamExpr R}

theorem replace_replace (hs : s.Numeric) : (e.replace s).replace t = e.replace (s ++ t) := by
  induction e with
  | const x | pi => rfl
  | sym q =>
    show (image s q).replace t = image (s ++ t) q
    rw [image_append]
    split
    · rename_i hq
      exact replace_of_symbols_eq_nil (hs.symbols_image hq)
    · rename_i hq
      rw [Content.image_of_not_key hq]
      rfl
  | neg a ih => simp only [replace, ih]
  | add a b iha ihb | sub a b iha ihb | mul a b iha ihb | div a b iha ihb =>
    simp only [replace, iha, ihb]

section Arithmetic

variable [Arithmetic R]

/-! ## Simplifying -/

theorem eval_simplifiedAdd (a b : ParamExpr R) : (simplifiedAdd a b).eval = (add a b).eval := by
  unfold simplifiedAdd
  cases ha : a.eval <;> cases hb : b.eval <;> simp only
  · split <;> simp [eval, ha, hb]
  · split <;> simp [eval, ha, hb]
  · simp [eval, ha, hb]

theorem eval_simplifiedSub (a b : ParamExpr R) : (simplifiedSub a b).eval = (sub a b).eval := by
  unfold simplifiedSub
  cases ha : a.eval <;> cases hb : b.eval <;> simp only
  · split <;> simp [eval, ha, hb]
  · simp [eval, ha, hb]

theorem eval_simplifiedMul (a b : ParamExpr R) : (simplifiedMul a b).eval = (mul a b).eval := by
  unfold simplifiedMul
  cases ha : a.eval <;> cases hb : b.eval <;> simp [eval, ha, hb]

theorem eval_simplifiedDiv (a b : ParamExpr R) : (simplifiedDiv a b).eval = (div a b).eval := by
  unfold simplifiedDiv
  cases ha : a.eval <;> cases hb : b.eval <;> simp only
  split <;> rename_i hzero <;> simp [eval, ha, hb, hzero]

/-- What has a value is folded to it, so only the rest is to be looked at. -/
theorem eval_simplify_of (h : e.eval = none → e.simplify.eval = none) :
    e.simplify.eval = e.eval := by
  cases hvalue : e.eval with
  | none => exact h hvalue
  | some x =>
    rw [simplify_of_eval hvalue]
    rfl

/-- Simplifying neither gives nor takes a value. -/
theorem eval_simplify (e : ParamExpr R) : e.simplify.eval = e.eval := by
  induction e with
  | const x | pi | sym q => rfl
  | neg a ih =>
    refine eval_simplify_of fun h => ?_
    have ha : a.simplify.eval = none := ih.trans (Option.map_eq_none_iff.1 h)
    rw [simplify_neg h ha, eval, ha]
    rfl
  | add a b iha ihb =>
    refine eval_simplify_of fun h => ?_
    rw [simplify_add h, eval_simplifiedAdd, eval, iha, ihb]
    exact h
  | sub a b iha ihb =>
    refine eval_simplify_of fun h => ?_
    rw [simplify_sub h, eval_simplifiedSub, eval, iha, ihb]
    exact h
  | mul a b iha ihb =>
    refine eval_simplify_of fun h => ?_
    rw [simplify_mul h, eval_simplifiedMul, eval, iha, ihb]
    exact h
  | div a b iha ihb =>
    refine eval_simplify_of fun h => ?_
    rw [simplify_div h, eval_simplifiedDiv, eval, iha, ihb]
    exact h

/-- A node that its parts leave without a value is a part, or the node. -/
theorem simplifiedAdd_of_eval {a b : ParamExpr R} (h : (add a b).eval = none) :
    simplifiedAdd a b = a ∨ simplifiedAdd a b = b ∨ simplifiedAdd a b = add a b := by
  unfold simplifiedAdd
  cases ha : a.eval <;> cases hb : b.eval <;> simp only
  · simp
  · split <;> simp
  · split <;> simp
  · simp [eval, ha, hb] at h

theorem simplifiedSub_of_eval {a b : ParamExpr R} (h : (sub a b).eval = none) :
    simplifiedSub a b = a ∨ simplifiedSub a b = sub a b := by
  unfold simplifiedSub
  cases ha : a.eval <;> cases hb : b.eval <;> simp only
  · simp
  · split <;> simp
  · simp
  · simp [eval, ha, hb] at h

theorem simplifiedMul_of_eval {a b : ParamExpr R} (h : (mul a b).eval = none) :
    simplifiedMul a b = mul a b := by
  unfold simplifiedMul
  cases ha : a.eval <;> cases hb : b.eval <;> simp only
  simp [eval, ha, hb] at h

theorem simplifiedDiv_of_eval {a b : ParamExpr R} (h : (div a b).eval = none) :
    simplifiedDiv a b = div a b := by
  unfold simplifiedDiv
  cases ha : a.eval <;> cases hb : b.eval <;> simp only
  split
  · rfl
  · rename_i hzero
    simp [eval, ha, hb, hzero] at h

theorem simplify_simplify_of (h : e.eval = none → e.simplify.simplify = e.simplify) :
    e.simplify.simplify = e.simplify := by
  cases hvalue : e.eval with
  | none => exact h hvalue
  | some x =>
    rw [simplify_of_eval hvalue]
    rfl

/-- What was simplified stays as it is. -/
theorem simplify_simplify (e : ParamExpr R) : e.simplify.simplify = e.simplify := by
  induction e with
  | const x | pi | sym q => rfl
  | neg a ih =>
    refine simplify_simplify_of fun h => ?_
    have ha : a.simplify.eval = none := (eval_simplify a).trans (Option.map_eq_none_iff.1 h)
    have h' : (neg a.simplify).eval = none := by
      rw [eval, ha]
      rfl
    rw [simplify_neg h ha, simplify_neg h' (ih.symm ▸ ha), ih]
  | add a b iha ihb =>
    refine simplify_simplify_of fun h => ?_
    have h' : (add a.simplify b.simplify).eval = none := by
      rw [eval, eval_simplify, eval_simplify]
      exact h
    rw [simplify_add h]
    rcases simplifiedAdd_of_eval h' with heq | heq | heq
    · rw [heq, iha]
    · rw [heq, ihb]
    · rw [heq, simplify_add h', iha, ihb, heq]
  | sub a b iha ihb =>
    refine simplify_simplify_of fun h => ?_
    have h' : (sub a.simplify b.simplify).eval = none := by
      rw [eval, eval_simplify, eval_simplify]
      exact h
    rw [simplify_sub h]
    rcases simplifiedSub_of_eval h' with heq | heq
    · rw [heq, iha]
    · rw [heq, simplify_sub h', iha, ihb, heq]
  | mul a b iha ihb =>
    refine simplify_simplify_of fun h => ?_
    have h' : (mul a.simplify b.simplify).eval = none := by
      rw [eval, eval_simplify, eval_simplify]
      exact h
    rw [simplify_mul h, simplifiedMul_of_eval h', simplify_mul h', iha, ihb,
      simplifiedMul_of_eval h']
  | div a b iha ihb =>
    refine simplify_simplify_of fun h => ?_
    have h' : (div a.simplify b.simplify).eval = none := by
      rw [eval, eval_simplify, eval_simplify]
      exact h
    rw [simplify_div h, simplifiedDiv_of_eval h', simplify_div h', iha, ihb,
      simplifiedDiv_of_eval h']

/-! ## Substitution -/

theorem subst_congr (h : ∀ q ∈ e.symbols, image s q = image t q) : e.subst s = e.subst t := by
  unfold subst
  rw [replace_congr h]

/-- A formula without parameters is only folded. -/
theorem subst_of_symbols_eq_nil (h : e.symbols = []) : e.subst s = e.simplify := by
  have hsame : e.replace s = e := replace_of_symbols_eq_nil h
  have hplain : e.isSymbolic = false := isSymbolic_eq_false_iff.2 h
  simp only [subst, hsame, hplain, Bool.false_eq_true, if_false]

/-- Replacements without parameters may be put in one part after another. -/
theorem subst_subst (hs : s.Numeric) (e : ParamExpr R) :
    (e.subst s).subst t = e.subst (s ++ t) := by
  cases hleft : (e.replace s).isSymbolic with
  | true =>
    -- nothing was folded yet
    have hopen : e.subst s = e.replace s := by simp only [subst, hleft, if_true]
    rw [hopen, subst, subst, replace_replace hs]
  | false =>
    have hnone : (e.replace s).symbols = [] := isSymbolic_eq_false_iff.1 hleft
    have hclosed : e.subst s = (e.replace s).simplify := by
      simp only [subst, hleft, Bool.false_eq_true, if_false]
    have hboth : e.replace (s ++ t) = e.replace s := by
      rw [← replace_replace hs, replace_of_symbols_eq_nil hnone]
    rw [hclosed, subst_of_symbols_eq_nil (by rw [symbols_simplify, hnone]), simplify_simplify]
    simp only [subst, hboth, hleft, Bool.false_eq_true, if_false]

/-- Where no key is left, only the replacements of the first part counted. -/
theorem subst_append_of_not_key (h : ∀ q ∈ e.symbols, q ∉ Assoc.keys s → q ∉ Assoc.keys t) :
    e.subst (s ++ t) = e.subst s := by
  refine subst_congr fun q hq => ?_
  rw [image_append]
  split
  · rfl
  · rename_i hs
    rw [Content.image_of_not_key (h q hq hs), Content.image_of_not_key hs]

/-- Where no key of the first part occurs, only those of the second count. -/
theorem subst_append_of_absent (h : ∀ q ∈ e.symbols, q ∉ Assoc.keys s) :
    e.subst (s ++ t) = e.subst t := by
  refine subst_congr fun q hq => ?_
  rw [image_append, if_neg (h q hq)]

/-- Left by replacements without parameters is what is no key. -/
theorem mem_symbols_subst_iff_of_numeric (hs : s.Numeric) :
    p ∈ (e.subst s).symbols ↔ p ∈ e.symbols ∧ p ∉ Assoc.keys s := by
  rw [mem_symbols_subst_iff]
  simp only [hs.mem_symbols_image_iff]
  constructor
  · rintro ⟨q, hq, rfl, hkey⟩
    exact ⟨hq, hkey⟩
  · rintro ⟨hp, hkey⟩
    exact ⟨p, hp, rfl, hkey⟩

end Arithmetic

/-! ## Phases -/

section Phase

variable {p : Parameter} {s t : Binding Float} {e : Angle}

/-- A phase in which a parameter is left is not brought within one turn. -/
theorem normalizedPhase_of_mem (h : p ∈ e.symbols) : e.normalizedPhase = e := by
  unfold normalizedPhase
  cases hvalue : e.eval with
  | none => rfl
  | some x =>
    rw [symbols_eq_nil_of_eval hvalue] at h
    exact absurd h List.not_mem_nil

/-- What an assignment makes of a phase: it is replaced if it holds a key, and else stays. -/
def phaseAfter (s : Binding Float) (e : Angle) : Angle :=
  if ∃ q ∈ Assoc.keys s, q ∈ e.symbols then (e.subst s).normalizedPhase else e

theorem mem_symbols_phaseAfter_iff (hs : s.Numeric) :
    p ∈ (e.phaseAfter s).symbols ↔ p ∈ e.symbols ∧ p ∉ Assoc.keys s := by
  unfold phaseAfter
  split
  · rw [symbols_normalizedPhase, mem_symbols_subst_iff_of_numeric hs]
  · rename_i hnone
    constructor
    · intro hp
      exact ⟨hp, fun hkey => hnone ⟨p, hkey, hp⟩⟩
    · exact And.left

/-- A phase may be given numbers one after another as well. -/
theorem phaseAfter_phaseAfter (hs : s.Numeric) (e : Angle) :
    (e.phaseAfter s).phaseAfter t = e.phaseAfter (s ++ t) := by
  by_cases hfirst : ∃ q ∈ Assoc.keys s, q ∈ e.symbols
  · have hboth : ∃ q ∈ Assoc.keys (s ++ t), q ∈ e.symbols := by
      obtain ⟨q, hkey, hq⟩ := hfirst
      rw [Assoc.keys_append]
      exact ⟨q, List.mem_append_left _ hkey, hq⟩
    have hleft : e.phaseAfter s = (e.subst s).normalizedPhase := if_pos hfirst
    rw [show e.phaseAfter (s ++ t) = (e.subst (s ++ t)).normalizedPhase from if_pos hboth]
    by_cases hsecond : ∃ q ∈ Assoc.keys t, q ∈ (e.phaseAfter s).symbols
    · obtain ⟨q, -, hq⟩ := id hsecond
      rw [hleft, symbols_normalizedPhase] at hq
      -- a parameter is left, so nothing was folded
      have hopen : e.phaseAfter s = e.subst s := hleft.trans (normalizedPhase_of_mem hq)
      rw [phaseAfter, if_pos hsecond, hopen, subst_subst hs]
    · rw [phaseAfter, if_neg hsecond, hleft]
      refine congrArg normalizedPhase (subst_append_of_not_key fun q hq hs' ht => ?_).symm
      exact hsecond ⟨q, ht, (mem_symbols_phaseAfter_iff hs).2 ⟨hq, hs'⟩⟩
  · have habsent : ∀ q ∈ e.symbols, q ∉ Assoc.keys s := fun q hq hkey => hfirst ⟨q, hkey, hq⟩
    have hleft : e.phaseAfter s = e := if_neg hfirst
    have hiff : (∃ q ∈ Assoc.keys (s ++ t), q ∈ e.symbols) ↔ ∃ q ∈ Assoc.keys t, q ∈ e.symbols := by
      simp only [Assoc.keys_append, List.mem_append]
      constructor
      · rintro ⟨q, hkey | hkey, hq⟩
        · exact absurd hkey (habsent q hq)
        · exact ⟨q, hkey, hq⟩
      · rintro ⟨q, hkey, hq⟩
        exact ⟨q, .inr hkey, hq⟩
    rw [hleft, phaseAfter, phaseAfter, subst_append_of_absent habsent]
    simp only [hiff]

end Phase

end ParamExpr

end QuantumCircuit
