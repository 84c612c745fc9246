import Mathlib.Algebra.Group.Nat.Defs
import Mathlib.Order.Bounds.Defs
import QuantumCircuit.Proofs.Inferring

/-!
# Widths of literals

An unsigned literal fits a width exactly if it lies below that power of two, for every width up to
the largest (`Value.fits_uint_iff`), and its natural type has the least such width that is not zero
(`Value.isLeast_naturalWidth`): zero fits no bits at all, but takes one. Asked for a type, a literal
takes it if it has it (`Value.HasType`) and is refused otherwise, and nothing else is ever given
another type (`Expr.widths_exact`).
-/

namespace QuantumCircuit

namespace Value

/-- That the literal is one of the values of the type. -/
inductive HasType : Value → Ty → Prop
  | bool (b : Bool) : HasType (.bool b) .bool
  | float (x : Float) : HasType (.float x) .float
  | uint {n : UInt64} {width : UInt32} : n.toNat < 2 ^ width.toNat →
      HasType (.uint n) (.uint width)

variable {n : UInt64} {width : UInt32} {v : Value} {t : Ty}

/-- A width of 64 or more is not shifted by, and holds every literal. -/
theorem fits_uint_iff : (uint n).fits (.uint width) = true ↔ n.toNat < 2 ^ width.toNat := by
  show (decide (64 ≤ width) || n >>> width.toUInt64 == 0) = true ↔ _
  rw [Bool.or_eq_true, decide_eq_true_eq, beq_iff_eq]
  by_cases hwide : 64 ≤ width
  · refine iff_of_true (.inl hwide) ?_
    calc n.toNat < 2 ^ 64 := n.toNat_lt
      _ ≤ 2 ^ width.toNat := Nat.pow_le_pow_right (by decide) (UInt32.le_iff_toNat_le.1 hwide)
  · have hnarrow : width.toNat < 64 := Nat.lt_of_not_le fun h => hwide (UInt32.le_iff_toNat_le.2 h)
    have hshift : (n >>> width.toUInt64).toNat = n.toNat / 2 ^ width.toNat := by
      rw [UInt64.toNat_shiftRight, UInt32.toNat_toUInt64, Nat.mod_eq_of_lt hnarrow,
        Nat.shiftRight_eq_div_pow]
    rw [or_iff_right hwide, ← UInt64.toNat_inj, hshift]
    exact Nat.div_eq_zero_iff_lt (Nat.two_pow_pos _)

theorem fits_iff_hasType : v.fits t = true ↔ v.HasType t := by
  constructor
  · intro h
    match v, t, h with
    | .bool b, .bool, _ => exact .bool b
    | .float x, .float, _ => exact .float x
    | .uint n, .uint width, h => exact .uint (fits_uint_iff.1 h)
  · rintro (_ | _ | hlt)
    · rfl
    · rfl
    · exact fits_uint_iff.2 hlt

/-! ## Natural types -/

theorem lt_two_pow_bitLength (n : UInt64) : n.toNat < 2 ^ bitLength n :=
  BitVec.toNat_lt_two_pow_sub_clz

theorem bitLength_le_of_lt {k : Nat} (h : n.toNat < 2 ^ k) : bitLength n ≤ k := by
  by_cases hzero : n.toBitVec = 0#64
  · -- all bits of the word are leading zeros
    have hclz : n.toBitVec.clz = 64#64 := BitVec.clz_eq_iff_eq_zero.2 hzero
    rw [bitLength, hclz]
    exact Nat.zero_le k
  · have hleading : 2 ^ (63 - n.toBitVec.clz.toNat) ≤ n.toNat :=
      BitVec.two_pow_sub_clz_le_toNat_of_ne_zero (by decide) hzero
    have hlt : 63 - n.toBitVec.clz.toNat < k :=
      (Nat.pow_lt_pow_iff_right (by decide)).1 (Nat.lt_of_le_of_lt hleading h)
    rw [bitLength]
    omega

/-- The width of the natural type of an unsigned literal. -/
def naturalWidth (n : UInt64) : Nat := max (bitLength n) 1

theorem isLeast_naturalWidth (n : UInt64) :
    IsLeast {k | 1 ≤ k ∧ n.toNat < 2 ^ k} (naturalWidth n) := by
  refine ⟨⟨Nat.le_max_right _ _, ?_⟩, fun k hk => Nat.max_le.2 ⟨bitLength_le_of_lt hk.2, hk.1⟩⟩
  calc n.toNat < 2 ^ bitLength n := lt_two_pow_bitLength n
    _ ≤ 2 ^ naturalWidth n := Nat.pow_le_pow_right (by decide) (Nat.le_max_left _ _)

theorem naturalWidth_le (n : UInt64) : naturalWidth n ≤ 64 :=
  (isLeast_naturalWidth n).2 ⟨by decide, n.toNat_lt⟩

theorem toNat_naturalWidth (n : UInt64) : (UInt32.ofNat (naturalWidth n)).toNat = naturalWidth n :=
  UInt32.toNat_ofNat_of_lt (Nat.lt_of_le_of_lt (naturalWidth_le n) (by decide))

theorem fits_naturalType (v : Value) : v.fits v.naturalType = true := by
  cases v with
  | bool b | float x => rfl
  | uint n =>
    refine fits_uint_iff.2 ?_
    rw [← naturalWidth, toNat_naturalWidth]
    exact (isLeast_naturalWidth n).1.2

end Value

namespace Expr

variable {e : Expr} {v : Value} {t : Ty}

/-! ## Asking for a type -/

theorem lift_literal (v : Value) (t : Ty) : lift (literal v) (some t) =
    if v.fits t then .ok (value v t) else .error (.typeMismatch v.text t v.naturalType) := by
  split
  · rename_i hfits
    exact lift_literal_of_fits hfits
  · rename_i hfits
    have hother : v.naturalType ≠ t := fun h => hfits (h ▸ v.fits_naturalType)
    simp [lift, literal, hfits, type, text, hother]

theorem lift_of_not_literal (h : ∀ v u, e ≠ value v u) (t : Ty) : lift e (some t) =
    if e.type = t then .ok e else .error (.typeMismatch e.text t e.type) := by
  cases e with
  | value v u => exact absurd rfl (h v u)
  | var | stretch | clbit | register | unary | binary | cast | index => rfl

/-- An unsigned literal fits a width exactly if it lies below that power of two. The width of its
natural type is the least such width from one on, and at most 64. A naturally typed literal takes
exactly the types that it has, with its value kept; any other expression stays as it is if it has
the type, and is refused if it has not. -/
theorem widths_exact :
    (∀ (n : UInt64) (width : UInt32),
      (Value.uint n).fits (.uint width) = true ↔ n.toNat < 2 ^ width.toNat) ∧
    (∀ n : UInt64, ∃ width : UInt32, (Value.uint n).naturalType = .uint width ∧
      IsLeast {k | 1 ≤ k ∧ n.toNat < 2 ^ k} width.toNat ∧ width.toNat ≤ 64) ∧
    (∀ (v : Value) (t : Ty), (v.fits t = true ↔ v.HasType t) ∧
      (v.fits t = true → lift (literal v) (some t) = .ok (value v t)) ∧
      (v.fits t = false →
        lift (literal v) (some t) = .error (.typeMismatch v.text t v.naturalType))) ∧
    ∀ (e : Expr) (t : Ty), (∀ v u, e ≠ value v u) →
      (e.type = t → lift e (some t) = .ok e) ∧
      (e.type ≠ t → lift e (some t) = .error (.typeMismatch e.text t e.type)) := by
  refine ⟨fun n width => Value.fits_uint_iff, fun n => ?_, fun v t => ?_, fun e t hother => ?_⟩
  · refine ⟨.ofNat (Value.naturalWidth n), rfl, ?_, ?_⟩
    · rw [Value.toNat_naturalWidth]
      exact Value.isLeast_naturalWidth n
    · rw [Value.toNat_naturalWidth]
      exact Value.naturalWidth_le n
  · rw [lift_literal]
    exact ⟨Value.fits_iff_hasType, fun h => if_pos h, fun h => if_neg (by rw [h]; decide)⟩
  · rw [lift_of_not_literal hother]
    exact ⟨fun h => if_pos h, fun h => if_neg h⟩

/-- Zero fits no bits but takes one; the greatest literal fits 64 bits and not 63. A register keeps
its width, though its value might fit another. -/
theorem widths_exact_at_bounds :
    (Value.uint 0).fits (.uint 0) = true ∧
    (Value.uint 0xFFFFFFFFFFFFFFFF).fits (.uint 0xFFFFFFFF) = true ∧
    lift (literal (.uint 0xFFFFFFFFFFFFFFFF)) (some (.uint 63)) =
      .error (.typeMismatch "18446744073709551615" (.uint 63) (.uint 64)) ∧
    lift (register twoBits) (some (.uint 2)) = .ok (register twoBits) ∧
    lift (register twoBits) (some (.uint 3)) =
      .error (.typeMismatch "r" (.uint 3) (.uint 2)) := by
  obtain ⟨hfits, -, hliteral, hother⟩ := widths_exact
  have hregister := fun t => hother (register twoBits) t fun _ _ => nofun
  refine ⟨(hfits 0 0).2 (by decide), (hfits _ _).2 ?_, ?_, (hregister _).1 rfl, ?_⟩
  · calc (0xFFFFFFFFFFFFFFFF : UInt64).toNat < 2 ^ 64 := UInt64.toNat_lt _
      _ ≤ 2 ^ (0xFFFFFFFF : UInt32).toNat := Nat.pow_le_pow_right (by decide) (by decide)
  · exact (hliteral _ _).2.2 (by decide)
  · exact (hregister _).2 (by decide)

end Expr

end QuantumCircuit
