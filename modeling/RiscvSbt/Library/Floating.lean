import Mathlib.Data.Rat.Floor
import Mathlib.Tactic.Linarith
import Mathlib.Tactic.NormNum

/-! Binary floating-point numbers by their values.

A number is NaN, an infinity or a rational that its format represents. Comparisons are ordered:
they are false on NaN. -/
namespace RiscvSbt.Library

/-- A format: significands of `precision` bits, scaled by powers of two. -/
structure Format where
  precision : Nat
  emin : Int
  emax : Int

def Format.single : Format := ⟨24, -149, 104⟩
def Format.double : Format := ⟨53, -1074, 971⟩

def Format.Representable (f : Format) (q : ℚ) : Prop :=
  ∃ m e : ℤ, q = m * (2 : ℚ) ^ e ∧ |m| < 2 ^ f.precision ∧ f.emin ≤ e ∧ e ≤ f.emax

inductive Floating (f : Format) where
  | nan
  | inf (neg : Bool)
  | fin (q : ℚ) (h : f.Representable q)

namespace Floating
variable {f : Format}

/-- The ordered comparison `<`. -/
def olt : Floating f → Floating f → Bool
  | nan, _ | _, nan => false
  | inf neg, inf neg' => neg && !neg'
  | inf neg, fin _ _ => neg
  | fin _ _, inf neg => !neg
  | fin q _, fin q' _ => q < q'

/-- The ordered comparison `=`. -/
def oeq : Floating f → Floating f → Bool
  | inf neg, inf neg' => neg == neg'
  | fin q _, fin q' _ => q = q'
  | _, _ => false

end Floating

/-! ### Rounding -/

/-- An integer rounded to a format's precision: to the nearest, and to even between two. -/
def Format.roundInt (f : Format) (n : ℤ) : ℤ :=
  let e := n.natAbs.log2 + 1 - f.precision
  let m := n / 2 ^ e
  let r := n % 2 ^ e
  if 2 * r < 2 ^ e ∨ 2 * r = 2 ^ e ∧ m % 2 = 0 then m * 2 ^ e else (m + 1) * 2 ^ e

example : Format.single.roundInt (2 ^ 24 + 1) = 2 ^ 24 := by decide
example : Format.single.roundInt (2 ^ 24 + 3) = 2 ^ 24 + 4 := by decide

/-- Integers of a format's precision are represented. -/
theorem Format.representable_intCast {f : Format} {n : ℤ} (h : |n| < 2 ^ f.precision)
    (hmin : f.emin ≤ 0) (hmax : 0 ≤ f.emax) : f.Representable n :=
  ⟨n, 0, by simp, h, hmin, hmax⟩

/-- A large number is an integer. -/
theorem Format.Representable.isInt {f : Format} {q : ℚ} (h : f.Representable q)
    (hq : 2 ^ f.precision ≤ |q|) : ∃ n : ℤ, q = n := by
  obtain ⟨m, e, rfl, hm, -, -⟩ := h
  obtain ⟨k, rfl | rfl⟩ := e.eq_nat_or_neg
  · exact ⟨m * 2 ^ k, by push_cast; rw [zpow_natCast]⟩
  · -- with a scale of at most one it is not large
    have hscale : (2 : ℚ) ^ (-(k : ℤ)) ≤ 1 := zpow_le_one_of_nonpos₀ one_le_two (by omega)
    have hpos : (0 : ℚ) ≤ (2 : ℚ) ^ (-(k : ℤ)) := zpow_nonneg zero_le_two _
    have hm' : |(m : ℚ)| < 2 ^ f.precision := by exact_mod_cast hm
    have hle : |(m : ℚ) * 2 ^ (-(k : ℤ))| ≤ |(m : ℚ)| := by
      rw [abs_mul, abs_of_nonneg hpos]
      exact mul_le_of_le_one_right (abs_nonneg _) hscale
    exact absurd (lt_of_le_of_lt hle hm') (not_lt.2 hq)

/-! ### Truncation -/

/-- Rounding toward zero. -/
def trunc (q : ℚ) : ℤ := if 0 ≤ q then ⌊q⌋ else ⌈q⌉

theorem le_trunc {n : ℤ} {q : ℚ} (h : (n : ℚ) ≤ q) (hn : n ≤ 0) : n ≤ trunc q := by
  unfold trunc
  split
  next hq => exact le_trans hn (Int.floor_nonneg.2 hq)
  next => exact Int.cast_le.1 (le_trans h (Int.le_ceil q))

theorem trunc_le {n : ℤ} {q : ℚ} (h : q ≤ n) (hn : 0 ≤ n) : trunc q ≤ n := by
  unfold trunc
  split
  next => exact Int.cast_le.1 (le_trans (Int.floor_le q) h)
  next hq => exact le_trans (Int.ceil_le.2 (by exact_mod_cast le_of_not_ge hq)) hn

theorem trunc_intCast (n : ℤ) : trunc n = n := by
  unfold trunc
  split
  · exact Int.floor_intCast n
  · exact Int.ceil_intCast n

end RiscvSbt.Library
