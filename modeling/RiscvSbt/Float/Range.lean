import RiscvSbt.Float.Convert

/-! What validated conversions do.

The tests store the bounds as floating constants, so that a conversion has code only where the
destination is `x0`. In that code NaN passes every test, and so does the upper bound where its
rounding is beyond it. -/
namespace RiscvSbt.Float
open Library

variable {it : IType} {ft : FType} {rd : Nat}

/-- The truncated input is an integer of the destination type. -/
def Fits {f : Format} (it : IType) (input : Floating f) : Prop :=
  ∃ q h, input = .fin q h ∧ it.min ≤ trunc q ∧ trunc q ≤ it.max

/-- What RISC-V prescribes. -/
def prescribed {f : Format} (it : IType) : Floating f → BitVec 32
  | .nan => BitVec.ofInt 32 it.max
  | .inf neg => BitVec.ofInt 32 (if neg then it.min else it.max)
  | .fin q _ => BitVec.ofInt 32 (Max.max it.min (Min.min it.max (trunc q)))

/-- There is code for the conversion. The host converts only what fits, and the destination
register ends with what RISC-V prescribes. -/
def Meets (it : IType) (ft : FType) (rd : Nat) (input : Floating ft.format) : Prop :=
  ∃ b, translateCVT true it ft rd = .ok b ∧
    ∀ x, ∃ s, run input b.code 10 .bbCur {x := x} = some s ∧
      (s.converted ≠ none → Fits it input) ∧ (rd ≠ 0 → s.x rd = .int (prescribed it input))

/-! ### Running the code -/

/-- The bounds that the input is compared with. -/
def minOf (ft : FType) (it : IType) : Floating ft.format :=
  fp ft.format it.min (representable_min ft it)

def maxOf (ft : FType) (it : IType) : Floating ft.format :=
  fp ft.format it.max (representable_max ft it)

def cvtCode {f : Format} : IType → Instr f
  | .F_W => .fpToSI
  | .F_WU => .fpToUI

/-- The code of a conversion to `x0`. -/
def testsOf (it : IType) (ft : FType) : Block → List (Instr ft.format)
  | .bbCur => [.condBr (.flt .input (.const (minOf ft it))) .bbOORNeg .bbNotOORNeg]
  | .bbNotOORNeg => [.condBr (.feq .input (.const (.inf true))) .bbNegInf .bbNotNegInf]
  | .bbNotNegInf => [.condBr (.flt (.const (maxOf ft it)) .input) .bbOORPos .bbNotOORPos]
  | .bbNotOORPos => [.condBr (.feq .input (.const (.inf false))) .bbPosInf .bbNotPosInf]
  | .bbNotPosInf => [cvtCode it, .br .bbEnd]
  | .bbEnd => []
  | _ => [.br .bbEnd]

theorem translateCVT_zero (it : IType) (ft : FType) :
    ∃ b, translateCVT true it ft 0 = .ok b ∧ b.code = testsOf it ft := by
  refine ⟨_, rfl, ?_⟩
  funext bb
  cases it <;> cases bb <;> rfl

/-- The lower bound is the first that is stored. -/
theorem translateCVT_reg (it : IType) (ft : FType) (hrd : rd ≠ 0) :
    translateCVT true it ft rd = .error "Ptr must be a pointer to Val type!" := by
  obtain ⟨r, rfl⟩ := Nat.exists_eq_succ_of_ne_zero hrd
  rfl

theorem meets_zero {input : Floating ft.format} : Meets it ft 0 input ↔
    ∀ x, ∃ s, run input (testsOf it ft) 10 .bbCur {x := x} = some s ∧
      (s.converted ≠ none → Fits it input) := by
  obtain ⟨b, hb, hcode⟩ := translateCVT_zero it ft
  constructor
  · rintro ⟨b', hb', h⟩ x
    obtain rfl := Except.ok.inj (hb.symm.trans hb')
    obtain ⟨s, hs, hfits, -⟩ := h x
    exact ⟨s, hcode ▸ hs, hfits⟩
  · intro h
    refine ⟨b, hb, fun x => ?_⟩
    obtain ⟨s, hs, hfits⟩ := h x
    exact ⟨s, hcode ▸ hs, hfits, fun hne => absurd rfl hne⟩

/-- An input reaches the conversion just if it passes the four tests. -/
def passes (it : IType) (input : Floating ft.format) : Bool :=
  !input.olt (minOf ft it) && !input.oeq (.inf true) && !(maxOf ft it).olt input &&
    !input.oeq (.inf false)

/-- The four tests, one after the other. -/
theorem run_eq (input : Floating ft.format) (x : Nat → Content) :
    run input (testsOf it ft) 10 .bbCur {x := x} =
      some {x := x, converted := if passes it input then some (convert it input) else none} := by
  have hcvt : runBlock input [cvtCode it, .br .bbEnd] {x := x} =
      ({x := x, converted := some (convert it input)}, some .bbEnd) := by
    cases it <;> rfl
  cases hmin : input.olt (minOf ft it) with
  | true => simp [run, runBlock, testsOf, passes, Cond.eval, Operand.eval, hmin]
  | false =>
  cases hninf : input.oeq (.inf true) with
  | true => simp [run, runBlock, testsOf, passes, Cond.eval, Operand.eval, hmin, hninf]
  | false =>
  cases hmax : (maxOf ft it).olt input with
  | true => simp [run, runBlock, testsOf, passes, Cond.eval, Operand.eval, hmin, hninf, hmax]
  | false =>
  cases hpinf : input.oeq (.inf false) with
  | true =>
    simp [run, runBlock, testsOf, passes, Cond.eval, Operand.eval, hmin, hninf, hmax, hpinf]
  | false =>
    simp [run, runBlock, testsOf, passes, Cond.eval, Operand.eval, hmin, hninf, hmax, hpinf, hcvt]

/-- What passes the tests is converted, fitting or not. -/
theorem meets_zero_iff {input : Floating ft.format} :
    Meets it ft 0 input ↔ (passes it input = true → Fits it input) := by
  rw [meets_zero]
  constructor
  · intro h hpass
    obtain ⟨s, hs, hfits⟩ := h fun _ => .poison
    rw [run_eq, if_pos hpass] at hs
    obtain rfl := Option.some.inj hs
    exact hfits (Option.some_ne_none _)
  · intro h x
    refine ⟨_, run_eq input x, fun hne => h ?_⟩
    by_contra hpass
    exact hne (if_neg hpass)

/-! ### The bounds -/

/-- The lower limits are represented in both formats. -/
theorem round_min (ft : FType) (it : IType) : ft.format.roundInt it.min = it.min := by
  cases ft <;> cases it <;> decide

/-- In single precision the upper limits are rounded up. -/
theorem round_max (ft : FType) (it : IType) :
    ft.format.roundInt it.max = it.max + (match ft with | .F_SINGLE => 1 | .F_DOUBLE => 0) := by
  cases ft <;> cases it <;> decide

/-- Between an upper limit and its rounding there is no other number. -/
theorem above_max {q : ℚ} (h : ft.format.Representable q) (hlt : (it.max : ℚ) < q)
    (hle : q ≤ (ft.format.roundInt it.max : ℤ)) : ft = .F_SINGLE ∧ q = (it.max + 1 : ℤ) := by
  rw [round_max] at hle
  cases ft with
  | F_DOUBLE =>
    rw [Int.add_zero] at hle
    exact absurd hle (not_le.2 hlt)
  | F_SINGLE =>
    have hlarge : (2 ^ Format.single.precision : ℚ) ≤ it.max := by
      cases it <;> norm_num [Format.single, IType.max]
    obtain ⟨n, rfl⟩ := h.isInt (le_trans (le_trans hlarge (le_of_lt hlt)) (le_abs_self q))
    have hlt' : it.max < n := by exact_mod_cast hlt
    have hle' : n ≤ it.max + 1 := by exact_mod_cast hle
    exact ⟨rfl, congrArg _ (by omega)⟩

/-! ### The inputs -/

theorem fits_of_le {q : ℚ} {h : ft.format.Representable q} (hmin : (it.min : ℚ) ≤ q)
    (hmax : q ≤ it.max) : Fits it (.fin q h : Floating ft.format) :=
  ⟨q, h, rfl, le_trunc hmin (by cases it <;> decide), trunc_le hmax (by cases it <;> decide)⟩

/-- One above the limit does not fit. -/
theorem not_fits_succ {q : ℚ} {h : ft.format.Representable q} (hq : q = (it.max + 1 : ℤ)) :
    ¬ Fits it (.fin q h : Floating ft.format) := by
  rintro ⟨q', h', heq, -, hle⟩
  obtain rfl := (Floating.fin.inj heq)
  rw [hq, trunc_intCast] at hle
  omega

theorem min_le_max (it : IType) : (it.min : ℚ) ≤ it.max := by
  cases it <;> norm_num [IType.min, IType.max]

/-- The numbers that pass are those between the bounds of the code. -/
theorem passes_fin {q : ℚ} {h : ft.format.Representable q} :
    passes it (.fin q h : Floating ft.format) = true ↔
      it.min ≤ q ∧ q ≤ (ft.format.roundInt it.max : ℤ) := by
  have hmin : (Floating.fin q h).olt (minOf ft it) = decide (q < it.min) := by
    show decide (q < (ft.format.roundInt it.min : ℤ)) = _
    rw [round_min]
  have hmax : (maxOf ft it).olt (.fin q h) = decide ((ft.format.roundInt it.max : ℤ) < q) := rfl
  have hinf (neg : Bool) : (Floating.fin q h).oeq (.inf neg) = false := rfl
  simp [passes, hmin, hmax, hinf]

/-- The condition of a conversion. To `x0` it does not matter what is stored, only what is
converted. -/
def Valid (it : IType) (ft : FType) (rd : Nat) (input : Floating ft.format) : Prop :=
  rd = 0 ∧ input ≠ .nan ∧ ¬ (ft = .F_SINGLE ∧ ∃ h, input = .fin (it.max + 1 : ℤ) h)

/-- A number that passes does not fit just if it is the rounded limit. -/
theorem meets_fin {q : ℚ} {h : ft.format.Representable q} :
    Meets it ft 0 (.fin q h) ↔ ¬ (ft = .F_SINGLE ∧ q = (it.max + 1 : ℤ)) := by
  rw [meets_zero_iff, passes_fin]
  constructor
  · rintro hfits ⟨rfl, hq⟩
    refine not_fits_succ hq (hfits ⟨?_, ?_⟩)
    · have hle := min_le_max it
      rw [hq]
      push_cast
      linarith
    · rw [round_max, hq]
  · rintro hne ⟨hmin, hround⟩
    refine fits_of_le hmin (not_lt.1 fun hlt => hne ?_)
    exact above_max h hlt hround

/-- A validated conversion meets RISC-V for just the valid inputs. -/
theorem meets_iff (it : IType) (ft : FType) (rd : Nat) (input : Floating ft.format) :
    Meets it ft rd input ↔ Valid it ft rd input := by
  by_cases hrd : rd = 0
  · subst hrd
    cases input with
    | nan =>
      have hnot : ¬ Fits it (.nan : Floating ft.format) := fun ⟨_, _, h, _⟩ => by cases h
      refine iff_of_false (fun h => hnot (meets_zero_iff.1 h rfl)) fun h => h.2.1 rfl
    | inf neg =>
      have hpass : passes it (.inf neg : Floating ft.format) = false := by
        cases neg <;> simp [passes, Floating.olt, Floating.oeq, minOf, maxOf, fp]
      refine iff_of_true (meets_zero_iff.2 fun h => ?_) ⟨rfl, (fun h => by cases h), ?_⟩
      · rw [hpass] at h
        cases h
      · rintro ⟨-, _, h⟩
        cases h
    | fin q h =>
      rw [meets_fin]
      constructor
      · refine fun hne => ⟨rfl, (fun h => by cases h), fun ⟨hft, _, heq⟩ => hne ⟨hft, ?_⟩⟩
        exact Floating.fin.inj heq
      · rintro ⟨-, -, hne⟩ ⟨hft, rfl⟩
        exact hne ⟨hft, h, rfl⟩
  · refine iff_of_false ?_ fun h => hrd h.1
    rintro ⟨b, hb, -⟩
    rw [translateCVT_reg it ft hrd] at hb
    cases hb

/-- `fcvt.w.s a0` has no code, not even for a zero; `fcvt.w.s zero` leaves NaN to the host. -/
theorem zero_and_nan_fail :
    ¬ Meets .F_W .F_SINGLE 10 (fp .single 0 (representable_min .F_SINGLE .F_WU)) ∧
      ¬ Meets .F_W .F_SINGLE 0 .nan := by
  constructor
  · rintro ⟨b, hb, -⟩
    rw [translateCVT_reg .F_W .F_SINGLE (by decide)] at hb
    cases hb
  · intro h
    obtain ⟨_, _, heq, -⟩ := meets_zero_iff.1 h rfl
    cases heq

end RiscvSbt.Float
