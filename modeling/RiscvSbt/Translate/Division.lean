import Mathlib.Tactic.Linarith
import RiscvSbt.Translate.Simulation

/-! Multiplications and divisions.

A product is extended to 64 bits, so that its high half is there whatever the signs. A
division is LLVM's, that is undefined where the ISA has results of its own. -/
namespace RiscvSbt.Translate
open Isa (Word Reg MulOp)
open Ir (Ty Val Value)
open Library Library.Emit
open Builder

/-! ### Operations on words -/

theorem signExtend_toInt (a : Word) : (a.signExtend 64).toInt = a.toInt :=
  BitVec.toInt_signExtend_of_le (by decide)

theorem setWidth_toInt (a : Word) : (a.setWidth 64).toInt = a.toNat := by
  have := a.isLt
  rw [BitVec.toInt_setWidth]
  exact Int.bmod_eq_of_le (by omega) (by omega)

/-- The high half of a product that fits in 64 bits, shifted down with its sign. -/
theorem high_of_toInt {a b : BitVec 64} {x y : Int} (ha : a.toInt = x) (hb : b.toInt = y)
    (hlo : -2 ^ 63 ≤ x * y) (hhi : x * y < 2 ^ 63) :
    ((a * b).sshiftRight 32).setWidth 32 = Isa.high (x * y) := by
  have hmul : (a * b).toInt = x * y := by
    rw [BitVec.toInt_mul, ha, hb]
    exact Int.bmod_eq_of_le (by omega) (by omega)
  rw [← BitVec.signExtend_eq_setWidth_of_le _ (by decide)]
  show BitVec.ofInt 32 ((a * b).sshiftRight 32).toInt = _
  rw [BitVec.toInt_sshiftRight, hmul, Int.shiftRight_eq_div_pow]
  rfl

theorem high_unsigned (a b : Word) :
    ((a.setWidth 64 * b.setWidth 64) >>> 32).setWidth 32 = Isa.high (a.toNat * b.toNat) := by
  have ha := a.isLt
  have hb := b.isLt
  have hle : a.toNat * b.toNat ≤ (2 ^ 32 - 1) * (2 ^ 32 - 1) :=
    Nat.mul_le_mul (by omega) (by omega)
  apply BitVec.eq_of_toNat_eq
  have hcast : (a.toNat : Int) * b.toNat / 2 ^ 32 = ((a.toNat * b.toNat / 2 ^ 32 : Nat) : Int) := by
    rw [Int.natCast_ediv, Int.natCast_mul]
    rfl
  rw [Isa.high, hcast, BitVec.ofInt_natCast]
  simp only [BitVec.toNat_setWidth, BitVec.toNat_ushiftRight, BitVec.toNat_mul, BitVec.toNat_ofNat,
    Nat.shiftRight_eq_div_pow]
  rw [Nat.mod_eq_of_lt (show a.toNat < 2 ^ 64 by omega), Nat.mod_eq_of_lt
    (show b.toNat < 2 ^ 64 by omega),
    Nat.mod_eq_of_lt (show a.toNat * b.toNat < 2 ^ 64 by omega)]

/-- The bounds of a product of a signed word and an unsigned one. -/
theorem product_bounds (a : Word) {y : Int} (hlo : -2 ^ 31 ≤ y) (hhi : y < 2 ^ 32) :
    -2 ^ 63 ≤ a.toInt * y ∧ a.toInt * y < 2 ^ 63 := by
  have h₁ : -2147483648 ≤ a.toInt := BitVec.le_toInt a
  have h₂ : a.toInt < 2147483648 := BitVec.toInt_lt
  norm_num at hlo hhi ⊢
  rcases le_total 0 y with hy | hy
  · exact ⟨by nlinarith, by nlinarith⟩
  · exact ⟨by nlinarith, by nlinarith⟩

/-! ### Values -/

section Values
variable {n : Nat} {s : Ir.State} {Q : Value → Nat → Ir.State → Prop} {a b : Value} {x y z : Word}

theorem wp_bin64 {x y z : BitVec 64} (op : Ir.BinOp) (ha : Denotes a .i64 (.i64 x) n s)
    (hb : Denotes b .i64 (.i64 y) n s) (hz : op.eval x y = some z)
    (h : ∀ v n' s', Extends n s n' s' → Denotes v .i64 (.i64 z) n' s' → Q v n' s') :
    wp Ir.step (Builder.define a.ty (.bin · op a.ref b.ref)) n s Q := by
  rw [ha.ty]
  refine wp_define ?_ h
  simp [Ir.step, ha.eval, hb.eval, hz]

/-- The high half of a product, by way of the operations that extend and shift. -/
theorem wp_mulHigh {extA extB : Ir.CastOp} {shift : Ir.BinOp} {x' y' z' : BitVec 64}
    (ha : Denotes a .i32 (.i32 x) n s) (hb : Denotes b .i32 (.i32 y) n s)
    (hx : extA.eval (.i32 x) .i64 = some (.i64 x')) (hy : extB.eval (.i32 y) .i64 = some (.i64 y'))
    (hz : shift.eval (x' * y') (BitVec.ofInt 64 32) = some z')
    (h : ∀ v n' s', Extends n s n' s' → Denotes v .i32 (.i32 (z'.setWidth 32)) n' s' → Q v n' s') :
    wp Ir.step (mulHigh (fun v => Builder.define .i64 (.cast · extA v.ref .i64))
      (fun v => Builder.define .i64 (.cast · extB v.ref .i64))
      (fun v w => Builder.define v.ty (.bin · shift v.ref w.ref)) a b) n s Q := by
  refine wp_bind (wp_cast extA ha hx fun a64 n₁ s₁ he₁ ha64 => ?_)
  refine wp_bind (wp_cast extB (hb.extend he₁) hy fun b64 n₂ s₂ he₂ hb64 => ?_)
  refine wp_bind (wp_bin64 .mul (ha64.extend he₂) hb64 rfl fun v n₃ s₃ he₃ hv => ?_)
  refine wp_bind (wp_bin64 shift hv ⟨rfl, rfl, trivial⟩ hz fun w n₄ s₄ he₄ hw => ?_)
  unfold truncOrBitCast
  rw [hw.ty, if_neg (by decide)]
  refine wp_cast .trunc hw rfl fun u n₅ s₅ he₅ hu => ?_
  exact h u n₅ s₅ (he₁.trans (he₂.trans (he₃.trans (he₄.trans he₅)))) hu

/-- LLVM's division of the operation. -/
def divOp : MulOp → Ir.BinOp
  | .div => .sdiv
  | .divu => .udiv
  | .rem => .srem
  | _ => .urem

/-- The divisions that LLVM defines. -/
def Defined (op : MulOp) (x y : Word) : Prop := y ≠ 0 ∧ ¬ (op.isSigned = true ∧ Isa.Overflows x y)

/-- **Where LLVM's division is defined, it is the ISA's.** -/
theorem divOp_eval {op : MulOp} (hop : op.isDivision = true) (h : Defined op x y) :
    (divOp op).eval x y = some (op.eval x y) := by
  obtain ⟨hy, hover⟩ := h
  have hsigned : op.isSigned = true → ¬ Isa.Overflows x y := fun hs ho => hover ⟨hs, ho⟩
  have hcond : op.isSigned = true → ¬ (y = 0 ∨ x = BitVec.intMin 32 ∧ y = BitVec.allOnes 32) :=
    fun hs ho => ho.elim hy (hsigned hs)
  cases op with
  | mul | mulh | mulhsu | mulhu => cases hop
  | div =>
    simp only [divOp, Ir.BinOp.eval, if_neg (hcond rfl), MulOp.eval, if_neg hy,
      if_neg (hsigned rfl), Option.some.injEq]
    apply BitVec.eq_of_toInt_eq
    rw [BitVec.toInt_sdiv, BitVec.toInt_ofInt]
  | rem =>
    simp only [divOp, Ir.BinOp.eval, if_neg (hcond rfl), MulOp.eval, if_neg hy,
      if_neg (hsigned rfl), Option.some.injEq]
    rw [← BitVec.toInt_srem, BitVec.ofInt_toInt]
  | divu =>
    simp only [divOp, Ir.BinOp.eval, if_neg hy, MulOp.eval, Option.some.injEq]
    apply BitVec.eq_of_toNat_eq
    have hlt : x.toNat / y.toNat < 2 ^ 32 := Nat.lt_of_le_of_lt (Nat.div_le_self _ _) x.isLt
    rw [BitVec.toNat_udiv, BitVec.toNat_ofNat, Nat.mod_eq_of_lt hlt]
  | remu =>
    simp only [divOp, Ir.BinOp.eval, if_neg hy, MulOp.eval, Option.some.injEq]
    apply BitVec.eq_of_toNat_eq
    have hlt : x.toNat % y.toNat < 2 ^ 32 := Nat.lt_of_le_of_lt (Nat.mod_le _ _) x.isLt
    rw [BitVec.toNat_umod, BitVec.toNat_ofNat, Nat.mod_eq_of_lt hlt]

theorem divOp_undefined {op : MulOp} (hop : op.isDivision = true) (h : ¬ Defined op x y) :
    (divOp op).eval x y = none := by
  have hcond : y = 0 ∨ op.isSigned = true ∧ Isa.Overflows x y := by
    by_contra hn
    exact h ⟨fun hy => hn (.inl hy), fun ho => hn (.inr ho)⟩
  have hzero : op.isSigned = false → y = 0 := fun hs =>
    hcond.resolve_right fun ho => Bool.false_ne_true (hs ▸ ho.1)
  cases op with
  | mul | mulh | mulhsu | mulhu => cases hop
  | div | rem => exact if_pos (hcond.imp id And.right)
  | divu | remu => exact if_pos (hzero rfl)

/-- A division that is defined. -/
theorem wp_divide (op : Ir.BinOp) (ha : Denotes a .i32 (.i32 x) n s)
    (hb : Denotes b .i32 (.i32 y) n s) (hz : op.eval x y = some z)
    (h : ∀ v n' s', Extends n s n' s' → Denotes v .i32 (.i32 z) n' s' → Q v n' s') :
    wp Ir.step (divide op a b) n s Q := by
  have hbin := wp_bin op ha hb hz h
  have hea := ha.eval
  have heb := hb.eval
  unfold divide
  cases hra : a.ref with
  | temp k => simpa only [hra] using hbin
  | const c =>
    cases hrb : b.ref with
    | temp k => simpa only [hra, hrb] using hbin
    | const d =>
      rw [hra] at hea
      rw [hrb] at heb
      obtain rfl : c = .i32 x := hea
      obtain rfl : d = .i32 y := heb
      simp only [hz, Option.map_some, Option.getD_some]
      exact wp_pure (h _ n s (Extends.refl n s) ⟨ha.ty, rfl, trivial⟩)

/-- A division that is not defined and has an operand that is no constant. -/
theorem stuck_divide (op : Ir.BinOp) (ha : Denotes a .i32 (.i32 x) n s)
    (hb : Denotes b .i32 (.i32 y) n s) (hz : op.eval x y = none)
    (hr : (∃ k, a.ref = .temp k) ∨ ∃ k, b.ref = .temp k) : Stuck Ir.step (divide op a b) n s := by
  have hstuck : Stuck Ir.step (Builder.define a.ty (.bin · op a.ref b.ref)) n s := by
    refine stuck_head (stuck_fresh ?_)
    simp [Ir.step, ha.eval, hb.eval, hz]
  unfold divide
  cases hra : a.ref with
  | temp k => simpa only [hra] using hstuck
  | const c =>
    have hno : ¬ ∃ k, a.ref = .temp k := by simp [hra]
    obtain ⟨k, hk⟩ := hr.resolve_left hno
    simpa only [hra, hk] using hstuck

end Values

/-! ### Instructions -/

namespace Instruction

def mOp : MulOp → MOp
  | .mul => .MUL
  | .mulh => .MULH
  | .mulhsu => .MULHSU
  | .mulhu => .MULHU
  | .div => .DIV
  | .divu => .DIVU
  | .rem => .REM
  | .remu => .REMU

section Effects
variable {n : Nat} {s : Ir.State} {addr : Nat} {reloc : Option Word} {op : MulOp}
  {rd rs1 rs2 : Reg}

theorem translate_disasmM (addr : Nat) (reloc : Option Word) (op : MulOp) (rd rs1 rs2 : Reg) :
    translate ⟨addr, disasmM op rd rs1 rs2, reloc⟩ =
      translateM ⟨addr, disasmM op rd rs1 rs2, reloc⟩ (mOp op) := by
  cases op <;> rfl

theorem mCode_division (hop : op.isDivision = true) (a b : Value) :
    mCode (mOp op) a b = divide (divOp op) a b := by
  cases op with
  | mul | mulh | mulhsu | mulhu => cases hop
  | _ => rfl

/-- What is loaded from a register is no constant. -/
theorem wp_getReg_ref (i : Instruction) (k : Nat) :
    wp Ir.step (i.getReg k) n s fun v _ _ => i.inst.reg k ≠ 0 → ∃ j, v.ref = .temp j := by
  unfold getReg
  by_cases hr : i.inst.reg k = 0
  · rw [if_pos hr]
    exact wp_pure fun h => absurd hr h
  · rw [if_neg hr]
    exact wp_bind (wp_fresh rfl (wp_pure fun _ => ⟨n, rfl⟩))

/-- A multiplication: `mulh` and the others differ in how their operands are extended. -/
theorem wp_multiply {a b : Value} {x y : Word} {Q : Value → Nat → Ir.State → Prop}
    (hop : op.isDivision = false) (ha : Denotes a .i32 (.i32 x) n s)
    (hb : Denotes b .i32 (.i32 y) n s)
    (h : ∀ v n' s', Extends n s n' s' → Denotes v .i32 (.i32 (op.eval x y)) n' s' → Q v n' s') :
    wp Ir.step (mCode (mOp op) a b) n s Q := by
  have hx := signExtend_toInt x
  have hy : y.toInt < 2147483648 := BitVec.toInt_lt
  have hy' : -2147483648 ≤ y.toInt := BitVec.le_toInt y
  have hlt := y.isLt
  have hshift : (BitVec.ofInt 64 32).toNat = 32 := by decide
  cases op with
  | mul => exact wp_bin .mul ha hb rfl h
  | mulh =>
    refine wp_mulHigh ha hb rfl rfl rfl fun v n' s' he hv => h v n' s' he ?_
    obtain ⟨hlo, hhi⟩ := product_bounds x (y := y.toInt) (by omega) (by omega)
    rwa [hshift, high_of_toInt hx (signExtend_toInt y) hlo hhi] at hv
  | mulhsu =>
    refine wp_mulHigh ha hb rfl rfl rfl fun v n' s' he hv => h v n' s' he ?_
    obtain ⟨hlo, hhi⟩ := product_bounds x (y := y.toNat) (by omega) (by omega)
    rwa [hshift, high_of_toInt hx (setWidth_toInt y) hlo hhi] at hv
  | mulhu =>
    refine wp_mulHigh ha hb rfl rfl rfl fun v n' s' he hv => h v n' s' he ?_
    rwa [hshift, high_unsigned] at hv
  | _ => cases hop

/-- An operation whose value is the ISA's. -/
theorem translateM_wp (h : ∀ (a b : Value) (n' : Nat) (s' : Ir.State)
    (Q : Value → Nat → Ir.State → Prop),
      Denotes a .i32 (.i32 ((guest s).get rs1)) n' s' → Denotes b .i32
      (.i32 ((guest s).get rs2)) n' s' →
      (∀ v n'' s'', Extends n' s' n'' s'' →
        Denotes v .i32 (.i32 (op.eval ((guest s).get rs1) ((guest s).get rs2))) n'' s'' →
        Q v n'' s'') →
      wp Ir.step (mCode (mOp op) a b) n' s' Q) :
    wp Ir.step (translate ⟨addr, disasmM op rd rs1 rs2, reloc⟩) n s fun _ _ t =>
      guest t = Isa.mulStep (guest s) op rd rs1 rs2 := by
  rw [translate_disasmM]
  refine wp_bind (wp_getReg _ 1 fun o1 n₁ s₁ he₁ h1 => ?_)
  refine wp_bind (wp_getReg _ 2 fun o2 n₂ s₂ he₂ h2 => ?_)
  rw [guest_get (Extends.refl n s)] at h1
  rw [guest_get he₁] at h2
  refine wp_bind (h o1 o2 n₂ s₂ _ (h1.extend he₂) h2 fun v n₃ s₃ he₃ hv => ?_)
  exact wp_result rd (he₁.trans (he₂.trans he₃)) hv

theorem translateM_stuck (hop : op.isDivision = true)
    (hz : (divOp op).eval ((guest s).get rs1) ((guest s).get rs2) = none)
    (hr : rs1 ≠ 0 ∨ rs2 ≠ 0) :
    Stuck Ir.step (translate ⟨addr, disasmM op rd rs1 rs2, reloc⟩) n s := by
  rw [translate_disasmM]
  refine stuck_bind (wp_mono (wp_and (wp_getReg_ref _ 1) (wp_getReg _ 1
    fun o1 n₁ s₁ he₁ h1 => And.intro he₁ h1)) fun o1 n₁ s₁ ⟨href₁, he₁, h1⟩ => ?_)
  refine stuck_bind (wp_mono (wp_and (wp_getReg_ref _ 2) (wp_getReg _ 2
    fun o2 n₂ s₂ he₂ h2 => And.intro he₂ h2)) fun o2 n₂ s₂ ⟨href₂, he₂, h2⟩ => ?_)
  rw [guest_get (Extends.refl n s)] at h1
  rw [guest_get he₁] at h2
  rw [mCode_division hop]
  exact stuck_head (stuck_divide _ (h1.extend he₂) h2 hz (hr.imp href₁ href₂))

/-- Of constants an undefined one is made, that cannot be stored. -/
theorem translateM_undef (hop : op.isDivision = true) (hrd : rd ≠ 0) :
    Stuck Ir.step (translate ⟨addr, disasmM op rd 0 0, reloc⟩) n s := by
  have hz : (divOp op).eval (0 : Word) 0 = none := divOp_undefined hop fun h => h.1 rfl
  have hfold : divide (divOp op) ZERO ZERO = pure ⟨.i32, .const .undef⟩ := by
    show pure (⟨.i32, .const ((((divOp op).eval (0 : Word) 0).map Val.i32).getD .undef)⟩ : Value) =
      _
    rw [hz]
    rfl
  rw [translate_disasmM]
  refine stuck_bind (wp_pure (stuck_bind (wp_pure ?_)))
  rw [mCode_division hop, hfold]
  refine stuck_bind (wp_pure ?_)
  have hstore : store ⟨.i32, .const .undef⟩ rd = Emit.plain (.storeReg (.const .undef) rd) :=
    if_neg hrd
  show Stuck Ir.step (store ⟨.i32, .const .undef⟩ rd) n s
  rw [hstore]
  exact stuck_plain rfl

end Effects
end Instruction

/-- **Divisions that are what the ISA says.** The emitted code runs and gives the ISA's result
just where LLVM's division is defined; if nothing but `x0` is named it is empty, and right. -/
theorem division_exact (addr : Nat) (reloc : Option Word) (op : MulOp) (rd rs1 rs2 : Reg)
    (s : Isa.State) (env : Nat → Val) (hop : op.isDivision = true) :
    (∃ t, Ir.run (Instruction.translate ⟨addr, disasmM op rd rs1 rs2, reloc⟩).code
        ⟨env, s.x, s.mem⟩ = some t ∧ (⟨t.x, t.mem⟩ : Isa.State) = Isa.mulStep s op rd rs1 rs2) ↔
      Defined op (s.get rs1) (s.get rs2) ∨ rd = 0 ∧ rs1 = 0 ∧ rs2 = 0 := by
  by_cases hdef : Defined op (s.get rs1) (s.get rs2)
  · refine iff_of_true (Instruction.translateM_wp fun a b n' s' Q ha hb h => ?_) (.inl hdef)
    rw [Instruction.mCode_division hop]
    exact wp_divide (divOp op) ha hb (divOp_eval hop hdef) h
  have hz := divOp_undefined hop hdef
  have hstuck : ∀ {rs1 rs2 : Reg},
      Stuck Ir.step (Instruction.translate ⟨addr, disasmM op rd rs1 rs2, reloc⟩) 0
        ⟨env, s.x, s.mem⟩ →
      ¬ ∃ t, Ir.run (Instruction.translate ⟨addr, disasmM op rd rs1 rs2, reloc⟩).code
        ⟨env, s.x, s.mem⟩ = some t ∧ (⟨t.x, t.mem⟩ : Isa.State) = Isa.mulStep s op rd rs1 rs2 := by
    rintro rs1 rs2 hs ⟨t, ht, -⟩
    exact nomatch hs.symm.trans ht
  by_cases hr : rs1 = 0 ∧ rs2 = 0
  · obtain ⟨rfl, rfl⟩ := hr
    by_cases hrd : rd = 0
    · subst hrd
      refine iff_of_true ⟨⟨env, s.x, s.mem⟩, ?_, rfl⟩ (.inr ⟨rfl, rfl, rfl⟩)
      cases op with
      | mul | mulh | mulhsu | mulhu => cases hop
      | _ => rfl
    · exact iff_of_false (hstuck (Instruction.translateM_undef hop hrd))
        fun h => h.elim hdef fun h => hrd h.1
  · have hor : rs1 ≠ 0 ∨ rs2 ≠ 0 := not_and_or.mp hr
    exact iff_of_false (hstuck (Instruction.translateM_stuck hop hz hor))
      fun h => h.elim hdef fun h => hr h.2

/-- Seven divided by two, in `a0` and `a1`. -/
def seven : Isa.State := ⟨fun r => if r = 10 then 7 else 2, fun _ => 0⟩

theorem seven_divided :
    (∃ t, Ir.run (Instruction.translate ⟨0, disasmM .div 12 10 11, none⟩).code
        ⟨fun _ => .undef, seven.x, seven.mem⟩ = some t ∧
        (⟨t.x, t.mem⟩ : Isa.State) = Isa.mulStep seven .div 12 10 11) ∧
      (Isa.mulStep seven .div 12 10 11).get 12 = 3 :=
  ⟨(division_exact 0 none .div 12 10 11 seven (fun _ => .undef) rfl).mpr
    (.inl ⟨by decide, by decide⟩), by decide⟩

/-- By zero, the ISA's quotient is all ones; the translated code has none. -/
theorem zero_undefined :
    (Isa.mulStep ⟨fun _ => 0, fun _ => 0⟩ .div 12 10 11).get 12 = 0xFFFFFFFF ∧
      ¬ ∃ t, Ir.run (Instruction.translate ⟨0, disasmM .div 12 10 11, none⟩).code
        ⟨fun _ => .undef, fun _ => 0, fun _ => 0⟩ = some t ∧
        (⟨t.x, t.mem⟩ : Isa.State) = Isa.mulStep ⟨fun _ => 0, fun _ => 0⟩ .div 12 10 11 := by
  refine ⟨by decide, ?_⟩
  rintro ⟨t, ht, -⟩
  exact nomatch show none = some t from ht

/-- **Multiplications are the ISA's**, in any registers and of any words. -/
theorem multiplication_simulates (addr : Nat) (reloc : Option Word) (op : MulOp) (rd rs1 rs2 : Reg)
    (s : Isa.State) (env : Nat → Val) (hop : op.isDivision = false) :
    ∃ t, Ir.run (Instruction.translate ⟨addr, disasmM op rd rs1 rs2, reloc⟩).code
        ⟨env, s.x, s.mem⟩ = some t ∧ (⟨t.x, t.mem⟩ : Isa.State) = Isa.mulStep s op rd rs1 rs2 := by
  exact Instruction.translateM_wp fun a b n' s' Q ha hb h => Instruction.wp_multiply hop ha hb h

/-- The most negative word in `a0`, the largest unsigned one elsewhere. -/
def extremes : Isa.State := ⟨fun r => if r = 10 then 0x80000000 else 0xFFFFFFFF, fun _ => 0⟩

theorem extremes_multiplied :
    (∃ t, Ir.run (Instruction.translate ⟨0, disasmM .mulhsu 12 10 11, none⟩).code
        ⟨fun _ => .undef, extremes.x, extremes.mem⟩ = some t ∧
        (⟨t.x, t.mem⟩ : Isa.State) = Isa.mulStep extremes .mulhsu 12 10 11) ∧
      (Isa.mulStep extremes .mulhsu 12 10 11).get 12 = 0x80000000 :=
  ⟨multiplication_simulates 0 none .mulhsu 12 10 11 extremes (fun _ => .undef) rfl, by decide⟩

end RiscvSbt.Translate
