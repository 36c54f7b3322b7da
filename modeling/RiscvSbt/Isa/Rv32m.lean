import Mathlib.Algebra.Group.Int.Defs
import RiscvSbt.Isa.Rv32i

/-! RV32M, as the ISA manual states it.

Products are of 64 bits, of signed or unsigned operands. Quotients are rounded towards
zero, and nothing traps: a division by zero and the one signed division that overflows
have results of their own. -/
namespace RiscvSbt.Isa

inductive MulOp where
  | mul | mulh | mulhsu | mulhu | div | divu | rem | remu
  deriving DecidableEq, Repr

/-- The one signed division whose quotient is no word. -/
def Overflows (a b : Word) : Prop := a = BitVec.intMin 32 ∧ b = BitVec.allOnes 32

instance (a b : Word) : Decidable (Overflows a b) := inferInstanceAs (Decidable (_ ∧ _))

/-- The high half of a product. -/
def high (v : Int) : Word := BitVec.ofInt 32 (v / 2 ^ 32)

def MulOp.eval (a b : Word) : MulOp → Word
  | .mul => a * b
  | .mulh => high (a.toInt * b.toInt)
  | .mulhsu => high (a.toInt * b.toNat)
  | .mulhu => high (a.toNat * b.toNat)
  | .div =>
    if b = 0 then BitVec.allOnes 32 else if Overflows a b then BitVec.intMin 32
    else BitVec.ofInt 32 (a.toInt.tdiv b.toInt)
  | .divu => if b = 0 then BitVec.allOnes 32 else BitVec.ofNat 32 (a.toNat / b.toNat)
  | .rem =>
    if b = 0 then a else if Overflows a b then 0 else BitVec.ofInt 32 (a.toInt.tmod b.toInt)
  | .remu => if b = 0 then a else BitVec.ofNat 32 (a.toNat % b.toNat)

/-- The divisions of signed words. -/
def MulOp.isSigned : MulOp → Bool
  | .div | .rem => true
  | _ => false

def MulOp.isDivision : MulOp → Bool
  | .div | .divu | .rem | .remu => true
  | _ => false

/-- One instruction. -/
def mulStep (s : State) (op : MulOp) (rd rs1 rs2 : Reg) : State :=
  s.set rd (op.eval (s.get rs1) (s.get rs2))

end RiscvSbt.Isa
