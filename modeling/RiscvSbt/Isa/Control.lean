import RiscvSbt.Isa.Rv32m

/-! Control flow of RV32IM, as the ISA manual states it.

Branches and jumps count in multiples of two bytes from their own address, and an indirect
jump drops the lowest bit of its target. All addresses wrap modulo 2^32. -/
namespace RiscvSbt.Isa

inductive BranchOp where
  | beq | bne | blt | bge | bltu | bgeu
  deriving DecidableEq, Repr

def BranchOp.eval (a b : Word) : BranchOp → Bool
  | .beq => a == b
  | .bne => a != b
  | .blt => a.slt b
  | .bge => b.sle a
  | .bltu => a.ult b
  | .bgeu => b.ule a

/-- An instruction of RV32IM, with the fields its encoding has. -/
inductive Instr where
  | comp (i : Inst)
  | mul (f : MulOp) (rd rs1 rs2 : Reg)
  | branch (f : BranchOp) (rs1 rs2 : Reg) (offset : BitVec 12)
  | jal (rd : Reg) (offset : BitVec 20)
  | jalr (rd rs1 : Reg) (offset : BitVec 12)
  | ecall
  deriving DecidableEq, Repr

/-- The distance in bytes that an offset stands for. -/
def distance {w : Nat} (offset : BitVec w) : Word := (offset ++ (0 : BitVec 1)).signExtend 32

/-- The return address. -/
def ra : Reg := 1

structure Hart extends State where
  pc : Word

/-- One instruction. -/
def Hart.step (h : Hart) : Instr → Hart
  | .comp i => {Isa.step h.pc h.toState i with pc := h.pc + 4}
  | .mul f rd rs1 rs2 => {mulStep h.toState f rd rs1 rs2 with pc := h.pc + 4}
  | .branch f rs1 rs2 offset =>
    {h with pc := if f.eval (h.get rs1) (h.get rs2) then h.pc + distance offset else h.pc + 4}
  | .jal rd offset => {h.set rd (h.pc + 4) with pc := h.pc + distance offset}
  | .jalr rd rs1 offset =>
    -- The target is computed before the link register is written.
    {h.set rd (h.pc + 4) with pc := (h.get rs1 + offset.signExtend 32) &&& ~~~1}
  -- What the environment answers is not the hart's.
  | .ecall => {h with pc := h.pc + 4}

end RiscvSbt.Isa
