import RiscvSbt.Isa.Rv32i

/-! The RV32FD instructions that move bits, as the ISA manual states them.

Floating registers hold 64 bits. A narrow value is held in the low half under a half of ones; a
narrow transfer out of a register takes the low half, whatever is above it. -/
namespace RiscvSbt.Isa

namespace Memory

def read64 (m : Memory) (a : Word) : BitVec 64 := m.read32 (a + 4) ++ m.read32 a

def write64 (m : Memory) (a : Word) (v : BitVec 64) : Memory :=
  (m.write32 a (v.extractLsb' 0 32)).write32 (a + 4) (v.extractLsb' 32 32)

theorem bytes_append (v : Word) :
    v.extractLsb' 24 8 ++ v.extractLsb' 16 8 ++ v.extractLsb' 8 8 ++ v.extractLsb' 0 8 = v := by
  rw [BitVec.extractLsb'_append_extractLsb'_eq_extractLsb' (by decide),
    BitVec.extractLsb'_append_extractLsb'_eq_extractLsb' (by decide),
    BitVec.extractLsb'_append_extractLsb'_eq_extractLsb' (by decide)]
  exact BitVec.extractLsb'_eq_self

theorem read32_write32 (m : Memory) (a v : Word) : (m.write32 a v).read32 a = v := by
  have h1 : a ≠ a + 1 := by bv_omega
  have h2 : a ≠ a + 2 := by bv_omega
  have h3 : a ≠ a + 3 := by bv_omega
  have h12 : a + 1 ≠ a + 2 := by bv_omega
  have h13 : a + 1 ≠ a + 3 := by bv_omega
  have h23 : a + 2 ≠ a + 3 := by bv_omega
  simp only [read32, write32, write8, Function.update_self, Function.update_of_ne h1,
    Function.update_of_ne h2, Function.update_of_ne h3, Function.update_of_ne h12,
    Function.update_of_ne h13, Function.update_of_ne h23]
  exact bytes_append v

/-- The upper half of what was written. -/
theorem read32_write64 (m : Memory) (a : Word) (v : BitVec 64) :
    (m.write64 a v).read32 (a + 4) = v.extractLsb' 32 32 := read32_write32 _ _ _

end Memory

/-- The instructions, with the fields their encoding has. -/
inductive FInst where
  | flw (rd rs1 : Reg) (offset : BitVec 12)
  | fld (rd rs1 : Reg) (offset : BitVec 12)
  | fsw (rs2 rs1 : Reg) (offset : BitVec 12)
  | fsd (rs2 rs1 : Reg) (offset : BitVec 12)
  | fmvWX (rd rs1 : Reg)
  | fmvXW (rd rs1 : Reg)

structure FState extends State where
  f : Reg → BitVec 64

/-- A NaN-boxed narrow value. -/
def box (v : Word) : BitVec 64 := BitVec.allOnes 32 ++ v

namespace FState

def setF (s : FState) (r : Reg) (v : BitVec 64) : FState := {s with f := Function.update s.f r v}

def step (s : FState) : FInst → FState
  | .flw rd rs1 offset => s.setF rd (box (s.mem.read32 (s.get rs1 + offset.signExtend 32)))
  | .fld rd rs1 offset => s.setF rd (s.mem.read64 (s.get rs1 + offset.signExtend 32))
  | .fsw rs2 rs1 offset =>
    {s with mem := s.mem.write32 (s.get rs1 + offset.signExtend 32) ((s.f rs2).extractLsb' 0 32)}
  | .fsd rs2 rs1 offset =>
    {s with mem := s.mem.write64 (s.get rs1 + offset.signExtend 32) (s.f rs2)}
  | .fmvWX rd rs1 => s.setF rd (box (s.get rs1))
  | .fmvXW rd rs1 => {s with toState := s.set rd ((s.f rs1).extractLsb' 0 32)}

end FState

end RiscvSbt.Isa
