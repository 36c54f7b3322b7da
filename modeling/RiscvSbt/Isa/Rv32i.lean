import Mathlib.Logic.Function.Basic

/-! RV32I computation and memory instructions, as the ISA manual states them.

Registers hold 32-bit words, `x0` reads as zero and cannot be written, addresses
wrap modulo 2^32 and memory is a little-endian array of bytes. This is the
reference the translator's output is compared with; nothing here comes from the
translator. -/
namespace RiscvSbt.Isa

abbrev Word := BitVec 32
abbrev Byte := BitVec 8
abbrev Reg := Fin 32

instance Reg.neZero : @NeZero Nat Zero.ofOfNat0 32 := ⟨Nat.succ_ne_zero 31⟩

/-- Every address holds a byte. -/
abbrev Memory := Word → Byte

namespace Memory

def read16 (m : Memory) (a : Word) : BitVec 16 := m (a + 1) ++ m a

def read32 (m : Memory) (a : Word) : Word := m (a + 3) ++ m (a + 2) ++ m (a + 1) ++ m a

def write8 (m : Memory) (a : Word) (v : Byte) : Memory := Function.update m a v

def write16 (m : Memory) (a : Word) (v : BitVec 16) : Memory :=
  (m.write8 a (v.extractLsb' 0 8)).write8 (a + 1) (v.extractLsb' 8 8)

def write32 (m : Memory) (a : Word) (v : Word) : Memory :=
  (((m.write8 a (v.extractLsb' 0 8)).write8 (a + 1) (v.extractLsb' 8 8)).write8 (a + 2)
    (v.extractLsb' 16 8)).write8 (a + 3) (v.extractLsb' 24 8)

end Memory

inductive RegOp where
  | add | sub | sll | slt | sltu | xor | srl | sra | or | and
  deriving DecidableEq, Repr

inductive ImmOp where
  | addi | slti | sltiu | xori | ori | andi
  deriving DecidableEq, Repr

inductive ShiftOp where
  | slli | srli | srai
  deriving DecidableEq, Repr

inductive LoadOp where
  | lb | lh | lw | lbu | lhu
  deriving DecidableEq, Repr

inductive StoreOp where
  | sb | sh | sw
  deriving DecidableEq, Repr

/-- An instruction with the fields its encoding has. -/
inductive Inst where
  | op (f : RegOp) (rd rs1 rs2 : Reg)
  | opImm (f : ImmOp) (rd rs1 : Reg) (imm : BitVec 12)
  | shift (f : ShiftOp) (rd rs1 : Reg) (shamt : BitVec 5)
  | lui (rd : Reg) (imm : BitVec 20)
  | auipc (rd : Reg) (imm : BitVec 20)
  | load (f : LoadOp) (rd rs1 : Reg) (offset : BitVec 12)
  | store (f : StoreOp) (rs2 rs1 : Reg) (offset : BitVec 12)
  deriving DecidableEq, Repr

structure State where
  x : Reg → Word
  mem : Memory

/-- A register's value: `x0` is zero. -/
def State.get (s : State) (r : Reg) : Word := if r = 0 then 0 else s.x r

/-- A register written: `x0` is not. -/
def State.set (s : State) (r : Reg) (v : Word) : State :=
  if r = 0 then s else {s with x := Function.update s.x r v}

/-- Zero or one. -/
def ofTest (b : Bool) : Word := if b then 1 else 0

/-- Shifts take the low five bits of the second operand. -/
def RegOp.eval (a b : Word) : RegOp → Word
  | .add => a + b
  | .sub => a - b
  | .sll => a <<< (b.toNat % 32)
  | .slt => ofTest (a.slt b)
  | .sltu => ofTest (a.ult b)
  | .xor => a ^^^ b
  | .srl => a >>> (b.toNat % 32)
  | .sra => a.sshiftRight (b.toNat % 32)
  | .or => a ||| b
  | .and => a &&& b

def ImmOp.eval (a b : Word) : ImmOp → Word
  | .addi => a + b
  | .slti => ofTest (a.slt b)
  | .sltiu => ofTest (a.ult b)
  | .xori => a ^^^ b
  | .ori => a ||| b
  | .andi => a &&& b

def ShiftOp.eval (a : Word) (shamt : Nat) : ShiftOp → Word
  | .slli => a <<< shamt
  | .srli => a >>> shamt
  | .srai => a.sshiftRight shamt

def LoadOp.eval (m : Memory) (a : Word) : LoadOp → Word
  | .lb => (m a).signExtend 32
  | .lh => (m.read16 a).signExtend 32
  | .lw => m.read32 a
  | .lbu => (m a).setWidth 32
  | .lhu => (m.read16 a).setWidth 32

def StoreOp.eval (m : Memory) (a v : Word) : StoreOp → Memory
  | .sb => m.write8 a (v.setWidth 8)
  | .sh => m.write16 a (v.setWidth 16)
  | .sw => m.write32 a v

/-- One instruction at `pc`. -/
def step (pc : Word) (s : State) : Inst → State
  | .op f rd rs1 rs2 => s.set rd (f.eval (s.get rs1) (s.get rs2))
  | .opImm f rd rs1 imm => s.set rd (f.eval (s.get rs1) (imm.signExtend 32))
  | .shift f rd rs1 shamt => s.set rd (f.eval (s.get rs1) shamt.toNat)
  | .lui rd imm => s.set rd (imm ++ (0 : BitVec 12))
  | .auipc rd imm => s.set rd (pc + (imm ++ (0 : BitVec 12)))
  | .load f rd rs1 offset => s.set rd (f.eval s.mem (s.get rs1 + offset.signExtend 32))
  | .store f rs2 rs1 offset =>
    {s with mem := f.eval s.mem (s.get rs1 + offset.signExtend 32) (s.get rs2)}

end RiscvSbt.Isa
