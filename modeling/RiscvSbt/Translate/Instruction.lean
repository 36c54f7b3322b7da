import RiscvSbt.Isa.Rv32m
import RiscvSbt.Translate.Builder

/-! Translation of computation and memory instructions (`Instruction.cpp`).

An instruction arrives disassembled, as an opcode with its operands, together with
what the relocator answered for its address. `translate` dispatches on the opcode
as the source's switch does. -/
namespace RiscvSbt.Translate
open Isa (Word Reg)
open Ir (Ty Value)
open Builder

/-- The opcodes of the disassembler handled here. -/
inductive Opcode where
  | ADD | ADDI | AND | ANDI | OR | ORI | SLL | SLLI | SLT | SLTU | SLTI | SLTIU
  | SRA | SRAI | SRL | SRLI | SUB | XOR | XORI
  | MUL | MULH | MULHSU | MULHU | DIV | DIVU | REM | REMU
  | AUIPC | LUI
  | LB | LBU | LH | LHU | LW
  | SB | SH | SW
  deriving DecidableEq, Repr

inductive MCOperand where
  | reg (r : Reg)
  | imm (i : Int)
  deriving DecidableEq, Repr

/-- A disassembled instruction. -/
structure MCInst where
  opcode : Opcode
  operands : List MCOperand
  deriving DecidableEq, Repr

/-- `getOperand(op).getReg()`, as a register number; the disassembler never hands
out an operand of the other kind. -/
def MCInst.reg (i : MCInst) (op : Nat) : Reg :=
  match i.operands[op]? with
  | some (.reg r) => r
  | _ => 0

/-- `getOperand(op).getImm()`. -/
def MCInst.imm (i : MCInst) (op : Nat) : Int :=
  match i.operands[op]? with
  | some (.imm v) => v
  | _ => 0

/-- `Instruction`: its address, its disassembly and the relocated constant of its
address, if there is a relocation there. -/
structure Instruction where
  addr : Nat
  inst : MCInst
  reloc : Option Word

namespace Instruction

inductive ALUOp where
  | ADD | AND | OR | SLL | SLT | SRA | SRL | SUB | XOR
  deriving DecidableEq, Repr

inductive ALUOpAlias where
  | A_NONE | A_MV | A_NEG | A_NOT
  deriving DecidableEq, Repr

inductive MOp where
  | MUL | MULH | MULHSU | MULHU | DIV | DIVU | REM | REMU
  deriving DecidableEq, Repr

inductive UIOp where
  | AUIPC | LUI
  deriving DecidableEq, Repr

inductive IntType where
  | S8 | U8 | S16 | U16 | U32
  deriving DecidableEq, Repr

/-- `AF_IMM` and `AF_UNSIGNED`. -/
structure ALUFlags where
  imm : Bool := false
  unsigned : Bool := false
  deriving DecidableEq, Repr

variable (i : Instruction)

def getRD : Reg := i.inst.reg 0

def getReg (op : Nat) : Build Value :=
  if i.inst.reg op = 0 then pure ZERO else load (i.inst.reg op)

/-- The relocated constant if there is one, else the immediate. -/
def getImm (op : Nat) : Word :=
  match i.reloc with
  | some c => c
  | none => BitVec.ofInt 32 (i.inst.imm op)

/-- A constant as a value. -/
def constant (c : Word) : Value := ⟨.i32, .const (.i32 c)⟩

/-- Which alias an operation is; `o2` is the constant second operand, if it is one. -/
def aluAlias (op : ALUOp) (o1n : Reg) (o2 : Option Word) : ALUOpAlias :=
  match op with
  | .ADD => if o2 = some 0 then .A_MV else .A_NONE
  | .SUB => if o1n = 0 then .A_NEG else .A_NONE
  | .XOR => if o2.map BitVec.toInt = some (-1) then .A_NOT else .A_NONE
  | _ => .A_NONE

/-- The operation itself, when it is not an alias. Only the low five bits of a
shift amount count. -/
def aluCode (op : ALUOp) (unsigned : Bool) (o1 o2 : Value) : Build Value :=
  match op with
  | .ADD => add o1 o2
  | .AND => and_ o1 o2
  | .OR => or_ o1 o2
  | .SLL => do sll o1 (← and_ o2 (i32 0x1F))
  | .SLT => do zext (← if unsigned then ult o1 o2 else slt o1 o2)
  | .SRA => do sra o1 (← and_ o2 (i32 0x1F))
  | .SRL => do srl o1 (← and_ o2 (i32 0x1F))
  | .SUB => sub o1 o2
  | .XOR => xor_ o1 o2

/-- The value of the operation, by way of its alias if it has one. -/
def aluValue (opa : ALUOpAlias) (op : ALUOp) (unsigned : Bool) (o1 o2 : Value) : Build Value :=
  match opa with
  | .A_NONE => aluCode op unsigned o1 o2
  | .A_MV => pure o1
  | .A_NEG => neg o2
  | .A_NOT => not_ o1

def translateALUOp (op : ALUOp) (flags : ALUFlags) : Build Unit := do
  let o := i.getRD
  let o1n := i.inst.reg 1
  let o1 ← i.getReg 1
  -- Only an immediate is a constant here: the source asks for one under `hasImm` alone.
  let imm := if flags.imm then some (i.getImm 2) else none
  let o2 ← if flags.imm then pure (constant (i.getImm 2)) else i.getReg 2
  let v ← aluValue (aluAlias op o1n imm) op flags.unsigned o1 o2
  store v o

/-- The operation itself. -/
def mCode (op : MOp) (o1 o2 : Value) : Build Value :=
  match op with
  | .MUL => mul o1 o2
  | .MULH => mulh o1 o2
  | .MULHSU => mulhsu o1 o2
  | .MULHU => mulhu o1 o2
  | .DIV => div o1 o2
  | .DIVU => divu o1 o2
  | .REM => rem o1 o2
  | .REMU => remu o1 o2

def translateM (op : MOp) : Build Unit := do
  let o := i.getRD
  let o1 ← i.getReg 1
  let o2 ← i.getReg 2
  let v ← mCode op o1 o2
  store v o

def translateUI (op : UIOp) : Build Unit :=
  let c := i.getImm 1 <<< 12
  store (constant (if op = .AUIPC then c + BitVec.ofNat 32 i.addr else c)) i.getRD

def getLLVMTy : IntType → Ty
  | .S8 | .U8 => .i8
  | .S16 | .U16 => .i16
  | .U32 => .i32

/-- The address of a load or a store: a pointer to `ty`, `imm` bytes past `rs1`. -/
def pointer (rs1 : Value) (imm : Word) (ty : Ty) : Build Value := do
  let ptr ← bitOrPointerCast rs1 (.ptr .i8)
  let ptr ← gep ptr (constant imm)
  bitOrPointerCast ptr (.ptr ty)

/-- A loaded value as 32 bits. -/
def toI32 (it : IntType) (v : Value) : Build Value :=
  match it with
  | .S8 | .S16 => sext v
  | .U8 | .U16 => zext v
  | .U32 => pure v

def translateLoad (it : IntType) : Build Unit := do
  let rs1 ← i.getReg 1
  let ptr ← pointer rs1 (i.getImm 2) (getLLVMTy it)
  let v ← toI32 it (← loadPtr ptr)
  store v i.getRD

def translateStore (it : IntType) : Build Unit := do
  let rs2 ← i.getReg 0
  let rs1 ← i.getReg 1
  let ptr ← pointer rs1 (i.getImm 2) (getLLVMTy it)
  let v ← truncOrBitCast rs2 (getLLVMTy it)
  storePtr v ptr

def translate : Build Unit :=
  match i.inst.opcode with
  | .ADD => i.translateALUOp .ADD {}
  | .ADDI => i.translateALUOp .ADD {imm := true}
  | .AND => i.translateALUOp .AND {}
  | .ANDI => i.translateALUOp .AND {imm := true}
  | .OR => i.translateALUOp .OR {}
  | .ORI => i.translateALUOp .OR {imm := true}
  | .SLL => i.translateALUOp .SLL {}
  | .SLLI => i.translateALUOp .SLL {imm := true}
  | .SLT => i.translateALUOp .SLT {}
  | .SLTU => i.translateALUOp .SLT {unsigned := true}
  | .SLTI => i.translateALUOp .SLT {imm := true}
  | .SLTIU => i.translateALUOp .SLT {imm := true, unsigned := true}
  | .SRA => i.translateALUOp .SRA {}
  | .SRAI => i.translateALUOp .SRA {imm := true}
  | .SRL => i.translateALUOp .SRL {}
  | .SRLI => i.translateALUOp .SRL {imm := true}
  | .SUB => i.translateALUOp .SUB {}
  | .XOR => i.translateALUOp .XOR {}
  | .XORI => i.translateALUOp .XOR {imm := true}
  | .MUL => i.translateM .MUL
  | .MULH => i.translateM .MULH
  | .MULHSU => i.translateM .MULHSU
  | .MULHU => i.translateM .MULHU
  | .DIV => i.translateM .DIV
  | .DIVU => i.translateM .DIVU
  | .REM => i.translateM .REM
  | .REMU => i.translateM .REMU
  | .AUIPC => i.translateUI .AUIPC
  | .LUI => i.translateUI .LUI
  | .LB => i.translateLoad .S8
  | .LBU => i.translateLoad .U8
  | .LH => i.translateLoad .S16
  | .LHU => i.translateLoad .U16
  | .LW => i.translateLoad .U32
  | .SB => i.translateStore .U8
  | .SH => i.translateStore .U16
  | .SW => i.translateStore .U32

end Instruction

/-! ### Disassembly

LLVM's RISC-V disassembler: register operands in the order of the instruction's
definition, 12-bit immediates sign extended, shift amounts and upper immediates
zero extended. -/

def disasm : Isa.Inst → MCInst
  | .op f rd rs1 rs2 =>
    ⟨match f with
      | .add => .ADD | .sub => .SUB | .sll => .SLL | .slt => .SLT | .sltu => .SLTU
      | .xor => .XOR | .srl => .SRL | .sra => .SRA | .or => .OR | .and => .AND,
      [.reg rd, .reg rs1, .reg rs2]⟩
  | .opImm f rd rs1 imm =>
    ⟨match f with
      | .addi => .ADDI | .slti => .SLTI | .sltiu => .SLTIU
      | .xori => .XORI | .ori => .ORI | .andi => .ANDI,
      [.reg rd, .reg rs1, .imm imm.toInt]⟩
  | .shift f rd rs1 shamt =>
    ⟨match f with
      | .slli => .SLLI | .srli => .SRLI | .srai => .SRAI,
      [.reg rd, .reg rs1, .imm shamt.toNat]⟩
  | .lui rd imm => ⟨.LUI, [.reg rd, .imm imm.toNat]⟩
  | .auipc rd imm => ⟨.AUIPC, [.reg rd, .imm imm.toNat]⟩
  | .load f rd rs1 offset =>
    ⟨match f with
      | .lb => .LB | .lh => .LH | .lw => .LW | .lbu => .LBU | .lhu => .LHU,
      [.reg rd, .reg rs1, .imm offset.toInt]⟩
  | .store f rs2 rs1 offset =>
    ⟨match f with
      | .sb => .SB | .sh => .SH | .sw => .SW,
      [.reg rs2, .reg rs1, .imm offset.toInt]⟩

def disasmM (op : Isa.MulOp) (rd rs1 rs2 : Reg) : MCInst :=
  ⟨match op with
    | .mul => .MUL | .mulh => .MULH | .mulhsu => .MULHSU | .mulhu => .MULHU
    | .div => .DIV | .divu => .DIVU | .rem => .REM | .remu => .REMU,
    [.reg rd, .reg rs1, .reg rs2]⟩

end RiscvSbt.Translate
