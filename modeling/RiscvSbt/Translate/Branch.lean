import RiscvSbt.Isa.Control
import RiscvSbt.Translate.Division

/-! Translation of branches, jumps, calls and returns (`Instruction::translateBranch`).

The code computes the link, the condition or the address of an indirect target. What becomes of
control is left to the handler that the instruction is dispatched to (`Action`). -/
namespace RiscvSbt.Translate
open Isa (Word Reg BranchOp)
open Ir (Ty Val Value Pred)
open Library Library.Emit

namespace Builder

def eq (a b : Value) : Build Value := define .i1 (.icmp · .eq a.ref b.ref)
def ne (a b : Value) : Build Value := define .i1 (.icmp · .ne a.ref b.ref)
def sge (a b : Value) : Build Value := define .i1 (.icmp · .sge a.ref b.ref)
def uge (a b : Value) : Build Value := define .i1 (.icmp · .uge a.ref b.ref)

end Builder

open Builder

inductive BranchType where
  | JAL | JALR | BEQ | BNE | BGE | BGEU | BLT | BLTU
  deriving DecidableEq, Repr

/-- The handler of a branch, with what it is given. -/
inductive Action where
  | RETURN
  | JUMP (target : Nat) (cond : Option Value) (linkReg : Reg)
  | IJUMP (v : Value)
  | CALL (target : Nat) (linkReg : Reg)
  | ICALL (v : Value) (linkReg : Reg)
  | unreachable (msg : String)
  deriving DecidableEq, Repr

/-- An instruction with its address, and what the relocator answers for it: the constant of its
address and, behind `isCall`, the address of the function that `findFunction` finds. -/
structure Branch where
  bt : BranchType
  addr : Nat
  operands : List MCOperand
  reloc : Option Word := none
  func : Option Nat := none

namespace Branch
variable (i : Branch)

def getRegNum (op : Nat) : Reg :=
  match i.operands[op]? with
  | some (.reg r) => r
  | _ => 0

def getReg (op : Nat) : Build Value :=
  if i.getRegNum op = 0 then pure ZERO else load (i.getRegNum op)

def getImm (op : Nat) : Word :=
  match i.reloc, i.operands[op]? with
  | some c, _ => c
  | none, some (.imm v) => BitVec.ofInt 32 v
  | none, _ => 0

/-- The comparison of a conditional branch. -/
def condition (o0 o1 : Value) : Build (Option Value) :=
  match i.bt with
  | .BEQ => some <$> eq o0 o1
  | .BNE => some <$> ne o0 o1
  | .BGE => some <$> sge o0 o1
  | .BGEU => some <$> uge o0 o1
  | .BLT => some <$> slt o0 o1
  | .BLTU => some <$> ult o0 o1
  | .JAL | .JALR => pure none

/-- To a distance from the instruction. -/
def direct (jimm : Word) : Nat := (jimm + BitVec.ofNat 32 i.addr).toNat

def translateJALR : Build Action := do
  let linkReg := i.getRegNum 0
  let jregn := i.getRegNum 1
  let jreg ← i.getReg 1
  let jimm := i.getImm 2
  if linkReg = 0 ∧ jregn = Isa.ra ∧ jimm = 0 then return .RETURN
  if jregn = 0 then return .unreachable "unexpected JALR with base register equal to zero!"
  match i.func with
  | some target => return .CALL target linkReg
  | none =>
    let v ← if jimm = 0 then pure jreg else add jreg (Instruction.constant jimm)
    return if linkReg = 0 then .IJUMP v else .ICALL v linkReg

def translateBranch : Build Action :=
  match i.bt with
  | .JALR => i.translateJALR
  | .JAL =>
    let linkReg := i.getRegNum 0
    let target := i.direct (i.getImm 1)
    pure (if linkReg = 0 then .JUMP target none linkReg else .CALL target linkReg)
  | _ => do
    let o0 ← i.getReg 0
    let o1 ← i.getReg 1
    let cond ← i.condition o0 o1
    pure (.JUMP (i.direct (i.getImm 2)) cond 0)

end Branch

/-- `Instruction::link`. -/
def link (addr : Nat) (linkReg : Reg) : Build Unit :=
  if linkReg = 0 then pure () else store (i32 (addr + 4 : Nat)) linkReg

/-- `Function::freturn` without the return: in main, its value is loaded. -/
def freturn (inMain : Bool) : Build Unit :=
  if inMain then do
    let _ ← load 10
    pure ()
  else pure ()

/-! ### Disassembly -/

/-- LLVM's disassembler answers offsets in bytes. -/
def disasmBranch (addr : Nat) : BranchOp → Reg → Reg → BitVec 12 → Branch
  | f, rs1, rs2, offset =>
    ⟨match f with
      | .beq => .BEQ | .bne => .BNE | .blt => .BLT | .bge => .BGE | .bltu => .BLTU | .bgeu => .BGEU,
      addr, [.reg rs1, .reg rs2, .imm (offset ++ (0 : BitVec 1)).toInt], none, none⟩

def disasmJAL (addr : Nat) (rd : Reg) (offset : BitVec 20) : Branch :=
  ⟨.JAL, addr, [.reg rd, .imm (offset ++ (0 : BitVec 1)).toInt], none, none⟩

def disasmJALR (addr : Nat) (rd rs1 : Reg) (offset : BitVec 12) : Branch :=
  ⟨.JALR, addr, [.reg rd, .reg rs1, .imm offset.toInt], none, none⟩

end RiscvSbt.Translate
