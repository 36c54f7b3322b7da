import RiscvSbt.Isa.Rv32fd
import RiscvSbt.Float.Convert
import RiscvSbt.Registers.Machine

/-! Loads, stores and moves of floating registers, as they are translated.

A floating register is a variable of 64 bits, of the function or global. Narrow accesses go
through a pointer cast to its low half, the host being little-endian. Calls and returns copy
whole variables. The integer registers are taken as one file. -/
namespace RiscvSbt.Float
open Isa (Word Memory FInst)
open Registers (Options SyncFlags synced)

abbrev FRegisters := Isa.Reg → BitVec 64

/-- The local registers of a function, and which of them its code accesses. The others are not
copied, and are removed in the end. -/
structure Frame where
  access : Isa.Reg → Bool
  regs : FRegisters

structure Machine extends Isa.State where
  /-- The global registers. -/
  f : FRegisters
  func : Frame
  callers : List Frame

variable (o : Options)

namespace Machine

def getFReg (s : Machine) (reg : Isa.Reg) : BitVec 64 :=
  if o.localRegs then s.func.regs reg else s.f reg

def setFReg (s : Machine) (reg : Isa.Reg) (v : BitVec 64) : Machine :=
  if o.localRegs then {s with func := {s.func with regs := Function.update s.func.regs reg v}}
  else {s with f := Function.update s.f reg v}

def fload32 (s : Machine) (reg : Isa.Reg) : Word := (s.getFReg o reg).extractLsb' 0 32

def fload64 (s : Machine) (reg : Isa.Reg) : BitVec 64 := s.getFReg o reg

def fstore32 (s : Machine) (v : Word) (reg : Isa.Reg) : Machine :=
  s.setFReg o reg ((s.getFReg o reg).extractLsb' 32 32 ++ v)

def fstore64 (s : Machine) (v : BitVec 64) (reg : Isa.Reg) : Machine := s.setFReg o reg v

/-! ### Instructions -/

def addr (s : Machine) (rs1 : Isa.Reg) (imm : BitVec 12) : Word := s.get rs1 + imm.signExtend 32

def translateFPLoad (s : Machine) (ft : FType) (fr rs1 : Isa.Reg) (imm : BitVec 12) : Machine :=
  match ft with
  | .F_SINGLE => s.fstore32 o (s.mem.read32 (s.addr rs1 imm)) fr
  | .F_DOUBLE => s.fstore64 o (s.mem.read64 (s.addr rs1 imm)) fr

def translateFPStore (s : Machine) (ft : FType) (fr rs1 : Isa.Reg) (imm : BitVec 12) : Machine :=
  match ft with
  | .F_SINGLE => {s with mem := s.mem.write32 (s.addr rs1 imm) (s.fload32 o fr)}
  | .F_DOUBLE => {s with mem := s.mem.write64 (s.addr rs1 imm) (s.fload64 o fr)}

/-- `fmv.x.w`. -/
def translateFMVX (s : Machine) (rd fr : Isa.Reg) : Machine :=
  {s with toState := s.set rd (s.fload32 o fr)}

/-- `fmv.w.x`. -/
def translateFMVF (s : Machine) (fr rs1 : Isa.Reg) : Machine := s.fstore32 o (s.get rs1) fr

def translate (s : Machine) : FInst → Machine
  | .flw rd rs1 imm => s.translateFPLoad o .F_SINGLE rd rs1 imm
  | .fld rd rs1 imm => s.translateFPLoad o .F_DOUBLE rd rs1 imm
  | .fsw rs2 rs1 imm => s.translateFPStore o .F_SINGLE rs2 rs1 imm
  | .fsd rs2 rs1 imm => s.translateFPStore o .F_DOUBLE rs2 rs1 imm
  | .fmvWX rd rs1 => s.translateFMVF o rd rs1
  | .fmvXW rd rs1 => s.translateFMVX o rd rs1

/-! ### Calls and returns -/

/-- The registers that a synchronisation copies. -/
def copied (flags : SyncFlags) (s : Machine) (r : Isa.Reg) : Bool :=
  synced o flags (.f r) && s.func.access r

def storeRegisters (flags : SyncFlags) (s : Machine) : Machine :=
  {s with f := fun r => if s.copied o flags r then s.func.regs r else s.f r}

def loadRegisters (flags : SyncFlags) (s : Machine) : Machine :=
  let regs r := if s.copied o flags r then s.f r else s.func.regs r
  {s with func := {s.func with regs := regs}}

/-- A call. The callee's local registers are undefined before they are loaded. -/
def call (s : Machine) (access : Isa.Reg → Bool) (regs : FRegisters) : Machine :=
  let s := s.storeRegisters o {call := true}
  let s : Machine := {s with func := ⟨access, regs⟩, callers := s.func :: s.callers}
  s.loadRegisters o {funcStart := true}

/-- A return; from the first function it leaves the program. -/
def ret (s : Machine) : Option Machine :=
  match s.callers with
  | [] => none
  | caller :: callers =>
    let s := s.storeRegisters o {funcReturn := true}
    let s : Machine := {s with func := caller, callers := callers}
    some (s.loadRegisters o {callReturned := true})

end Machine

/-- The floating register of an instruction. -/
def freg : FInst → Isa.Reg
  | .flw rd _ _ | .fld rd _ _ | .fmvWX rd _ => rd
  | .fsw rs2 _ _ | .fsd rs2 _ _ => rs2
  | .fmvXW _ rs1 => rs1

inductive Event where
  | inst (i : FInst)
  | call (access : Isa.Reg → Bool) (regs : FRegisters)
  | ret

/-- One event. A function's code accesses only what it is marked to access. -/
def Machine.step (s : Machine) : Event → Option Machine
  | .inst i => if s.func.access (freg i) then some (s.translate o i) else none
  | .call access regs => some (s.call o access regs)
  | .ret => s.ret o

end RiscvSbt.Float
