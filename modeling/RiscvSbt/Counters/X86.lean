import RiscvSbt.Counters.Brand
import RiscvSbt.Library.Run

/-! The instructions of `get_cycles` and `get_time`.

A program counter goes over the code of both, and an address is the number of an instruction.
The stack is the list of its words, the last one first. No instruction here reads a flag, so
there are none. -/
namespace RiscvSbt.Counters.X86
open Library

inductive Reg where
  | eax
  | ebx
  | ecx
  | edx
  deriving DecidableEq, Repr

structure Registers where
  eax : BitVec 32
  ebx : BitVec 32
  ecx : BitVec 32
  edx : BitVec 32
  deriving DecidableEq, Repr

namespace Registers

def get (regs : Registers) : Reg → BitVec 32
  | .eax => regs.eax
  | .ebx => regs.ebx
  | .ecx => regs.ecx
  | .edx => regs.edx

def set (regs : Registers) (r : Reg) (w : BitVec 32) : Registers :=
  match r with
  | .eax => {regs with eax := w}
  | .ebx => {regs with ebx := w}
  | .ecx => {regs with ecx := w}
  | .edx => {regs with edx := w}

/-- The number in `edx:eax`. -/
def wide (regs : Registers) : Nat := regs.edx.toNat * 2 ^ 32 + regs.eax.toNat

end Registers

inductive Operand where
  | reg (r : Reg)
  /-- The word of memory. -/
  | freq
  deriving DecidableEq, Repr

/-- The operands are in the order of the source. -/
inductive Instr where
  | push (r : Reg)
  | pop (r : Reg)
  | mov (src : Operand) (dst : Reg)
  | xor (src dst : Reg)
  | div (r : Reg)
  | cpuid
  | rdtsc
  | call (target : BitVec 32)
  | ret
  deriving DecidableEq, Repr

structure State where
  pc : BitVec 32
  regs : Registers
  stack : List (BitVec 32)
  freq : BitVec 32
  deriving DecidableEq, Repr

inductive Fault where
  /-- The divide error: a divisor of zero, or a quotient of more than 32 bits. -/
  | divide
  /-- Below the stack, or not in the code. -/
  | lost
  deriving DecidableEq, Repr

/-- What the processor returns: the leaves of `cpuid`, and the cycles where they are read. -/
structure Cpu where
  cpuid : BitVec 32 → BitVec 32 → Cpuid
  cycles : BitVec 64

namespace State

def operand (s : State) : Operand → BitVec 32
  | .reg r => s.regs.get r
  | .freq => s.freq

def push (s : State) (w : BitVec 32) : State := {s with stack := w :: s.stack}

def pop (s : State) : Except Fault (BitVec 32 × State) :=
  match s.stack with
  | [] => throw .lost
  | w :: stack => pure (w, {s with stack := stack})

def set (s : State) (r : Reg) (w : BitVec 32) : State := {s with regs := s.regs.set r w}

end State

/-- An instruction, with `pc` behind it. -/
def exec (cpu : Cpu) (s : State) : Instr → Except Fault State
  | .push r => pure (s.push (s.regs.get r))
  | .pop r => do
    let (w, s) ← s.pop
    pure (s.set r w)
  | .mov src dst => pure (s.set dst (s.operand src))
  | .xor src dst => pure (s.set dst (s.regs.get dst ^^^ s.regs.get src))
  | .div r =>
    match div s.regs.edx s.regs.eax (s.regs.get r) with
    | none => throw .divide
    | some (q, rem) => pure {s with regs := {s.regs with eax := q, edx := rem}}
  | .cpuid =>
    let leaf := cpu.cpuid s.regs.eax s.regs.ecx
    pure {s with regs := ⟨leaf.eax, leaf.ebx, leaf.ecx, leaf.edx⟩}
  | .rdtsc =>
    pure {s with regs := {s.regs with
      edx := cpu.cycles.extractLsb' 32 32
      eax := cpu.cycles.extractLsb' 0 32}}
  | .call target => pure {s.push s.pc with pc := target}
  | .ret => do
    let (w, s) ← s.pop
    pure {s with pc := w}

/-! ### The code -/

/-- The code of `get_cycles` is the first. -/
def Label.get_cycles : BitVec 32 := 0

namespace Text

def get_cycles : List Instr := [
  .push .ebx,
  -- flush pipeline
  .xor .eax .eax,
  .cpuid,
  -- get cycles in edx:eax
  .rdtsc,
  .pop .ebx,
  .ret]

def get_time : List Instr := [
  .push .ebx,
  .mov .freq .ebx,
  -- cycles: edx:eax
  .call Label.get_cycles,
  -- time_hi
  .push .eax,
  .mov (.reg .edx) .eax,
  .xor .edx .edx,
  .div .ebx,
  .mov (.reg .eax) .ecx,
  .pop .eax,
  -- time_lo
  .div .ebx,
  .mov (.reg .ecx) .edx,
  .pop .ebx,
  .ret]

end Text

def text : List Instr := Text.get_cycles ++ Text.get_time

def Label.get_time : BitVec 32 := BitVec.ofNat 32 Text.get_cycles.length

def step (cpu : Cpu) (s : State) : Except Fault State :=
  match text[s.pc.toNat]? with
  | none => throw .lost
  | some i => exec cpu {s with pc := s.pc + 1} i

/-- A function is called, and has returned: its return address is gone from the stack, `ebx` and
memory are as they were. -/
structure Returned (s t : State) : Prop where
  stack : s.stack = t.pc :: t.stack
  ebx : t.regs.ebx = s.regs.ebx
  freq : t.freq = s.freq

end RiscvSbt.Counters.X86
