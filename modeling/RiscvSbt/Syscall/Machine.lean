import RiscvSbt.Isa.Rv32i

/-! System calls (`Syscall.cpp` and `x86-syscall.s`).

The guest's calls are dispatched by their number in a generated handler, that calls a function of a
few x86 instructions with the host's number. These functions are straight code. The kernel is asked
for a service with as many arguments as that one takes; what it answers may depend on all that it
was asked before, and on memory, that neither of the services changes. -/
namespace RiscvSbt.Syscall
open Isa (Word Memory)

/-! ### The kernel -/

inductive Service where
  | exit
  | write
  deriving DecidableEq, Repr

namespace Service

/-- How many arguments the kernel looks at. -/
def args : Service → Nat
  | exit => 1
  | write => 3

/-- The numbers of RISC-V Linux. -/
def ofRv (n : Word) : Option Service :=
  if n = 93 then some exit else if n = 64 then some write else none

/-- The numbers of x86 Linux. -/
def ofX86 (n : Word) : Option Service :=
  if n = 1 then some exit else if n = 4 then some write else none

end Service

/-- What the kernel was asked for. -/
structure Event where
  service : Service
  args : List Word
  mem : Memory

/-- What the kernel answers, by what it was asked before, the last first, and what it is asked. -/
abbrev Kernel := List Event → Event → Word

/-- Why control does not come back. -/
inductive Stop where
  | exited (trace : List Event)
  /-- This is not defined. -/
  | lost

/-- A service is asked for; `exit` does not return. -/
def Kernel.ask (k : Kernel) (mem : Memory) (trace : List Event) (s : Service) (args : List Word) :
    Except Stop (Word × List Event) :=
  let e : Event := ⟨s, args.take s.args, mem⟩
  match s with
  | .exit => throw (.exited (e :: trace))
  | .write => pure (k trace e, e :: trace)

/-- What an `ecall` of the guest is to do: a service is asked for by its number. -/
def Kernel.ecall (k : Kernel) (mem : Memory) (trace : List Event) (nr : Word) (args : List Word) :
    Except Stop (Word × List Event) :=
  match Service.ofRv nr with
  | some s => k.ask mem trace s args
  | none => throw .lost

/-! ### The processor -/

namespace X86

inductive Reg where
  | eax | ebx | ecx | edx | esi | edi | ebp
  deriving DecidableEq, Repr

/-- The operands are in the order of the source. -/
inductive Instr where
  | push (r : Reg)
  | pop (r : Reg)
  /-- `movl off(%esp), dst`. -/
  | movl (off : Nat) (dst : Reg)
  /-- `int $0x80`. -/
  | int
  | ret
  deriving DecidableEq, Repr

structure State where
  regs : Reg → Word
  /-- The words from `esp` on. -/
  stack : List Word
  trace : List Event
  /-- Where the function has returned to. -/
  pc : Option Word := none

/-- The registers that the kernel takes arguments from. -/
def argRegs : List Reg := [.ebx, .ecx, .edx, .esi, .edi, .ebp]

/-- The call gate: the number is in `eax`. -/
def gate (k : Kernel) (mem : Memory) (trace : List Event) (nr : Word) (args : List Word) :
    Except Stop (Word × List Event) :=
  match Service.ofX86 nr with
  | some s => k.ask mem trace s args
  | none => throw .lost

def State.set (s : State) (r : Reg) (w : Word) : State :=
    {s with regs := Function.update s.regs r w}

def State.pop (s : State) : Except Stop (Word × State) :=
  match s.stack with
  | [] => throw .lost
  | w :: stack => pure (w, {s with stack := stack})

def exec (k : Kernel) (mem : Memory) (s : State) : Instr → Except Stop State
  | .push r => pure {s with stack := s.regs r :: s.stack}
  | .pop r => do
    let (w, s) ← s.pop
    pure (s.set r w)
  | .movl off dst =>
    match s.stack[off / 4]? with
    | some w => pure (s.set dst w)
    | none => throw .lost
  | .int => do
    let (v, trace) ← gate k mem s.trace (s.regs .eax) (argRegs.map s.regs)
    pure {s.set .eax v with trace := trace}
  | .ret => do
    let (w, s) ← s.pop
    pure {s with pc := some w}

/-- Straight code. -/
def run (k : Kernel) (mem : Memory) : List Instr → State → Except Stop State
  | [], s => pure s
  | i :: code, s => do run k mem code (← exec k mem s i)

namespace Text

def syscall0 : List Instr := [
  .movl 4 .eax,
  .int,
  .ret]

def syscall1 : List Instr := [
  .push .ebx,
  .movl 8 .eax,
  .movl 12 .ebx,
  .int,
  .pop .ebx,
  .ret]

def syscall2 : List Instr := [
  .push .ebx,
  .movl 8 .eax,
  .movl 12 .ebx,
  .movl 16 .ecx,
  .int,
  .pop .ebx,
  .ret]

def syscall3 : List Instr := [
  .push .ebx,
  .movl 8 .eax,
  .movl 12 .ebx,
  .movl 16 .ecx,
  .movl 20 .edx,
  .int,
  .pop .ebx,
  .ret]

def syscall4 : List Instr := [
  .push .ebx,
  .push .esi,
  .movl 12 .eax,
  .movl 16 .ebx,
  .movl 20 .ecx,
  .movl 24 .edx,
  .movl 28 .esi,
  .int,
  .pop .esi,
  .pop .ebx,
  .ret]

def syscall5 : List Instr := [
  .push .ebx,
  .push .esi,
  .push .edi,
  .movl 16 .eax,
  .movl 20 .ebx,
  .movl 24 .ecx,
  .movl 28 .edx,
  .movl 32 .esi,
  .movl 36 .edi,
  .int,
  .pop .edi,
  .pop .esi,
  .pop .ebx,
  .ret]

def syscall6 : List Instr := [
  .push .ebx,
  .push .esi,
  .push .edi,
  .push .ebp,
  .movl 20 .eax,
  .movl 24 .ebx,
  .movl 28 .ecx,
  .movl 32 .edx,
  .movl 36 .esi,
  .movl 40 .edi,
  .movl 44 .ebp,
  .int,
  .pop .ebp,
  .pop .edi,
  .pop .esi,
  .pop .ebx,
  .ret]

end Text

/-- The function of that many arguments. -/
def text : Nat → Option (List Instr)
  | 0 => some Text.syscall0
  | 1 => some Text.syscall1
  | 2 => some Text.syscall2
  | 3 => some Text.syscall3
  | 4 => some Text.syscall4
  | 5 => some Text.syscall5
  | 6 => some Text.syscall6
  | _ => none

/-- The processor where a function is called: its registers, the return address and what is on the
stack below the arguments. -/
structure Site where
  regs : Reg → Word
  ret : Word
  stack : List Word

def Site.called (c : Site) (trace : List Event) (args : List Word) : State :=
  {regs := c.regs, stack := c.ret :: (args ++ c.stack), trace := trace}

end X86

/-! ### The handler -/

def MAX_ARGS : Nat := 7

/-- A row of `scv`: the number of arguments, and the numbers of the guest and of the host. -/
structure Row where
  args : Nat
  rv : Nat
  x86 : Nat
  deriving DecidableEq, Repr

def scv : List Row := [
  ⟨1, 93, 1⟩,  -- EXIT
  ⟨3, 64, 4⟩]  -- WRITE

inductive Operand where
  | const (w : Word)
  /-- An argument of the handler. -/
  | arg (i : Nat)
  deriving DecidableEq, Repr

/-- A block of the handler: a call, and what is returned, where it is not the result of that. -/
structure Block where
  callee : Nat
  args : List Operand
  ret : Option Word := none
  deriving DecidableEq, Repr

structure Handler where
  cases : List (Word × Block)
  dfl : Block
  deriving DecidableEq, Repr

def X86_SYS_EXIT : Word := 1

/-- The x86 functions that are declared. -/
def declared : Nat := 5

def setArgs (sc : Word) (n : Nat) : List Operand :=
  .const sc :: (List.range n).map fun i => .arg (i + 1)

def addCase (s : Row) : Word × Block :=
  (BitVec.ofNat 32 s.rv, {callee := s.args, args := setArgs (BitVec.ofNat 32 s.x86) s.args})

def genHandler (scv : List Row) : Handler :=
  ⟨scv.map addCase, {callee := 1, args := [.const X86_SYS_EXIT, .const 99], ret := some 0}⟩

/-- The host: its kernel, and the processor where an x86 function is called, by what the kernel was
asked before. -/
structure Host where
  kernel : Kernel
  site : List Event → X86.Site

def Operand.eval (args : List Word) : Operand → Option Word
  | .const w => some w
  | .arg i => args[i]?

namespace Host
variable (h : Host) (mem : Memory) (trace : List Event)

/-- The call of an x86 function, which has one parameter more than its number says. -/
def call (n : Nat) (args : List Word) : Except Stop (Word × List Event) :=
  match X86.text n with
  | some code =>
    if n < declared ∧ args.length = n + 1 then do
      let s ← X86.run h.kernel mem code ((h.site trace).called trace args)
      pure (s.regs .eax, s.trace)
    else throw .lost
  | none => throw .lost

/-- A block of the handler. -/
def block (b : Block) (args : List Word) : Except Stop (Word × List Event) :=
  match b.args.mapM (Operand.eval args) with
  | some vs => do
    let (v, trace) ← h.call mem trace b.callee vs
    pure (b.ret.getD v, trace)
  | none => throw .lost

/-- The handler is called: the first of its arguments is switched on. -/
def handle (handler : Handler) (args : List Word) : Except Stop (Word × List Event) :=
  match args with
  | [] => throw .lost
  | sc :: _ => h.block mem trace ((handler.cases.lookup sc).getD handler.dfl) args

def rv_syscall (args : List Word) : Except Stop (Word × List Event) :=
  h.handle mem trace (genHandler scv) args

end Host
end RiscvSbt.Syscall
