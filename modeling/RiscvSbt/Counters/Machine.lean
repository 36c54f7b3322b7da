import Mathlib.Data.List.Basic

/-! Control and status registers.

Reads of the counters are calls of runtime functions. These need a frequency that
`counters_init` finds out, and the call of it is made where the first instruction of a
counter is translated. A translated program runs its instructions in an order of its own. -/
namespace RiscvSbt.Counters

inductive CSR where
  | FFLAGS
  | FRM
  | FCSR
  | RDCYCLE
  | RDTIME
  | RDINSTRET
  | RDCYCLEH
  | RDTIMEH
  | RDINSTRETH
  | other (num : Nat)
  deriving DecidableEq, Repr

inductive CSROp where
  | RW
  | RS
  | RC
  deriving DecidableEq, Repr

/-- The source of `csrrw` and the like, or of `csrrwi`. -/
inductive Src where
  | reg (num : Nat)
  | imm (v : BitVec 32)
  deriving DecidableEq, Repr

def Src.noSrc : Src → Bool
  | .reg num => num = 0
  | .imm v => v = 0

structure CsrInst where
  op : CSROp
  csr : CSR
  src : Src
  rd : Nat
  deriving DecidableEq, Repr

/-- An instruction of a CSR, or another one, that calls no function of the counters. -/
inductive Inst where
  | csr (i : CsrInst)
  | other
  deriving DecidableEq, Repr

/-! ### Code -/

/-- The functions of the counters. -/
inductive Callee where
  | counters_init
  | get_cycles
  | get_time
  | get_instret
  deriving DecidableEq, Repr

inductive Value where
  | const (v : BitVec 32)
  /-- What the last call answered. -/
  | ret
  | fcsr
  | reg (num : Nat)
  | and (a b : Value)
  | or (a b : Value)
  | not (a : Value)
  deriving DecidableEq, Repr

inductive Item where
  | call (c : Callee)
  | setFCSR (v : Value)
  | store (v : Value) (rd : Nat)
  deriving DecidableEq, Repr

def CSR.isCounter : CSR → Bool
  | .RDCYCLE | .RDTIME | .RDINSTRET | .RDCYCLEH | .RDTIMEH | .RDINSTRETH => true
  | _ => false

/-- The function that a counter is read with. The upper halves are zero. -/
def CSR.getter : CSR → Option Callee
  | .RDCYCLE => some .get_cycles
  | .RDTIME => some .get_time
  | .RDINSTRET => some .get_instret
  | _ => none

def getCSRValue (enFCSR : Bool) : CSR → Except String (List Item × Value)
  | .RDCYCLE => pure ([.call .get_cycles], .ret)
  | .RDTIME => pure ([.call .get_time], .ret)
  | .RDINSTRET => pure ([.call .get_instret], .ret)
  | .RDCYCLEH | .RDTIMEH | .RDINSTRETH => pure ([], .const 0)
  | .FFLAGS => pure ([], if enFCSR then .and .fcsr (.const 0x1F) else .const 0)
  | .FRM => throw "Try not to use FRM"
  | .FCSR => throw "Try not to use FCSR"
  | .other _ => throw "Unsupported CSR read!"

def setCSRValue (enFCSR : Bool) (v : Value) : CSR → Except String (List Item)
  | .FFLAGS => pure (if enFCSR then [.setFCSR (.and v (.const 0x1F))] else [])
  | .FRM => throw "Try not to use FRM"
  | .FCSR => throw "Try not to use FCSR"
  | _ => throw "Unsupported CSR write!"

def Src.value : Src → Value
  | .reg num => .reg num
  | .imm v => .const v

/-- Makes the call, unless it is made already. -/
def initCounters (init : Bool) : List Item := if init then [.call .counters_init] else []

/-- What an instruction writes back, over the value `v` of its CSR. -/
def writeCSR (enFCSR : Bool) (i : CsrInst) (v : Value) : Except String (List Item) :=
  match i.op with
  | .RW => setCSRValue enFCSR i.src.value i.csr
  | .RS => if i.src.noSrc then pure [] else setCSRValue enFCSR (.or v i.src.value) i.csr
  | .RC => if i.src.noSrc then pure [] else setCSRValue enFCSR (.and v (.not i.src.value)) i.csr

/-- The code of an instruction, and whether `counters_init` is still to be called. -/
def translateCSR (enFCSR init : Bool) (i : CsrInst) : Except String (List Item × Bool) := do
  let counter := i.csr.isCounter
  let (read, v) ← getCSRValue enFCSR i.csr
  let write ← writeCSR enFCSR i v
  pure (initCounters (init && counter) ++ read ++ write ++ [.store v i.rd], init && !counter)

/-- The code of instructions in the order they are translated in. -/
def translate (enFCSR : Bool) : Bool → List Inst → Except String (List (List Item))
  | _, [] => pure []
  | init, .other :: insts => do pure ([] :: (← translate enFCSR init insts))
  | init, .csr i :: insts => do
    let (code, init) ← translateCSR enFCSR init i
    pure (code :: (← translate enFCSR init insts))

/-! ### Running it -/

/-- What the runtime gets from the processor: what `sscanf` finds in the brand string under
`"%d.%d%c"`, if it finds all three, and the clocks at each reading. -/
structure Cpu where
  brand : Option (BitVec 32 × BitVec 32 × Char)
  rdtsc : Nat → BitVec 64
  rdpmc : Nat → BitVec 32

/-- The frequency in MHz, or the runtime gives up. -/
def Cpu.freq (cpu : Cpu) : Option (BitVec 32) :=
  match cpu.brand with
  | some (l, r, 'G') => some (l * 1000 + r)
  | some (l, _, 'M') => some l
  | _ => none

structure State where
  freq : BitVec 32 := 0
  ret : BitVec 32 := 0
  fcsr : BitVec 32 := 0
  regs : Nat → BitVec 32
  /-- How often the clocks were read. -/
  reads : Nat := 0

inductive Stop where
  | exit
  | divideError
  deriving DecidableEq, Repr

def Value.eval (s : State) : Value → BitVec 32
  | const v => v
  | ret => s.ret
  | fcsr => s.fcsr
  | reg num => if num = 0 then 0 else s.regs num
  | and a b => a.eval s &&& b.eval s
  | or a b => a.eval s ||| b.eval s
  | not a => ~~~a.eval s

namespace Cpu
variable (cpu : Cpu)

/-- The functions of the runtime answer with 32 bits. -/
def call (s : State) : Callee → Except Stop State
  | .counters_init =>
    match cpu.freq with
    | some freq => pure {s with freq := freq}
    | none => throw .exit
  | .get_cycles => pure {s with ret := (cpu.rdtsc s.reads).setWidth 32, reads := s.reads + 1}
  | .get_time =>
    if s.freq = 0 then throw .divideError
    else pure {s with
      ret := (cpu.rdtsc s.reads / s.freq.setWidth 64).setWidth 32
      reads := s.reads + 1}
  | .get_instret => pure {s with ret := cpu.rdpmc s.reads, reads := s.reads + 1}

def exec (s : State) : Item → Except Stop State
  | .call c => cpu.call s c
  | .setFCSR v => pure {s with fcsr := v.eval s}
  | .store v rd => pure {s with regs := Function.update s.regs rd (v.eval s)}

def run (s : State) : List Item → Except Stop State
  | [] => pure s
  | i :: items => do run (← cpu.exec s i) items

end Cpu

/-- How a program executes: where it is, which of its instructions is next there, by number,
and where it may go from there. -/
structure Guest (σ : Type) where
  start : σ → Prop
  site : σ → Nat
  next : σ → σ → Prop

/-- The instructions of an execution path, up to some place. -/
inductive Guest.Path {σ : Type} (G : Guest σ) : List Nat → σ → Prop where
  | start {s : σ} : G.start s → G.Path [] s
  | step {path : List Nat} {s s' : σ} : G.Path path s → G.next s s' →
      G.Path (path ++ [G.site s]) s'

/-- The code that runs along a path. -/
def trace (code : List (List Item)) (path : List Nat) : List Item :=
  path.flatMap fun i => code.getD i []

end RiscvSbt.Counters
