import Mathlib.Logic.Function.Basic
import Mathlib.Data.List.Basic
import RiscvSbt.Isa.Rv32i
import RiscvSbt.Library.Run

/-! Local register files and what keeps them in step with the global one.

A translated function works on the global registers or, in `LOCALS` and `ABI` mode, on
copies of its own, that are loaded and stored where control enters and leaves it. The code
of a guest instruction is the list of what it does with registers and memory; a run of
loads or stores of registers is one item of that list. What values are, and what
instructions compute, does not matter here. -/
namespace RiscvSbt.Registers

/-- `XRegister` and `FRegister`. -/
inductive Reg where
  | x (i : Fin 32)
  | f (i : Fin 32)
  deriving DecidableEq, Repr

abbrev FnId := Nat

namespace Reg

def ZERO : Reg := x 0
def RA : Reg := x 1
def SP : Reg := x 2
def A0 : Reg := x 10
def A1 : Reg := x 11
def A2 : Reg := x 12
def A3 : Reg := x 13
def A4 : Reg := x 14
def A5 : Reg := x 15
def A6 : Reg := x 16
def A7 : Reg := x 17
def FA0 : Reg := f 10
def FA1 : Reg := f 11
def FA2 : Reg := f 12
def FA3 : Reg := f 13
def FA4 : Reg := f 14
def FA5 : Reg := f 15
def FA6 : Reg := f 16
def FA7 : Reg := f 17

end Reg

/-- `Options::Regs`. -/
inductive Regs where
  | GLOBALS
  | LOCALS
  | ABI
  deriving DecidableEq, Repr

structure Options where
  regs : Regs
  syncFRegs : Bool := true
  syncOnExternalCalls : Bool := false
  icallIntOnly : Bool := false
  hardFloatABI : Bool := false

def Options.localRegs (o : Options) : Bool := o.regs = .LOCALS ∨ o.regs = .ABI

/-! ### Synchronisation -/

/-- `S_XREG` is told by the register, and `S_ABI` by the mode. -/
structure SyncFlags where
  call : Bool := false
  callReturned : Bool := false
  funcStart : Bool := false
  funcReturn : Bool := false
  retRegsOnly : Bool := false

open Reg in
def syncCall (r : Reg) : Bool :=
  r ∈ [RA, SP, A0, A1, A2, A3, A4, A5, A6, A7, FA0, FA1, FA2, FA3, FA4, FA5, FA6, FA7]

open Reg in
def syncRet (r : Reg) : Bool := r ∈ [A0, A1, FA0, FA1]

def syncReg (abi : Bool) (flags : SyncFlags) (r : Reg) : Bool :=
  if !abi then
    if flags.retRegsOnly then syncRet r else true
  else if flags.call || flags.funcStart then syncCall r
  else syncRet r

/-- The registers that a synchronisation goes through. -/
def syncable (o : Options) : Reg → Bool
  | .x i => i ≠ 0
  | .f _ => o.syncFRegs

/-- The registers that `loadRegisters` and `storeRegisters` copy. -/
def synced (o : Options) (flags : SyncFlags) (r : Reg) : Bool :=
  o.localRegs && syncable o r && syncReg (o.regs = .ABI) flags r

/-! ### Code -/

section
variable (V A B W : Type)

/-- What a guest instruction computes: from registers and cells of memory it makes new
values for registers and for cells. -/
structure Op where
  reads : List Reg := []
  writes : List Reg := []
  loads : List V → List A := fun _ => []
  stores : List V → List A := fun _ => []
  eval : List V → List B → List V × List B

/-- A call that leaves the translated program: it gets the values of registers, and
memory and the outside world. -/
structure Ext where
  args : List Reg
  rets : List Reg
  eval : List V → (A → B) → W → List V × (A → B) × W

/-- The code made for a guest instruction. -/
inductive Code where
  /-- Where the guest instruction starts. -/
  | mark
  | op (o : Op V A B)
  | ext (e : Ext V A B W)
  | loadRegs (regs : Reg → Bool)
  | storeRegs (regs : Reg → Bool)
  /-- The function that an indirect call goes to, if it is an internal one. -/
  | target (reads : List Reg) (dest : List V → Option FnId)
  | call (f : FnId)
  /-- The call of the target. The arm for external functions passes `args`. -/
  | icall (args : List Reg)
  | condBr (reads : List Reg) (cond : List V → Bool) (addr : Nat)
  | br (addr : Nat)
  | ret

/-- Guest instructions. A link register of zero makes a call a tail call. -/
inductive Inst where
  | op (o : Op V A B)
  | branch (reads : List Reg) (cond : List V → Bool) (target : Nat)
  | jump (target : Nat)
  /-- A call of a known function; through a register, that is loaded but not used. -/
  | call (base : List Reg) (f : FnId) (linkReg : Reg)
  | callExternal (base : List Reg) (e : Ext V A B W) (linkReg : Reg)
  | icall (base : Reg) (dest : List V → Option FnId) (linkReg : Reg)
  | ecall (eval : List V → (A → B) → W → List V × (A → B) × W)
  | ret

/-- A function's instructions, one every 4 bytes. -/
structure Func where
  start : Nat
  body : List (Inst V A B W)

end

variable {V A B W : Type}

namespace Code

/-- The registers that count as accessed. -/
def accesses : Code V A B W → List Reg
  | .op o => o.reads ++ o.writes
  | .ext e => e.args ++ e.rets
  | .target reads _ => reads
  | .icall args => args
  | .condBr reads _ _ => reads
  | _ => []

/-- Without the copies of registers that are not accessed. -/
def clean (access : Reg → Bool) : Code V A B W → Code V A B W
  | .loadRegs regs => .loadRegs fun r => regs r && access r
  | .storeRegs regs => .storeRegs fun r => regs r && access r
  | c => c

end Code

namespace Func
variable (o : Options) (ofAddr : Nat → V)

def loadRegisters (flags : SyncFlags) : Code V A B W := .loadRegs (synced o flags)

def storeRegisters (flags : SyncFlags) : Code V A B W := .storeRegs (synced o flags)

def freturn : List (Code V A B W) := [storeRegisters o {funcReturn := true}, .ret]

/-- The registers that are loaded, for whatever use. -/
def load (reads : List Reg) : Code V A B W := .op {reads := reads, eval := fun _ _ => ([], [])}

def link (addr : Nat) (linkReg : Reg) : List (Code V A B W) :=
  if linkReg = Reg.ZERO then []
  else [.op {writes := [linkReg], eval := fun _ _ => ([ofAddr (addr + 4)], [])}]

def tailCall (linkReg : Reg) : List (Code V A B W) :=
  if linkReg = Reg.ZERO then freturn o else []

def handleCall (addr : Nat) (f : FnId) (linkReg : Reg) : List (Code V A B W) :=
  link ofAddr addr linkReg ++
    [storeRegisters o {call := true}, .call f, loadRegisters o {callReturned := true}] ++
    tailCall o linkReg

def handleExternal (addr : Nat) (e : Ext V A B W) (linkReg : Reg) : List (Code V A B W) :=
  link ofAddr addr linkReg ++
    (if o.syncOnExternalCalls then
      [storeRegisters o {call := true}, .ext e, loadRegisters o {callReturned := true}]
    else [.ext e]) ++
    tailCall o linkReg

/-- The arguments of the icaller. -/
def icallArgs : List Reg :=
  if o.icallIntOnly || o.hardFloatABI then []
  else [Reg.A0, Reg.A1, Reg.A2, Reg.A3, Reg.A4, Reg.A5, Reg.A6, Reg.A7]

/-- The way through the blocks of an indirect call that an internal target takes. -/
def handleICall (addr : Nat) (linkReg : Reg) : List (Code V A B W) :=
  link ofAddr addr linkReg ++
    [storeRegisters o {call := true}, .icall (icallArgs o),
      loadRegisters o {callReturned := true}]

/-- The code of an instruction, up to where it ends its block or goes on to the next one. -/
def translate (addr : Nat) : Inst V A B W → List (Code V A B W)
  | .op op => [.mark, .op op, .br (addr + 4)]
  | .branch reads cond target => [.mark, .condBr reads cond target, .br (addr + 4)]
  | .jump target => [.mark, .br target]
  | .call base f linkReg =>
    .mark :: load base :: (handleCall o ofAddr addr f linkReg ++ [.br (addr + 4)])
  | .callExternal base e linkReg =>
    .mark :: load base :: (handleExternal o ofAddr addr e linkReg ++ [.br (addr + 4)])
  | .icall base dest linkReg =>
    .mark :: .target [base] dest :: (handleICall o ofAddr addr linkReg ++ [.br (addr + 4)])
  | .ecall eval =>
    [.mark, .ext ⟨[Reg.A7, Reg.A0, Reg.A1, Reg.A2, Reg.A3, Reg.A4, Reg.A5], [Reg.A0], eval⟩,
      .br (addr + 4)]
  | .ret => .mark :: load [Reg.RA] :: freturn o

/-- The address behind the last instruction. -/
def stop (F : Func V A B W) : Nat := F.start + 4 * F.body.length

def inst? (F : Func V A B W) (addr : Nat) : Option (Inst V A B W) :=
  if F.start ≤ addr ∧ (addr - F.start) % 4 = 0 then F.body[(addr - F.start) / 4]? else none

/-- The code at an address. A function that runs out of instructions returns. -/
def bodyAt (F : Func V A B W) (addr : Nat) : Option (List (Code V A B W)) :=
  match F.inst? addr with
  | some inst => some (translate o ofAddr addr inst)
  | none => if addr = F.stop then some (freturn o) else none

/-- The first block starts with the loading of the registers. -/
def codeAt (F : Func V A B W) (addr : Nat) : Option (List (Code V A B W)) :=
  (F.bodyAt o ofAddr addr).map fun code =>
    if addr = F.start then loadRegisters o {funcStart := true} :: code else code

/-- A register that some instruction of the function accesses. -/
def accessed (F : Func V A B W) (r : Reg) : Bool :=
  (List.range F.body.length).any fun i =>
    match F.bodyAt o ofAddr (F.start + 4 * i) with
    | some code => code.any fun c => r ∈ c.accesses
    | none => false

/-- The code that is left once the function is finished. -/
def cleanRegs (F : Func V A B W) (addr : Nat) : Option (List (Code V A B W)) :=
  (F.codeAt o ofAddr addr).map (List.map (Code.clean (F.accessed o ofAddr)))

end Func

/-! ### Runs -/

/-- An activation of a function. -/
structure Frame (V A B W : Type) where
  f : FnId
  /-- The guest instruction. -/
  addr : Nat
  /-- The code that is left to run of it. -/
  code : List (Code V A B W)
  regs : Reg → V
  target : Option FnId := none

/-- What a guest instruction sees when it starts. -/
structure Seen (V : Type) where
  f : FnId
  addr : Nat
  regs : Reg → V

structure State (V A B W : Type) where
  regs : Reg → V
  mem : A → B
  world : W
  stack : List (Frame V A B W)
  seen : List (Seen V) := []

/-- A translated program: its functions, the registers that are in local copies, what
local registers hold before they are written, the value of an address, and zero. -/
structure Program (V A B W : Type) where
  o : Options
  funcs : FnId → Option (Func V A B W)
  undef : State V A B W → Reg → V
  ofAddr : Nat → V
  zero : V

namespace Program
variable (P : Program V A B W) [DecidableEq A]

/-- Whether a function has a copy of a register: what it does not access stays in the
global file. -/
def isLocal (f : FnId) (r : Reg) : Bool :=
  P.o.localRegs && match P.funcs f with
    | some F => F.accessed P.o P.ofAddr r
    | none => false

/-- The value of a register for the running function. -/
def getReg (s : State V A B W) (fr : Frame V A B W) (r : Reg) : V :=
  if r = Reg.ZERO then P.zero
  else if P.isLocal fr.f r then fr.regs r
  else s.regs r

/-- Stores a list of values, one after the other. -/
def writeAll (mem : A → B) : List A → List B → A → B
  | a :: as, b :: bs => writeAll (Function.update mem a b) as bs
  | _, _ => mem

/-- As `writeAll`, for registers. Nothing is stored in `x0`. -/
def writeRegs (regs : Reg → V) : List Reg → List V → Reg → V
  | r :: rs, v :: vs => writeRegs (if r = Reg.ZERO then regs else Function.update regs r v) rs vs
  | _, _ => regs

/-- Writes registers of the running function: its copies, or the global ones. -/
def setRegs (s : State V A B W) (fr : Frame V A B W) (rs : List Reg) (vs : List V) :
    State V A B W × Frame V A B W :=
  if P.o.localRegs then (s, {fr with regs := writeRegs fr.regs rs vs})
  else ({s with regs := writeRegs s.regs rs vs}, fr)

/-- Enters a function, with local registers that hold anything. -/
def enter (s : State V A B W) (f : FnId) : Option (State V A B W) := do
  let F ← P.funcs f
  let code ← F.cleanRegs P.o P.ofAddr F.start
  pure {s with stack := {f := f, addr := F.start, code := code, regs := P.undef s} :: s.stack}

/-- Runs one item of the code of the function on top of the stack. -/
def exec (s : State V A B W) (fr : Frame V A B W) (rest : List (Frame V A B W)) :
    Code V A B W → Option (State V A B W)
  | .mark =>
    some {s with stack := fr :: rest, seen := s.seen ++ [⟨fr.f, fr.addr, P.getReg s fr⟩]}
  | .op o =>
    let vs := o.reads.map (P.getReg s fr)
    let (out, cells) := o.eval vs ((o.loads vs).map s.mem)
    let (s', fr') := P.setRegs s fr o.writes out
    some {s' with mem := writeAll s.mem (o.stores vs) cells, stack := fr' :: rest}
  | .ext e =>
    let (out, mem, world) := e.eval (e.args.map (P.getReg s fr)) s.mem s.world
    let (s', fr') := P.setRegs s fr e.rets out
    some {s' with mem := mem, world := world, stack := fr' :: rest}
  | .loadRegs regs =>
    some {s with stack := {fr with regs := fun r => if regs r then s.regs r else fr.regs r} :: rest}
  | .storeRegs regs =>
    some {s with regs := fun r => if regs r then fr.regs r else s.regs r, stack := fr :: rest}
  | .target reads dest =>
    some {s with stack := {fr with target := dest (reads.map (P.getReg s fr))} :: rest}
  | .call f => P.enter {s with stack := fr :: rest} f
  | .icall _ => do P.enter {s with stack := fr :: rest} (← fr.target)
  | .condBr reads cond addr =>
    if cond (reads.map (P.getReg s fr)) then
      some {s with stack := {fr with addr := addr, code := []} :: rest}
    else some {s with stack := fr :: rest}
  | .br addr => some {s with stack := {fr with addr := addr, code := []} :: rest}
  | .ret => some {s with stack := rest}

/-- One step: the next item of code, or on to the code of the next guest instruction. -/
def step (s : State V A B W) : Option (State V A B W) :=
  match s.stack with
  | [] => none
  | fr :: rest =>
    match fr.code with
    | c :: code => P.exec s {fr with code := code} rest c
    | [] => do
      let F ← P.funcs fr.f
      let code ← F.cleanRegs P.o P.ofAddr fr.addr
      pure {s with stack := {fr with code := code} :: rest}

/-- `n` steps of a run that starts in a function. -/
def run (regs : Reg → V) (mem : A → B) (world : W) (f : FnId) (n : Nat) :
    Option (State V A B W) :=
  P.enter {regs := regs, mem := mem, world := world, stack := []} f >>= Library.steps P.step n

end Program
end RiscvSbt.Registers
