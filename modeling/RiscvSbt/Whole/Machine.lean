import RiscvSbt.Block.Translate
import RiscvSbt.Context.Machine
import RiscvSbt.Syscall.Machine
import RiscvSbt.Translate.Control

/-! Whole programs: the guest's and the one it is translated to, register mode GLOBALS.

The blocks of the module say where its instructions are, and the translation of each guest
instruction says what these do (`Text.emit`): the metadata of an LLVM instruction tell which guest
instruction starts there, and behind it come the others that were made for it (`origin`). Put
together they run as a machine with a call stack (`Module.step`). The guest is a hart, of which it
is noted where its calls are to return to (`Thread.step`).

What is translated is RV32IM. Both machines keep what the kernel was asked for. What a function
begins with, before its first guest instruction, has been done here: in GLOBALS that is nothing, and
in `main` it passes the arguments and the stack. -/
namespace RiscvSbt.Whole
open Isa (Word Reg Memory Hart)
open Ir (Val)
open Block (Act FnId)
open Translate
open Syscall (Kernel Event Service MAX_ARGS)

/-! ### Emitted code -/

inductive Op where
  | ir (i : Ir.Instr)
  /-- The call that the guest instruction at an address makes. -/
  | call (addr : Nat)
  /-- The call of `rv_syscall`. -/
  | sys (dst : Nat) (args : List Ir.Ref)
  deriving DecidableEq, Repr

/-- What a guest instruction computes with, and what it does to control flow. -/
structure Emitted where
  ops : List Op
  act : Act
  /-- The condition of a branch. -/
  cond : Option Ir.Ref := none
  deriving DecidableEq, Repr

def irs {α : Type} (m : Build α) : List Op := m.code.map .ir

/-- The registers of a system call: `A7`, and those from `A0` on. -/
def argRegs : List Reg := 17 :: (List.range (MAX_ARGS - 1)).map fun i => Fin.ofNat 32 (10 + i)

def loads : List Reg → Build (List Ir.Value)
  | [] => pure []
  | r :: rs => do
    let v ← Builder.load r
    let vs ← loads rs
    pure (v :: vs)

/-- `Syscall::call`. -/
def ecall : List Op :=
  let (args, n, code) := loads argRegs 0
  code.map .ir ++ [.sys n (args.map Ir.Value.ref)] ++ (Builder.store ⟨.i32, .temp n⟩ 10
    (n + 1)).2.2.map .ir

/-- A section of code. Where there is no instruction, there is one that is left out here. -/
structure Text where
  inst : Nat → Option Isa.Instr
  /-- The internal function that the relocator finds for an indirect call. -/
  func : Nat → Option Nat := fun _ => none
  /-- Whether the instruction is in `main`. -/
  inMain : Nat → Bool := fun _ => false

namespace Text
variable (t : Text)

/-- A branch, with what its handler emits. Indirect calls and jumps are left out. -/
def dispatch (i : Branch) : Option Emitted :=
  match (i.translateBranch 0).1 with
  | .RETURN => some ⟨irs (i.translateBranch >>= fun _ => freturn (t.inMain i.addr)), .ret, none⟩
  | .JUMP target (some cond) _ => some ⟨irs i.translateBranch, .branch target, some cond.ref⟩
  | .JUMP target none _ => some ⟨irs i.translateBranch, .jump target, none⟩
  | .CALL target linkReg =>
    let ops := irs (i.translateBranch >>= fun _ => link i.addr linkReg) ++ [.call i.addr]
    if linkReg = 0 then some ⟨ops ++ irs (freturn (t.inMain i.addr)), .tail target, none⟩
    else some ⟨ops, .call target, none⟩
  | .IJUMP _ | .ICALL _ _ | .unreachable _ => none

def translate (addr : Nat) : Isa.Instr → Option Emitted
  | .comp i => some ⟨irs (Instruction.translate ⟨addr, disasm i, none⟩), .next, none⟩
  | .mul f rd rs1 rs2 =>
    some ⟨irs (Instruction.translate ⟨addr, disasmM f rd rs1 rs2, none⟩), .next, none⟩
  | .branch f rs1 rs2 offset => t.dispatch (disasmBranch addr f rs1 rs2 offset)
  | .jal rd offset => t.dispatch (disasmJAL addr rd offset)
  | .jalr rd rs1 offset => t.dispatch {disasmJALR addr rd rs1 offset with func := t.func addr}
  | .ecall => some ⟨ecall, .next, none⟩

def emit (addr : Nat) : Option Emitted := t.inst addr >>= t.translate addr

/-- The blocks are built from what is emitted. -/
def Covers (inst : Nat → Block.Inst) : Prop :=
  ∀ a e, t.emit a = some e → (inst a).ops = e.ops.length ∧ (inst a).act = e.act

end Text

/-! ### The guest -/

/-- A hart in a function, that other functions have called. -/
structure Thread where
  hart : Hart
  /-- Where the calls in progress are to return to, the last one first. -/
  calls : List Word := []
  /-- The function that was entered first has returned, or the process has exited. -/
  ended : Bool := false
  /-- What the kernel was asked for, the last first. -/
  trace : List Event := []

namespace Thread

/-- The kernel answers in `A0`. -/
def ecall (k : Kernel) (g : Thread) : Thread :=
  match k.ecall g.hart.mem g.trace (g.hart.get 17) ((argRegs.tail).map g.hart.get) with
  | .ok (v, trace) =>
    {g with hart := {g.hart.set 10 v with pc := g.hart.pc}, trace := trace}
  | .error (.exited trace) => {g with trace := trace, ended := true}
  | .error .lost => g

/-- What an instruction does beside what the hart does: to the calls in progress, by the registers
that it names, and by asking the kernel. -/
def calling (k : Kernel) (g : Thread) (hart : Hart) : Isa.Instr → Thread
  | .jal rd _ => {g with hart := hart, calls := if rd = 0 then g.calls
    else (g.hart.pc + 4) :: g.calls}
  | .jalr rd rs1 offset =>
    if Branch.IsReturn rd rs1 offset then
      {g with hart := hart, calls := g.calls.tail, ended := g.calls.isEmpty}
    else {g with hart := hart, calls := if rd = 0 then g.calls else (g.hart.pc + 4) :: g.calls}
  | .ecall => ({g with hart := hart} : Thread).ecall k
  | _ => {g with hart := hart}

def step (k : Kernel) (t : Text) (g : Thread) : Option Thread :=
  if g.ended then none
  else (t.inst g.hart.pc.toNat).map fun i => g.calling k (g.hart.step i) i

/-- What the translation relies on at an instruction: that LLVM has the division, that a return goes
where the call is to return to, that an indirect call goes to the function that the relocator has
found, and that there is the service. -/
def Relies (t : Text) (g : Thread) : Isa.Instr → Prop
  | .mul f _ rs1 rs2 => f.isDivision = true → Defined f (g.hart.get rs1) (g.hart.get rs2)
  | .jalr rd rs1 offset =>
    if Branch.IsReturn rd rs1 offset then
      ∀ r, g.calls.head? = some r → (g.hart.step (.jalr rd rs1 offset)).pc = r
    else rs1 ≠ 0 ∧ t.func g.hart.pc.toNat = some (g.hart.step (.jalr rd rs1 offset)).pc.toNat
  | .ecall => (Service.ofRv (g.hart.get 17)).isSome = true
  | _ => True

/-- The next instruction is one that is translated, and it is what the translation takes it for. -/
def Fine (t : Text) (g : Thread) : Prop :=
  g.ended = false → ∃ i, t.inst g.hart.pc.toNat = some i ∧ g.Relies t i

instance (t : Text) (g : Thread) : (i : Isa.Instr) → Decidable (g.Relies t i)
  | .mul f _ rs1 rs2 => inferInstanceAs (Decidable (f.isDivision = true →
      g.hart.get rs2 ≠ 0 ∧ ¬ (f.isSigned = true ∧ Isa.Overflows (g.hart.get rs1) (g.hart.get rs2))))
  | .jalr rd rs1 offset =>
    -- Not by trying every word.
    have := Option.decidableForallMem (p := ((g.hart.step (.jalr rd rs1 offset)).pc = ·))
      g.calls.head?
    inferInstanceAs (Decidable (if Branch.IsReturn rd rs1 offset then _ else _ ∧ _))
  | .ecall => inferInstanceAs (Decidable ((Service.ofRv (g.hart.get 17)).isSome = true))
  | .comp _ | .branch _ _ _ _ | .jal _ _ => inferInstanceAs (Decidable True)

instance (t : Text) (g : Thread) : Decidable (g.Fine t) :=
  inferInstanceAs (Decidable (g.ended = false → ∃ i ∈ t.inst g.hart.pc.toNat, g.Relies t i))

end Thread

/-! ### The module -/

/-- The guest instruction that an instruction was made for, by the marks, and as the how manieth. -/
def origin (marks : Nat → Option Nat) : Nat → Option (Nat × Nat)
  | 0 => (marks 0).map (·, 0)
  | i + 1 =>
    match marks (i + 1) with
    | some a => some (a, 0)
    | none => (origin marks i).map fun (a, m) => (a, m + 1)

structure Module where
  text : Text
  /-- What the blocks are built from. -/
  inst : Nat → Block.Inst
  blk : Block.State
  /-- The function that is called at an address. -/
  callee : Nat → Option FnId
  host : Syscall.Host

structure Frame where
  /-- What is left of the block. -/
  rest : List Block.Instr
  /-- The results of the instruction that is being executed. -/
  env : Nat → Val

structure Process extends Frame where
  stack : List Frame
  x : Reg → Word
  mem : Memory
  trace : List Event

namespace Process

def ir (s : Process) : Ir.State := ⟨s.env, s.x, s.mem⟩

/-- Registers and memory, as the ISA sees them. -/
def guest (s : Process) : Isa.State := ⟨s.x, s.mem⟩

/-- The arguments of a call. -/
def words (s : Process) : List Ir.Ref → Option (List Word)
  | [] => some []
  | r :: rs =>
    match r.eval s.ir with
    | .i32 w => (s.words rs).map (w :: ·)
    | _ => none

end Process

namespace Module
variable (M : Module)

/-- What an instruction does that does not touch control flow: `none` for nothing. -/
def content (i : Nat) : Option (Option Op) :=
  match origin M.blk.marks i with
  | none => some none
  | some (a, m) =>
    if m < (M.inst a).ops then M.text.emit a >>= fun e => e.ops[m]?.map some else some none

/-- The condition of the branch at an address. -/
def test (a : Nat) (s : Process) : Option Bool := do
  let cond ← (← M.text.emit a).cond
  match cond.eval s.ir with
  | .i1 v => some (v = 1)
  | _ => none

/-- A function begins with the first block of its layout. -/
def enter (f : FnId) (s : Process) : Option Process :=
  (M.blk.layout f).head?.map fun b => {s with rest := (M.blk.bbs b).insts, env := fun _ => .undef}

/-- A call of the handler. Where the process exits, nothing is left of it. -/
def sys (dst : Nat) (s : Process) (args : List Word) : Option Process :=
  match M.host.rv_syscall s.mem s.trace args with
  | .ok (v, trace) => some {s with env := Function.update s.env dst (.i32 v), trace := trace}
  | .error (.exited trace) => some {s with rest := [], trace := trace}
  | .error .lost => none

def exec : Op → Process → Option Process
  | .ir i, s => (Ir.step i s.ir).map fun t => {s with env := t.env, x := t.x, mem := t.mem}
  | .call a, s => M.callee a >>= fun f => M.enter f {s with stack := ⟨s.rest, s.env⟩ :: s.stack}
  | .sys dst args, s => s.words args >>= M.sys dst s

/-- One instruction. The process also ends when the first function returns. -/
def step (s : Process) : Option Process :=
  match s.rest with
  | [] => none
  | i :: rest =>
    match i.kind with
    | .op => M.content i.id >>= fun
      | none => some {s with rest := rest}
      | some op => M.exec op {s with rest := rest}
    | .br b => some {s with rest := (M.blk.bbs b).insts}
    | .condBr (.guest a) u v =>
      (M.test a s).map fun b => {s with rest := (M.blk.bbs (if b then u else v)).insts}
    | .ret =>
      match s.stack with
      | [] => some {s with rest := []}
      | frame :: stack => some {s with rest := frame.rest, env := frame.env, stack := stack}
    | .condBr .helper _ _ | .indBr | .unreachable => none

end Module
end RiscvSbt.Whole
