import RiscvSbt.Block.Machine

/-! Building the blocks of a function (`translateInstrs` and what it calls).

An instruction is given by how many LLVM instructions it computes with and by what it
does to control flow. Every direct target is 4-aligned: the disassembler is set up
without compressed instructions. -/
namespace RiscvSbt.Block
open Library

/-- What an instruction does to control flow. A call returns to the next instruction;
`tail` is a call to a known function that links nothing. -/
inductive Act where
  | next
  | call (target : Nat)
  | icall
  | cvt
  | branch (target : Nat)
  | jump (target : Nat)
  | ret
  | ijump
  | tail (target : Nat)
  deriving DecidableEq, Repr

/-- The block that a branch or a jump goes to. -/
def Act.target? : Act → Option Nat
  | branch t | jump t => some t
  | _ => none

structure Inst where
  ops : Nat
  act : Act
  aligned : ∀ t, act.target? = some t → t % 4 = 0

namespace Inst

/-- An instruction that does nothing to control flow. -/
def straight (ops : Nat) : Inst := ⟨ops, .next, nofun⟩

def ret (ops : Nat) : Inst := ⟨ops, .ret, nofun⟩

def call (ops target : Nat) : Inst := ⟨ops, .call target, nofun⟩

def branch (ops target : Nat) (h : target % 4 = 0) : Inst :=
  ⟨ops, .branch target, fun _ ht => Option.some.inj ht ▸ h⟩

def ijump (ops : Nat) : Inst := ⟨ops, .ijump, nofun⟩

end Inst

/-- The options that shape the code of indirect calls and of conversions, and how many
instructions synchronising the registers and passing arguments to the icaller take. -/
structure Options where
  syncOnExternalCalls : Bool := false
  icallIntOnly : Bool := false
  useICallerForIIntFuncs : Bool := false
  hardFloatABI : Bool := false
  enableFCVTValidation : Bool := false
  stored : Nat := 0
  loaded : Nat := 0
  retLoaded : Nat := 0
  icaller : Nat := 0

namespace State
variable (opts : Options) (addr : Nat)

/-! ### Indirect calls -/

/-- Also answers whether it has tested the target for being external. -/
def leaveFunction (s : State) : State × Bool :=
  if opts.syncOnExternalCalls ∨ opts.icallIntOnly then (s.ops opts.stored, false)
  else
    let s := s.ops 2
    let (bbSaveRegs, s) := s.newUBB addr
    let (bbICall, s) := s.newUBB addr
    let s := s.condBr .helper bbICall bbSaveRegs
    let s := ((s.setInsertBlock bbSaveRegs).ops opts.stored).br bbICall
    (s.setInsertBlock bbICall, true)

def enterFunction (s : State) : State :=
  if opts.syncOnExternalCalls then s.ops opts.loaded
  else if opts.icallIntOnly then s.ops opts.loaded
  else
    let (bbRestoreRegs, s) := s.newUBB addr
    let (bbRestoreRetRegs, s) := s.newUBB addr
    let (bbRestoreEnd, s) := s.newUBB addr
    let s := s.condBr .helper bbRestoreRetRegs bbRestoreRegs
    let s := ((s.setInsertBlock bbRestoreRegs).ops opts.loaded).br bbRestoreEnd
    let s := ((s.setInsertBlock bbRestoreRetRegs).ops opts.retLoaded).br bbRestoreEnd
    s.setInsertBlock bbRestoreEnd

def callICaller (s : State) : State := s.ops (opts.icaller + 1)

/-- The call itself, to an external or to an internal function. -/
def icall (ext : Bool) (s : State) : State :=
  if opts.useICallerForIIntFuncs then s.callICaller opts
  else if opts.icallIntOnly then s.ops 2
  else
    let s := if ext then s else s.ops 2
    let (bbICallExt, s) := s.newUBB addr
    let (bbICallInt, s) := s.newUBB addr
    let (bbICallEnd, s) := s.newUBB addr
    let s := s.condBr .helper bbICallExt bbICallInt
    let s := s.setInsertBlock bbICallExt
    let s := (if opts.hardFloatABI then s.ops 1 else s.callICaller opts).br bbICallEnd
    let s := ((s.setInsertBlock bbICallInt).ops 2).br bbICallEnd
    s.setInsertBlock bbICallEnd

def handleICall (s : State) : State :=
  let (s, ext) := s.leaveFunction opts addr
  (s.icall opts addr ext).enterFunction opts addr

/-! ### Conversions -/

/-- A test of the input, that goes on at `f` after the block of `t` stored a bound. -/
def outOfRange (s : State) (t f bbEnd : Nat) : State :=
  let s := (s.ops 1).condBr .helper t f
  let s := ((s.setInsertBlock t).ops 1).br bbEnd
  s.setInsertBlock f

def validateRangeBegin (s : State) : State × Option Nat :=
  if opts.enableFCVTValidation then
    let (bbOORNeg, s) := s.newUBB addr
    let (bbNotOORNeg, s) := s.newUBB addr
    let (bbNegInf, s) := s.newUBB addr
    let (bbNotNegInf, s) := s.newUBB addr
    let (bbOORPos, s) := s.newUBB addr
    let (bbNotOORPos, s) := s.newUBB addr
    let (bbPosInf, s) := s.newUBB addr
    let (bbNotPosInf, s) := s.newUBB addr
    let (bbEnd, s) := s.newUBB addr
    let s := s.outOfRange bbOORNeg bbNotOORNeg bbEnd
    let s := s.outOfRange bbNegInf bbNotNegInf bbEnd
    let s := s.outOfRange bbOORPos bbNotOORPos bbEnd
    let s := s.outOfRange bbPosInf bbNotPosInf bbEnd
    (s, some bbEnd)
  else (s, none)

def validateRangeEnd (s : State) : Option Nat → State
  | some bbEnd => (s.br bbEnd).setInsertBlock bbEnd
  | none => s

def translateCVT (s : State) : State :=
  let (s, bbEnd) := s.validateRangeBegin opts addr
  (s.ops 2).validateRangeEnd bbEnd

/-! ### Branches and jumps -/

def inBounds (val b e : Nat) : Bool := b ≤ val ∧ val < e

def targetInBounds (target : Nat) (bb : BasicBlock) : Except String Bool := do
  let b ← bb.getAddr
  pure (inBounds target b (b + bb.insts.length * 4))

def jumpForward (s : State) (target : Nat) : Except String (Nat × State) :=
  let create (bb : Option Nat) : Except String (Nat × State) :=
    let (targetBB, s) := s.newBB target bb
    pure (targetBB, s.updateNextBB target)
  match s.lowerBoundBB target with
  | none => create none
  | some bb => do
    if (← (s.bbs bb).getAddr) = target then pure (bb, s) else create (some bb)

def jumpBackward (s : State) (target : Nat) : Except String (Nat × State) := do
  let targetBB ← s.getBackBB target
  if ← targetInBounds target (s.bbs targetBB) then
    if (← (s.bbs targetBB).getAddr) = target then pure (targetBB, s)
    else
      -- If we are on the block that is split, we go on with its lower part.
      let switchToTargetBB := s.bld.insertBlock = targetBB
      let (bb, s) ← s.split targetBB target
      let s := s.addBB target bb
      pure (bb, if switchToTargetBB then s.setInsertBlock bb else s)
  else throw "target basic block not found!"

/-- The block of the next instruction, for a jump that does not link. -/
def needNextBB (s : State) : State :=
  let s := match s.findBB (addr + 4) with
    | some _ => s
    | none => (s.newBB (addr + 4) (s.lowerBoundBB (addr + 4))).2
  s.updateNextBB (addr + 4)

/-- Only ever called with `linkReg` zero: a jump that links is a call. -/
def handleJump (s : State) (target : Nat) (cond : Option Cond) (linkReg : Nat) :
    Except String State := do
  if target = addr then throw "unexpected jump to self instruction!"
  let (targetBB, s) ← if addr < target then s.jumpForward target else s.jumpBackward target
  let s := if cond.isNone ∧ linkReg ≠ 0 then s.emit .op else s
  let s := if linkReg = 0 then s.needNextBB addr else s
  match cond with
  | some cond =>
    match s.findBB (addr + 4) with
    | some next => pure (s.condBr cond targetBB next)
    | none => throw "no block after a conditional branch"
  | none => pure (s.br targetBB)

def handleIJump (s : State) : State :=
  let ibr := s.nextInstr
  let s := s.emit .indBr
  {s with func := {s.func with indBrs := s.func.indBrs ++ [ibr]}}

/-! ### Instructions -/

/-- Marks the first instruction as where the guest instruction starts. -/
def dbgprint (s : State) : State :=
  let s := s.getFirst
  match s.bld.first with
  | some i => {s with marks := Function.update s.marks i (some addr)}
  | none => s

def translate (inst : Inst) (s : State) : Except String State := do
  let s := s.reset.ops inst.ops
  let s ← match inst.act with
    | .next | .call _ => pure s
    | .icall => pure (s.handleICall opts addr)
    | .cvt => pure (s.translateCVT opts addr)
    | .branch target => s.handleJump addr target (some (.guest addr)) 0
    | .jump target => s.handleJump addr target none 0
    | .ijump => pure s.handleIJump
    | .ret | .tail _ => pure s.retVoid
  pure (s.dbgprint addr)

/-! ### Pending relocations -/

/-- One word of a section becomes the address of the block. -/
def patch (bb : Nat) (sections : String → List Constant) (sec : String × Nat) :
    Except String (String → List Constant) :=
  if sec.2 % 4 ≠ 0 then throw "sec.offs % 4 == 0"
  else if (sections sec.1).length ≤ sec.2 / 4 then throw "op < aty->getNumElements()"
  else pure (Function.update sections sec.1 ((sections sec.1).set (sec.2 / 4) (.blockAddress bb)))

def processPending (s : State) (bb : Nat) : Except String (Nat × State) :=
  match s.pending.get? addr with
  | none => pure (bb, s)
  | some prel => do
    let (nbb, s) ← do
      if (← (s.bbs bb).getAddr) = addr then pure (bb, s)
      else
        let (nbb, s) ← s.split bb addr
        pure (nbb, (s.addBB addr nbb).setInsertBlock nbb)
    let sections ← prel.secs.foldlM (patch nbb) s.sections
    pure (nbb, { s with
      sections := sections
      pending := s.pending.remove addr
      func := {s.func with indBBs := s.func.indBBs ++ [nbb]} })

/-! ### The loop -/

/-- Moves to the block of `addr`, if there is to be one. -/
def updateCurrentBB (s : State) : State :=
  if s.func.nextBB ≠ 0 ∧ addr = s.func.nextBB then
    let (bbptr, s) := match s.findBB addr with
      | some bb => (bb, s)
      | none => s.newBB addr (s.lowerBoundBB addr)
    let s := if s.insertBB.terminated then s else s.br bbptr
    let s := s.setInsertBlock bbptr
    match s.nextBBAddr addr with
    | some nextBB => s.updateNextBB nextBB
    | none => s
  else s

/-- The block that the translated instruction starts in: its first instruction is not
where it was begun if the block was split meanwhile. -/
def firstBB (s : State) (bb : Nat) (first : Nat) : Except String Nat :=
  if (s.bbs bb).insts.any (·.id = first) then pure bb
  else if s.insertBB.untracked then throw "!bb->untracked()"
  else if s.insertBB.insts.any (·.id = first) then pure s.bld.insertBlock
  else throw "bb->bb() == fbb"

def addInstr (s : State) (bb : Nat) (first : Nat) : State :=
  s.setBlock bb {s.bbs bb with instrMap := (s.bbs bb).instrMap.upsert addr first}

/-- Enters the translated instruction in the map of its block. -/
def record (s : State) (bb : Nat) : Except String (Nat × State) :=
  let s := s.getFirst
  match s.bld.first with
  | none => throw "_first"
  | some first => do
    let bb ← s.firstBB bb first
    pure (bb, s.addInstr addr bb first)

/-- Opens a new block at the next instruction, if the current one cannot go on. -/
def closeBB (s : State) : State :=
  if s.insertBB.terminated ∨ s.insertBB.untracked then s.updateNextBB (addr + 4) else s

/-- One turn of the loop, when the function is not switched. -/
def translateInstr (inst : Inst) (s : State) : Except String State := do
  let s := s.updateCurrentBB addr
  let bb := s.bld.insertBlock
  let s ← s.translate opts addr inst
  let (bb, s) ← s.record addr bb
  let (_, s) ← s.processPending addr bb
  pure (s.closeBB addr)

/-- The loop over `n` instructions from `addr` on. -/
def translateInstrs (body : Nat → Inst) : Nat → Nat → State → Except String State
  | 0, _, s => pure s
  | n + 1, addr, s => do
    translateInstrs body n (addr + 4) (← s.translateInstr opts addr (body addr))

/-- `start`: the entry block, filled with the loading of the registers. -/
def start (prologue : Nat) (s : State) : State :=
  let (bb, s) := match s.findBB addr with
    | some bb => (bb, s)
    | none => s.newBB addr none
  (s.setInsertBlock bb).ops prologue

end State
end RiscvSbt.Block
