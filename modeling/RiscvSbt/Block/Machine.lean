import Mathlib.Logic.Function.Basic
import Mathlib.Data.Nat.Basic
import RiscvSbt.Library.SortedMap

/-! Basic blocks and the builder that fills them.

A tracked block stands for a stretch of guest code and is found by its address in
`bbMap`; an untracked one only holds auxiliary code of one guest instruction. The LLVM
block behind a `BasicBlock` is the list of instructions in it: `insts` ends with a
terminator once the block is terminated. Blocks and instructions are named by numbers,
for maps and terminators point to them. `INSTRUCTION_SIZE` is 4. -/
namespace RiscvSbt.Block
open Library

/-- An LLVM function of the module. -/
abbrev FnId := Nat

/-- The value a conditional branch tests: the comparison of the guest branch at an
address, or a test of auxiliary code. -/
inductive Cond where
  | guest (addr : Nat)
  | helper
  deriving DecidableEq, Repr

/-- What is told apart among LLVM instructions: the terminators. -/
inductive Kind where
  | op
  | br (bb : Nat)
  | condBr (cond : Cond) (t f : Nat)
  | ret
  | indBr
  | unreachable
  deriving DecidableEq, Repr

structure Instr where
  id : Nat
  kind : Kind
  deriving DecidableEq, Repr

namespace Kind

def isTerminator : Kind → Bool
  | op => false
  | _ => true

/-- `succ_begin` to `succ_end`; an indirect branch gets its destinations at the end of
the function. -/
def succs : Kind → List Nat
  | br bb => [bb]
  | condBr _ t f => [t, f]
  | _ => []

end Kind

/-- `getTerminator`: the last instruction, if it is a terminator. -/
def terminator (insts : List Instr) : Option Kind :=
  (insts.getLast?.map Instr.kind).filter Kind.isTerminator

structure BasicBlock where
  /-- The LLVM function the block is created in. -/
  f : FnId
  addr : Option Nat := none
  untracked : Bool := false
  insts : List Instr := []
  instrMap : Map Nat Nat := Map.empty

namespace BasicBlock

def getAddr (bb : BasicBlock) : Except String Nat :=
  match bb.addr with
  | some addr => pure addr
  | none => throw "basic block has invalid address!"

def terminated (bb : BasicBlock) : Bool := (terminator bb.insts).isSome

end BasicBlock

structure Builder where
  insertBlock : Nat := 0
  savedBlock : Option Nat := none
  first : Option Nat := none
  updateFirst : Bool := true

/-- The part of a `Function` object that block construction works on. -/
structure Function where
  f : FnId
  nextBB : Nat := 0
  bbMap : Map Nat Nat := Map.empty
  ubbMap : Map Nat (List Nat) := Map.empty
  indBrs : List Nat := []
  indBBs : List Nat := []

/-- The words of a data section that wait for the block of a label. -/
structure PendingReloc where
  sym : String
  secs : List (String × Nat)
  deriving DecidableEq, Repr

inductive Constant where
  | word (w : BitVec 32)
  | blockAddress (bb : Nat)
  deriving DecidableEq, Repr

structure State where
  bbs : Nat → BasicBlock
  nextBlock : Nat
  nextInstr : Nat
  /-- The metadata of an instruction: the guest instruction that starts there. -/
  marks : Nat → Option Nat
  /-- The blocks of an LLVM function, as they are laid out. -/
  layout : FnId → List Nat
  bld : Builder
  /-- The function being translated. -/
  func : Function
  pending : Map Nat PendingReloc
  sections : String → List Constant

namespace State

/-! ### Builder -/

def setBlock (s : State) (bb : Nat) (v : BasicBlock) : State :=
  {s with bbs := Function.update s.bbs bb v}

def insertBB (s : State) : BasicBlock := s.bbs s.bld.insertBlock

def setInsertBlock (s : State) (bb : Nat) : State :=
  {s with bld := {s.bld with insertBlock := bb}}

def saveInsertBlock (s : State) : State :=
  {s with bld := {s.bld with savedBlock := some s.bld.insertBlock}}

def restoreInsertBlock (s : State) : State :=
  match s.bld.savedBlock with
  | some bb => {s with bld := {s.bld with insertBlock := bb, savedBlock := none}}
  | none => s

def setUpdateFirst (s : State) (b : Bool) : State :=
  {s with bld := {s.bld with updateFirst := b}}

/-- `reset`, at the start of a guest instruction. -/
def reset (s : State) : State := {s with bld := {s.bld with first := none}}

def updateFirst (bld : Builder) (i : Nat) : Builder :=
  {bld with first := if bld.first = none ∧ bld.updateFirst then some i else bld.first}

/-- Creates an instruction at the end of the insert block. It has no metadata yet. -/
def emit (s : State) (kind : Kind) : State :=
  let bb := s.insertBB
  { s.setBlock s.bld.insertBlock {bb with insts := bb.insts ++ [⟨s.nextInstr, kind⟩]} with
    nextInstr := s.nextInstr + 1
    marks := Function.update s.marks s.nextInstr none
    bld := updateFirst s.bld s.nextInstr }

/-- `n` instructions that do not touch control flow. -/
def ops : Nat → State → State
  | 0, s => s
  | n + 1, s => ops n (s.emit .op)

def br (s : State) (bb : Nat) : State := s.emit (.br bb)

def condBr (s : State) (cond : Cond) (t f : Nat) : State := s.emit (.condBr cond t f)

def retVoid (s : State) : State := s.emit .ret

/-- `first`: makes a nop if nothing was emitted. -/
def getFirst (s : State) : State :=
  if s.bld.first = none then s.emit .op else s

/-! ### Blocks of the function -/

/-- A new block in the layout of its function, or before another one. -/
def placeBefore (layout : FnId → List Nat) (f : FnId) (bb : Nat) :
    Option Nat → FnId → List Nat
  | none => Function.update layout f (layout f ++ [bb])
  | some b => fun g => (layout g).flatMap fun x => if x = b then [bb, x] else [x]

def placeAfter (layout : FnId → List Nat) (b bb : Nat) : FnId → List Nat :=
  fun g => (layout g).flatMap fun x => if x = b then [x, bb] else [x]

/-- `BasicBlock::Create`. -/
def create (s : State) (bb : BasicBlock) (beforeBB : Option Nat) : State :=
  { s.setBlock s.nextBlock bb with
    nextBlock := s.nextBlock + 1
    layout := placeBefore s.layout bb.f s.nextBlock beforeBB }

def addBB (s : State) (addr : Nat) (bb : Nat) : State :=
  {s with func := {s.func with bbMap := s.func.bbMap.upsert addr bb}}

def newBB (s : State) (addr : Nat) (beforeBB : Option Nat) : Nat × State :=
  (s.nextBlock, (s.create {f := s.func.f, addr := some addr} beforeBB).addBB addr s.nextBlock)

def findBB (s : State) (addr : Nat) : Option Nat := s.func.bbMap.get? addr

def lowerBoundBB (s : State) (addr : Nat) : Option Nat :=
  (s.func.bbMap.lowerBound addr).map Prod.snd

/-- The untracked blocks of a guest instruction. -/
def ubbs (s : State) (addr : Nat) : List Nat := (s.func.ubbMap.get? addr).getD []

def newUBB (s : State) (addr : Nat) : Nat × State :=
  let bb := s.nextBlock
  let s := s.create {f := s.func.f, untracked := true} (s.lowerBoundBB (addr + 4))
  let ubbMap := s.func.ubbMap.upsert addr (s.ubbs addr ++ [bb])
  (bb, {s with func := {s.func with ubbMap := ubbMap}})

/-- The block that a backward jump to `addr` lands in. -/
def getBackBB (s : State) (addr : Nat) : Except String Nat :=
  match s.func.bbMap.lowerBound addr, s.func.bbMap.previous addr with
  | none, none => throw "empty bbMap!"
  | none, some (_, bb) => pure bb
  | some (key, bb), prev =>
    if key = addr then pure bb
    else match prev with
      | some (_, bb) => pure bb
      | none => pure bb

/-- The address of the next block; `none` for `INVALID_ADDR`. -/
def nextBBAddr (s : State) (curAddr : Nat) : Option Nat :=
  (s.func.bbMap.lowerBound (curAddr + 4)).map Prod.fst

def updateNextBB (s : State) (addr : Nat) : State :=
  if s.func.nextBB ≤ addr ∨ addr < s.func.nextBB then
    {s with func := {s.func with nextBB := addr}}
  else s

/-! ### Splitting -/

/-- A return at the end of a block, that is not to count as the first instruction. -/
def dummyRet (s : State) (bb : Nat) : State :=
  ((((s.saveInsertBlock.setUpdateFirst false).setInsertBlock bb).retVoid).setUpdateFirst
    true).restoreInsertBlock

/-- Gives every empty block of a list of successors a dummy instruction, and answers
which these are. -/
def addDummies (s : State) : List Nat → State × List Nat
  | [] => (s, [])
  | bb :: rest =>
    if (s.bbs bb).insts = [] then
      let (s, empty) := addDummies (s.dummyRet bb) rest
      (s, bb :: empty)
    else addDummies s rest

def clear (s : State) (bb : Nat) : State := s.setBlock bb {s.bbs bb with insts := []}

/-- `splitBasicBlock`: the instructions from `tgt` on move to a new block, that the old
one then branches to. -/
def splitBasicBlock (s : State) (bb : Nat) (tgt : Nat) : State :=
  let b := s.bbs bb
  let (top, bottom) := b.insts.span (·.id ≠ tgt)
  { (s.setBlock s.nextBlock {f := b.f, insts := bottom}).setBlock bb
      {b with insts := top ++ [⟨s.nextInstr, .br s.nextBlock⟩]} with
    nextBlock := s.nextBlock + 1
    nextInstr := s.nextInstr + 1
    marks := Function.update s.marks s.nextInstr none
    layout := placeAfter s.layout bb s.nextBlock }

/-- `splitMap`, and the new block's address. -/
def splitInstrMap (s : State) (bb bb2 : Nat) (addr : Nat) : State :=
  let m := (s.bbs bb).instrMap
  (s.setBlock bb {s.bbs bb with instrMap := m.erase addr}).setBlock bb2
    {s.bbs bb2 with addr := some addr, instrMap := m.suffix addr}

def eraseLast (s : State) (bb : Nat) : State :=
  s.setBlock bb {s.bbs bb with insts := (s.bbs bb).insts.dropLast}

def split (s : State) (bb : Nat) (addr : Nat) : Except String (Nat × State) :=
  match (s.bbs bb).instrMap.get? addr with
  | none => throw "instruction not found!"
  | some tgt =>
    if (s.bbs bb).insts.any (·.id = tgt) then
      let bb2 := s.nextBlock
      let term := terminator (s.bbs bb).insts
      -- splitBasicBlock breaks on an empty successor and on a missing terminator.
      let (s, empty) := s.addDummies ((term.map Kind.succs).getD [])
      let s := if term.isNone then s.dummyRet bb else s
      let s := s.splitBasicBlock bb tgt
      let s := if term.isNone then s.eraseLast bb2 else s
      let s := empty.foldl clear s
      pure (bb2, s.splitInstrMap bb bb2 addr)
    else throw "i != e"

end State
end RiscvSbt.Block
