import RiscvSbt.Library.SortedMap
import Mathlib.Logic.Function.Basic

/-! How a block is split, by LLVM's own objects (`BasicBlock::split`).

Instructions and LLVM blocks are named by numbers. A terminator holds its successors, in whatever
block it is, and an iterator over them holds the terminator. `splitBasicBlock` is what is assumed
of LLVM: it wants a terminator, and successors that are not empty. An assertion that fails is an
error. -/
namespace RiscvSbt.Splitting
open Library

inductive Opcode where
  | op
  | br (bb : Nat)
  | retVoid
  /-- Any other terminator. -/
  | term (succs : List Nat)
  deriving DecidableEq, Repr

namespace Opcode

def isTerminator : Opcode → Bool
  | op => false
  | _ => true

def succs : Opcode → List Nat
  | br bb => [bb]
  | term succs => succs
  | _ => []

end Opcode

/-- A `BasicBlock *`: the object of a block, or another one for it on the stack. -/
inductive Ref where
  | of (bb : Nat)
  | tmp (bb : Nat)
  deriving DecidableEq, Repr

/-- The LLVM block behind it. -/
def Ref.bb : Ref → Nat
  | of bb => bb
  | tmp bb => bb

/-- The object of a block, without the LLVM block. -/
structure BasicBlock where
  /-- `none` for an invalid address. -/
  addr : Option Nat := none
  instrMap : Map Nat Nat := Map.empty

structure Builder where
  first : Option Nat := none
  bb : Option Ref := none
  savedBB : Option Ref := none
  updateFirst : Bool := true
  /-- The insert point of LLVM's builder: a block, and the instruction to insert before. -/
  point : Option (Nat × Option Nat) := none

structure State where
  instrs : Nat → Opcode
  nextInstr : Nat
  /-- `getInstList`. -/
  lists : Nat → List Nat
  nextBlock : Nat
  /-- The objects, by their LLVM blocks. -/
  bbs : Nat → BasicBlock
  bld : Builder

namespace State

/-! ### Builder -/

def setInsertBlock (s : State) (bb : Ref) (atBegin : Bool := false) : State :=
  let point := some (bb.bb, if atBegin then (s.lists bb.bb).head? else none)
  {s with bld := {s.bld with bb := some bb, point}}

def saveInsertBlock (s : State) : Except String State :=
  match s.bld.bb with
  | some bb => pure {s with bld := {s.bld with savedBB := some bb}}
  | none => throw "_bb"

def restoreInsertBlock (s : State) : Except String State :=
  match s.bld.savedBB with
  | some bb =>
    let s := s.setInsertBlock bb
    pure {s with bld := {s.bld with savedBB := none}}
  | none => throw "_savedBB"

def setUpdateFirst (s : State) (b : Bool) : State := {s with bld := {s.bld with updateFirst := b}}

def updateFirst (bld : Builder) (i : Nat) : Builder :=
  {bld with first := if bld.first = none ∧ bld.updateFirst then some i else bld.first}

def insertBefore (l : List Nat) (i : Nat) : Option Nat → List Nat
  | none => l ++ [i]
  | some next => l.flatMap fun j => if j = next then [i, j] else [j]

/-- Creates an instruction at the insert point. -/
def emit (s : State) (opcode : Opcode) : Nat × State :=
  let lists := match s.bld.point with
    | some (bb, next) => Function.update s.lists bb (insertBefore (s.lists bb) s.nextInstr next)
    | none => s.lists
  (s.nextInstr, { s with
    instrs := Function.update s.instrs s.nextInstr opcode
    nextInstr := s.nextInstr + 1
    lists
    bld := updateFirst s.bld s.nextInstr })

def retVoid (s : State) : Nat × State := s.emit .retVoid

/-! ### LLVM -/

def getTerminator (s : State) (bb : Nat) : Option Nat :=
  (s.lists bb).getLast?.filter fun i => (s.instrs i).isTerminator

structure SuccIterator where
  term : Nat
  idx : Nat
  deriving DecidableEq, Repr

/-- From `succ_begin` to `succ_end`. -/
def succIterators (s : State) (bb : Nat) : List SuccIterator :=
  match s.getTerminator bb with
  | some term => (List.range (s.instrs term).succs.length).map fun idx => ⟨term, idx⟩
  | none => []

def deref (s : State) (it : SuccIterator) : Except String Nat :=
  match (s.instrs it.term).succs[it.idx]? with
  | some bb => pure bb
  | none => throw "successor out of range"

/-- The instructions from `i` on move to a new block, that the old one then branches to. What the
successors begin with is read. -/
def splitBasicBlock (s : State) (bb i : Nat) : Except String (Nat × State) :=
  match s.getTerminator bb with
  | none => throw "Can't use splitBasicBlock on degenerate BB!"
  | some term =>
    let (top, bottom) := (s.lists bb).span (· ≠ i)
    let lists := Function.update (Function.update s.lists s.nextBlock bottom) bb
      (top ++ [s.nextInstr])
    if bottom = [] then throw "Trying to get me to create degenerate basic block!"
    else if (s.instrs term).succs.any (lists · = []) then throw "empty successor"
    else pure (s.nextBlock, { s with
      instrs := Function.update s.instrs s.nextInstr (.br s.nextBlock)
      nextInstr := s.nextInstr + 1
      lists
      nextBlock := s.nextBlock + 1 })

def eraseFromParent (s : State) (i : Nat) : State :=
  {s with lists := fun bb => (s.lists bb).filter (· ≠ i)}

/-! ### `BasicBlock::split` -/

/-- A return at the end of a block, that is not to count as the first instruction. -/
def dummyRet (s : State) (bb : Ref) : Except String (Nat × State) := do
  let s ← s.saveInsertBlock
  let (instr, s) := ((s.setUpdateFirst false).setInsertBlock bb).retVoid
  let s ← (s.setUpdateFirst true).restoreInsertBlock
  return (instr, s)

/-- Inserts a dummy instruction in the empty successors, and answers which these are. -/
def addDummies (s : State) : List SuccIterator → Except String (List SuccIterator × State)
  | [] => pure ([], s)
  | it :: rest => do
    let bb ← s.deref it
    if s.lists bb = [] then
      let (_, s) ← s.dummyRet (.tmp bb)
      let (empty, s) ← s.addDummies rest
      return (it :: empty, s)
    else s.addDummies rest

/-- Inserts a terminator if it is missing, and answers it. -/
def terminate (s : State) (bb : Nat) (term : Option Nat) : Except String (Option Nat × State) :=
  match term with
  | some _ => pure (none, s)
  | none => do
    let (instr, s) ← s.dummyRet (.of bb)
    return (some instr, s)

def eraseDummy (s : State) : Option Nat → State
  | some instr => s.eraseFromParent instr
  | none => s

/-- Removes the dummy instructions. -/
def clear (s : State) : List SuccIterator → Except String State
  | [] => pure s
  | it :: rest => do
    let bb ← s.deref it
    clear {s with lists := Function.update s.lists bb []} rest

/-- What stays in the map, and the new map. -/
def splitMap (map : Map Nat Nat) (key : Nat) : Map Nat Nat × Map Nat Nat :=
  if map.rest key = [] then (map, .empty) else (map.erase key, map.suffix key)

def divideMap (s : State) (bb bb2 addr : Nat) : State :=
  let (instrMap, instrMap2) := splitMap (s.bbs bb).instrMap addr
  let bbs := Function.update s.bbs bb {s.bbs bb with instrMap}
  {s with bbs := Function.update bbs bb2 ⟨some addr, instrMap2⟩}

def split (s : State) (bb addr : Nat) : Except String (Nat × State) := do
  match (s.bbs bb).instrMap.get? addr with
  | none => throw "instruction not found!"
  | some tgtInstr =>
    if tgtInstr ∈ s.lists bb then
      let term := s.getTerminator bb
      let (empty, s) ← s.addDummies (s.succIterators bb)
      let (instr, s) ← s.terminate bb term
      let (bb2, s) ← s.splitBasicBlock bb tgtInstr
      let s ← (s.eraseDummy instr).clear empty
      return (bb2, s.divideMap bb bb2 addr)
    else throw "i != e"

end State
end RiscvSbt.Splitting
