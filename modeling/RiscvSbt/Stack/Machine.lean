import Mathlib.Data.BitVec
import RiscvSbt.Registers.Machine

/-! The loads and stores of a frame, and the spill variables of `optStack`.

With `optStack` a floating access whose base register is `sp` goes to a variable of the
translated function in place of the guest stack: the variable of its offset. Every other access
goes to the guest stack, with the option and without. -/
namespace RiscvSbt.Stack
open Registers

/-- `optStack`: the option is for `ABI` mode only. -/
def optStack (regs : Regs) (opt : Bool) : Bool := decide (regs = .ABI) && opt

/-- `setCFAOffs`, where `sp` is set to itself plus a constant. There is no offset before the
prologue. -/
def setCFAOffs (optStack : Bool) (cfaOffs : Option Int) (addr : Int) :
    Except String (Option Int) :=
  if !optStack then pure cfaOffs
  else do
    let cfaOffs ← match cfaOffs with
      | none => if addr < 0 then pure addr else throw "_cfaOffs != INVALID_CFA || addr < 0"
      | some cfa => if cfa + addr = 0 then return some cfa else pure (cfa + addr)
    if cfaOffs % 16 = 0 then pure (some cfaOffs)
    else throw "SP must always be 16-byte aligned"

/-- The index of a spill variable in `getSpilledAddress`, none where there is no variable. -/
def getSpilledAddress (optStack : Bool) (cfaOffs : Int) (imm : Int) : Option Int :=
  if !optStack then none
  else
    -- `offs &= ~3`
    let offs := if imm % 4 ≠ 0 then 4 * (imm / 4) else imm
    let idx := -cfaOffs - offs
    if idx < 4 then none else some idx

inductive Op where
  | lb | lbu | lh | lhu | lw | sb | sh | sw
  | flw | fld | fsw | fsd
  deriving DecidableEq, Repr

namespace Op

def isStore : Op → Bool
  | sb | sh | sw | fsw | fsd => true
  | _ => false

/-- The accesses of `translateFPLoad` and `translateFPStore`. -/
def isFloat : Op → Bool
  | flw | fld | fsw | fsd => true
  | _ => false

/-- In bytes. -/
def width : Op → Nat
  | lb | lbu | sb => 1
  | lh | lhu | sh => 2
  | lw | sw | flw | fsw => 4
  | fld | fsd => 8

theorem width_pos (op : Op) : 0 < op.width := by cases op <;> decide

theorem width_le (op : Op) : op.width ≤ 8 := by cases op <;> decide

end Op

/-- The base register of an access: `sp` itself, or one that a pointer into the frame is in. -/
inductive Base where
  | sp
  | pointer
  deriving DecidableEq, Repr

/-- An access to a frame: where it begins, above the lowered `sp`. -/
structure Access (frame : Nat) where
  op : Op
  base : Base
  offs : Nat
  inside : offs + op.width ≤ frame

variable {frame : Nat}

/-- Where a translated access goes: to a spill variable, or to the guest stack. Loads and stores
of integers are not asked for. -/
def Access.spill (opt : Bool) (cfa : Int) (a : Access frame) : Option Int :=
  if a.op.isFloat && a.base = .sp then getSpilledAddress opt cfa a.offs else none

/-- The frame in the guest stack, and the spill variables by index. A variable holds nothing
before its first store. -/
structure Memory where
  stack : Nat → BitVec 8
  spills : Int → Nat → Option (BitVec 8)

/-- At the prologue. -/
def Memory.init (stack : Nat → BitVec 8) : Memory := ⟨stack, fun _ _ => none⟩

/-- The byte `j` of a stored value, the lowest first. -/
def byte (v : BitVec 64) (j : Nat) : BitVec 8 := v.extractLsb' (8 * j) 8

/-- An access covers a byte of the frame. -/
def Access.covers (a : Access frame) (b : Nat) : Bool := a.offs ≤ b && b < a.offs + a.op.width

namespace Memory

def store (opt : Bool) (cfa : Int) (m : Memory) (a : Access frame) (v : BitVec 64) : Memory :=
  match a.spill opt cfa with
  | none => {m with stack := fun b => if a.covers b then byte v (b - a.offs) else m.stack b}
  | some idx =>
    {m with
      spills := fun i j =>
        if i = idx ∧ j < a.op.width then some (byte v j) else m.spills i j}

/-- A loaded byte, none where it is undefined. -/
def loadByte (opt : Bool) (cfa : Int) (m : Memory) (a : Access frame) (j : Nat) :
    Option (BitVec 8) :=
  match a.spill opt cfa with
  | none => some (m.stack (a.offs + j))
  | some idx => m.spills idx j

def load (opt : Bool) (cfa : Int) (m : Memory) (a : Access frame) : List (Option (BitVec 8)) :=
  (List.range a.op.width).map (m.loadByte opt cfa a)

end Memory

/-- What the loads return, where the store at each place writes the value for that place. -/
def loads (opt : Bool) (cfa : Int) (values : Nat → BitVec 64) :
    Memory → Nat → List (Access frame) → List (List (Option (BitVec 8)))
  | _, _, [] => []
  | m, n, a :: as =>
    if a.op.isStore then loads opt cfa values (m.store opt cfa a (values n)) (n + 1) as
    else m.load opt cfa a :: loads opt cfa values m (n + 1) as

end RiscvSbt.Stack
