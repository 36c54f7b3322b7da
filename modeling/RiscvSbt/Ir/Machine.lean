import RiscvSbt.Isa.Rv32i
import RiscvSbt.Library.Emit

/-! The part of the LLVM IR that translated computation and memory instructions use.

Integers of the widths the translator emits, pointers of 32 bits, and memory seen
through them as little-endian bytes. Guest registers are global variables, apart
from guest memory. A shift by its operand's width or more is poison, and a division by
zero or one that overflows is undefined: running them is stuck, so that a simulation
result says it does not happen. -/
namespace RiscvSbt.Ir
open Isa (Word Byte Reg Memory)

inductive Ty where
  | i1 | i8 | i16 | i32 | i64
  | ptr (pointee : Ty)
  deriving DecidableEq, Repr

/-- What a value is at run time. -/
inductive Val where
  | i1 (v : BitVec 1)
  | i8 (v : BitVec 8)
  | i16 (v : BitVec 16)
  | i32 (v : BitVec 32)
  | i64 (v : BitVec 64)
  | ptr (a : Word)
  /-- What a constant that is undefined is folded to. -/
  | undef
  deriving DecidableEq, Repr

/-- A constant or the result of an instruction. -/
inductive Ref where
  | const (v : Val)
  | temp (name : Nat)
  deriving DecidableEq, Repr

/-- `llvm::Value`: a reference with its static type. -/
structure Value where
  ty : Ty
  ref : Ref
  deriving DecidableEq, Repr

inductive BinOp where
  | add | sub | and | or | xor | shl | lshr | ashr | mul | sdiv | udiv | srem | urem
  deriving DecidableEq, Repr

inductive Pred where
  | eq | ne | ult | slt | sge | uge
  deriving DecidableEq, Repr

inductive CastOp where
  | sext | zext | trunc | intToPtr | bitCast
  deriving DecidableEq, Repr

inductive Instr where
  | loadReg (dst : Nat) (r : Reg)
  | storeReg (v : Ref) (r : Reg)
  | bin (dst : Nat) (op : BinOp) (a b : Ref)
  | icmp (dst : Nat) (p : Pred) (a b : Ref)
  | cast (dst : Nat) (op : CastOp) (v : Ref) (ty : Ty)
  | gep (dst : Nat) (ptr idx : Ref)
  | load (dst : Nat) (ty : Ty) (ptr : Ref)
  | store (v ptr : Ref)
  deriving DecidableEq, Repr

/-- Instruction results, the registers' global variables and guest memory. -/
structure State where
  env : Nat → Val
  x : Reg → Word
  mem : Memory

def Ref.eval (s : State) : Ref → Val
  | .const v => v
  | .temp n => s.env n

def BinOp.eval {w : Nat} (a b : BitVec w) : BinOp → Option (BitVec w)
  | .add => some (a + b)
  | .sub => some (a - b)
  | .and => some (a &&& b)
  | .or => some (a ||| b)
  | .xor => some (a ^^^ b)
  | .shl => if b.toNat < w then some (a <<< b.toNat) else none
  | .lshr => if b.toNat < w then some (a >>> b.toNat) else none
  | .ashr => if b.toNat < w then some (a.sshiftRight b.toNat) else none
  | .mul => some (a * b)
  | .sdiv => if b = 0 ∨ a = BitVec.intMin w ∧ b = BitVec.allOnes w then none else some (a.sdiv b)
  | .udiv => if b = 0 then none else some (a / b)
  | .srem => if b = 0 ∨ a = BitVec.intMin w ∧ b = BitVec.allOnes w then none else some (a.srem b)
  | .urem => if b = 0 then none else some (a % b)

def Pred.eval {w : Nat} (a b : BitVec w) : Pred → Bool
  | .eq => a == b
  | .ne => a != b
  | .ult => a.ult b
  | .slt => a.slt b
  | .sge => b.sle a
  | .uge => b.ule a

def CastOp.eval : CastOp → Val → Ty → Option Val
  | .sext, .i8 v, .i32 => some (.i32 (v.signExtend 32))
  | .sext, .i16 v, .i32 => some (.i32 (v.signExtend 32))
  | .sext, .i32 v, .i64 => some (.i64 (v.signExtend 64))
  | .zext, .i1 v, .i32 => some (.i32 (v.setWidth 32))
  | .zext, .i8 v, .i32 => some (.i32 (v.setWidth 32))
  | .zext, .i16 v, .i32 => some (.i32 (v.setWidth 32))
  | .zext, .i32 v, .i64 => some (.i64 (v.setWidth 64))
  | .trunc, .i32 v, .i8 => some (.i8 (v.setWidth 8))
  | .trunc, .i32 v, .i16 => some (.i16 (v.setWidth 16))
  | .trunc, .i64 v, .i32 => some (.i32 (v.setWidth 32))
  | .intToPtr, .i32 v, .ptr _ => some (.ptr v)
  | .bitCast, .ptr a, .ptr _ => some (.ptr a)
  | _, _, _ => none

def loadVal (m : Memory) (a : Word) : Ty → Option Val
  | .i8 => some (.i8 (m a))
  | .i16 => some (.i16 (m.read16 a))
  | .i32 => some (.i32 (m.read32 a))
  | _ => none

def storeVal (m : Memory) (a : Word) : Val → Option Memory
  | .i8 v => some (m.write8 a v)
  | .i16 v => some (m.write16 a v)
  | .i32 v => some (m.write32 a v)
  | _ => none

/-- The result of an instruction, under its name. -/
def State.define (s : State) (dst : Nat) (v : Val) : State :=
  {s with env := Function.update s.env dst v}

/-- One instruction; an ill-typed or undefined one is stuck. -/
def step : Instr → State → Option State
  | .loadReg dst r, s => some (s.define dst (.i32 (s.x r)))
  | .storeReg v r, s =>
    match v.eval s with
    | .i32 w => some {s with x := Function.update s.x r w}
    | _ => none
  | .bin dst op a b, s =>
    match a.eval s, b.eval s with
    | .i32 x, .i32 y => (op.eval x y).map fun v => s.define dst (.i32 v)
    | .i64 x, .i64 y => (op.eval x y).map fun v => s.define dst (.i64 v)
    | _, _ => none
  | .icmp dst p a b, s =>
    match a.eval s, b.eval s with
    | .i32 x, .i32 y => some (s.define dst (.i1 (BitVec.ofBool (p.eval x y))))
    | _, _ => none
  | .cast dst op v ty, s => (op.eval (v.eval s) ty).map fun w => s.define dst w
  | .gep dst ptr idx, s =>
    -- On i8 the index is a byte offset; it wraps at the pointers' width.
    match ptr.eval s, idx.eval s with
    | .ptr a, .i32 i => some (s.define dst (.ptr (a + i)))
    | _, _ => none
  | .load dst ty ptr, s =>
    match ptr.eval s with
    | .ptr a => (loadVal s.mem a ty).map fun v => s.define dst v
    | _ => none
  | .store v ptr, s =>
    match ptr.eval s with
    | .ptr a => (storeVal s.mem a (v.eval s)).map fun m => {s with mem := m}
    | _ => none

/-- Runs emitted code. -/
def run (code : List Instr) (s : State) : Option State := Library.exec step code s

end RiscvSbt.Ir
