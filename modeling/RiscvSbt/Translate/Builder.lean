import RiscvSbt.Ir.Machine

/-! The builder of translated code (`Builder.h`), register mode GLOBALS.

Each operation emits the one instruction the source asks LLVM's builder for and
answers its value. Registers are the module's global variables, so `load` and
`store` of a register number go straight to them, and `x0` has none. -/
namespace RiscvSbt.Translate
open Isa (Word Reg)
open Ir (Ty Val Value Instr)
open Library (Emit)

/-- Emits LLVM instructions. -/
abbrev Build := Emit Instr

/-- `Constants::i32`: the low 32 bits of a host integer. -/
def i32 (i : Int) : Value := ⟨.i32, .const (.i32 (BitVec.ofInt 32 i))⟩

/-- `Constants::i64`. -/
def i64 (i : Int) : Value := ⟨.i64, .const (.i64 (BitVec.ofInt 64 i))⟩

/-- `Constants::ZERO`. -/
def ZERO : Value := i32 0

namespace Builder

/-- Emits an instruction that defines a value of type `ty`. -/
def define (ty : Ty) (i : Nat → Instr) : Build Value := do
  let name ← Emit.fresh i
  pure ⟨ty, .temp name⟩

/-- `load(unsigned reg)`. -/
def load (reg : Reg) : Build Value := define .i32 (.loadReg · reg)

/-- `store(Value*, unsigned reg)`: nothing is emitted for `x0`. -/
def store (v : Value) (reg : Reg) : Build Unit :=
  if reg = 0 then pure () else Emit.plain (.storeReg v.ref reg)

def add (a b : Value) : Build Value := define a.ty (.bin · .add a.ref b.ref)
def sub (a b : Value) : Build Value := define a.ty (.bin · .sub a.ref b.ref)
def and_ (a b : Value) : Build Value := define a.ty (.bin · .and a.ref b.ref)
def or_ (a b : Value) : Build Value := define a.ty (.bin · .or a.ref b.ref)
def xor_ (a b : Value) : Build Value := define a.ty (.bin · .xor a.ref b.ref)
def sll (a b : Value) : Build Value := define a.ty (.bin · .shl a.ref b.ref)
def srl (a b : Value) : Build Value := define a.ty (.bin · .lshr a.ref b.ref)
def sra (a b : Value) : Build Value := define a.ty (.bin · .ashr a.ref b.ref)

/-- LLVM's `neg` is a subtraction from zero. -/
def neg (a : Value) : Build Value := sub ZERO a

/-- LLVM's `not` is an exclusive or with all ones. -/
def not_ (a : Value) : Build Value := xor_ a (i32 (-1))

def ult (a b : Value) : Build Value := define .i1 (.icmp · .ult a.ref b.ref)
def slt (a b : Value) : Build Value := define .i1 (.icmp · .slt a.ref b.ref)

def sext (v : Value) : Build Value := define .i32 (.cast · .sext v.ref .i32)
def zext (v : Value) : Build Value := define .i32 (.cast · .zext v.ref .i32)

def sext64 (v : Value) : Build Value := define .i64 (.cast · .sext v.ref .i64)
def zext64 (v : Value) : Build Value := define .i64 (.cast · .zext v.ref .i64)

/-- A value already of the type is answered as it is. -/
def truncOrBitCast (v : Value) (ty : Ty) : Build Value :=
  if v.ty = ty then pure v else define ty (.cast · .trunc v.ref ty)

def mul (a b : Value) : Build Value := define a.ty (.bin · .mul a.ref b.ref)

/-- The high half of a product: both operands are extended, and `shift` takes it down. -/
def mulHigh (extA extB : Value → Build Value) (shift : Value → Value → Build Value) (a b : Value) :
    Build Value := do
  let a64 ← extA a
  let b64 ← extB b
  let v ← mul a64 b64
  let v ← shift v (i64 32)
  truncOrBitCast v .i32

def mulh (a b : Value) : Build Value := mulHigh sext64 sext64 sra a b
def mulhu (a b : Value) : Build Value := mulHigh zext64 zext64 srl a b
def mulhsu (a b : Value) : Build Value := mulHigh sext64 zext64 sra a b

/-- A division. Of two constants LLVM's builder makes a constant, which is undefined where
the division is. -/
def divide (op : Ir.BinOp) (a b : Value) : Build Value :=
  match a.ref, b.ref with
  | .const (.i32 x), .const (.i32 y) =>
    pure ⟨a.ty, .const (((op.eval x y).map .i32).getD .undef)⟩
  | _, _ => define a.ty (.bin · op a.ref b.ref)

def div (a b : Value) : Build Value := divide .sdiv a b
def divu (a b : Value) : Build Value := divide .udiv a b
def rem (a b : Value) : Build Value := divide .srem a b
def remu (a b : Value) : Build Value := divide .urem a b

/-- An integer becomes a pointer by `inttoptr`, a pointer by `bitcast`; a value
already of the type is answered as it is. -/
def bitOrPointerCast (v : Value) (ty : Ty) : Build Value :=
  if v.ty = ty then pure v
  else match v.ty with
    | .ptr _ => define ty (.cast · .bitCast v.ref ty)
    | _ => define ty (.cast · .intToPtr v.ref ty)

def gep (ptr idx : Value) : Build Value := define ptr.ty (.gep · ptr.ref idx.ref)

/-- `load(Value* ptr)`: a load of what the pointer's type points to. -/
def loadPtr (ptr : Value) : Build Value :=
  match ptr.ty with
  | .ptr ty => define ty (.load · ty ptr.ref)
  | ty => define ty (.load · ty ptr.ref)

/-- `store(Value*, Value* ptr)`. -/
def storePtr (v ptr : Value) : Build Unit := Emit.plain (.store v.ref ptr.ref)

end Builder
end RiscvSbt.Translate
