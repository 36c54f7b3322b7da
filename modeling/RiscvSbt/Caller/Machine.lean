import Mathlib.Data.BitVec

/-! Calls to external functions.

The arguments of an external function are taken from the registers of the guest, as its type
asks for them. An indirect call gives the first eight argument registers to the icaller, that
takes them one by one in place of the registers. -/
namespace RiscvSbt.Caller

/-- The types of parameters: a word or a pointer, a float or a double. -/
inductive Param where
  | i32
  | ptr
  | float
  | double
  deriving DecidableEq, Repr

inductive RetType where
  | void
  | i32
  | ptr
  | float
  | double
  /-- A long double, that is returned by reference. -/
  | fp128
  deriving DecidableEq, Repr

structure FuncType where
  params : List Param
  ret : RetType

/-- A value of LLVM. -/
inductive Val where
  | i32 (w : BitVec 32)
  | ptr (w : BitVec 32)
  | float (w : BitVec 32)
  | double (d : BitVec 64)
  deriving DecidableEq, Repr

/-- The guest at a call: its registers, and the words of its stack from `sp` on. -/
structure Guest where
  x : Nat → BitVec 32
  f : Nat → BitVec 64
  stack : Nat → BitVec 32

namespace Val

def word : Val → BitVec 32
  | i32 w | ptr w | float w => w
  | double d => d.setWidth 32

/-- `bitOrPointerCast`, of a word. -/
def cast (v : Val) : Param → Val
  | .i32 => i32 v.word
  | .ptr => ptr v.word
  | .float => float v.word
  | .double => double (v.word.setWidth 64)

end Val

/-- `i32x2ToFP64`. -/
def i32x2ToFP64 (lo hi : Val) : Val :=
  .double ((hi.word.setWidth 64 <<< 32) ||| lo.word.setWidth 64)

end RiscvSbt.Caller

namespace RiscvSbt

/-- The registers that are next, and the parameter whose type is. -/
structure Caller where
  hf : Bool
  params : List Caller.Param
  reg : Nat := 10
  freg : Nat := 10
  argIdx : Nat := 0
  passZero : Bool := false
  /-- The arguments that are given, from the next one on. -/
  args : Option (List (BitVec 32)) := none

end RiscvSbt

namespace RiscvSbt.Caller

/-- The words of the arguments, that are not variadic. -/
def wordArgs (hf : Bool) (params : List Param) : Nat :=
  (params.map fun ty => if !hf && ty = .double then 2 else 1).sum

section
variable (g : Guest) (c : Caller)

def nextArg : Val × Caller :=
  if c.passZero then (.i32 0, c)
  else match c.args with
    | some [] => (.i32 0, {c with passZero := true})
    | some (v :: args) => (.i32 v, {c with args := some args})
    | none =>
      let (ty, c) := match c.hf, c.params[c.argIdx]? with
        | true, some ty => (ty, {c with argIdx := c.argIdx + 1})
        | _, _ => (Param.i32, c)
      match ty with
      | .float => (.float ((g.f c.freg).setWidth 32), {c with freg := c.freg + 1})
      | .double => (.double (g.f c.freg), {c with freg := c.freg + 1})
      | .i32 | .ptr => (.i32 (g.x c.reg), {c with reg := c.reg + 1})

/-- A double of the soft-float ABI has its upper half in the next argument. -/
def castArg (v : Val) (ty : Param) : Val × Caller :=
  if c.hf then
    if ty = .ptr then (v.cast ty, c) else (v, c)
  else match ty with
    | .i32 => (v, c)
    | .double => let (hi, c) := nextArg g c; (i32x2ToFP64 v hi, c)
    | .ptr | .float => (v.cast ty, c)

/-- Passes the arguments, one after the other. -/
def passArgs : Caller → List Param → List Val × Caller
  | c, [] => ([], c)
  | c, ty :: tys =>
    let (v, c) := nextArg g c
    let (v, c) := castArg g c v ty
    let (vs, c) := passArgs c tys
    (v :: vs, c)

/-- Where a long double is returned to, the arguments, and the caller after that. -/
def callExternal (ret : RetType) : Option Val × List Val × Caller :=
  let (retref, c) := if ret = .fp128 then let (v, c) := nextArg g c; (some v, c) else (none, c)
  let (vs, c) := passArgs g c c.params
  (retref, vs, c)

end

/-- The arguments of `callICaller`, after the target. -/
def callICaller (g : Guest) : List (BitVec 32) := (List.range 8).map fun i => g.x (10 + i)

/-- The case of a function in the icaller, which is made for the soft-float ABI only. -/
def genICaller (g : Guest) (ft : FuncType) (icargs : List (BitVec 32)) :
    Except String (Option Val × List Val) :=
  let n := wordArgs false ft.params
  if icargs.length < n then throw "past the end of the arguments"
  else
    let c : Caller := {hf := false, params := ft.params, args := some (icargs.take n)}
    let (retref, vs, _) := callExternal g c ft.ret
    pure (retref, vs)

/-- `Translator::import` admits a function. -/
def FuncType.Admitted (ft : FuncType) : Prop := ft.params.length < 9

end RiscvSbt.Caller
