import RiscvSbt.Library.Floating
import Mathlib.Logic.Function.Basic

/-! Float to integer conversion with validated inputs (`translateCVT`).

The builder emits into blocks. The input is tested against bounds in its own format, and one of
the blocks writes the destination register. The variable of a register is an `i32`: where the
tests store a bound in it as the floating constant that it is, there is no code. -/
namespace RiscvSbt.Float
open Library

inductive FType where
  | F_SINGLE | F_DOUBLE

inductive IType where
  | F_W | F_WU

def FType.format : FType → Format
  | F_SINGLE => .single
  | F_DOUBLE => .double

namespace IType

/-- `std::numeric_limits`. -/
def min : IType → ℤ
  | F_W => -2 ^ 31
  | F_WU => 0

def max : IType → ℤ
  | F_W => 2 ^ 31 - 1
  | F_WU => 2 ^ 32 - 1

end IType

/-- `ConstantFP::get`, of a number that has a rounding in the format. -/
def fp (f : Format) (val : ℤ) (h : f.Representable (f.roundInt val)) : Floating f :=
  .fin (f.roundInt val) h

/-! ### Emitted code -/

inductive Block where
  | bbCur | bbOORNeg | bbNotOORNeg | bbNegInf | bbNotNegInf | bbOORPos | bbNotOORPos | bbPosInf
  | bbNotPosInf | bbEnd
  deriving DecidableEq

/-- What the tests compare. -/
inductive Operand (f : Format) where
  | input
  | const (c : Floating f)

inductive Cond (f : Format) where
  | flt (a b : Operand f)
  | feq (a b : Operand f)

/-- What is stored: a constant, or the result of the conversion. -/
inductive Value (f : Format) where
  | const (c : Floating f)
  | converted

inductive Instr (f : Format) where
  | condBr (c : Cond f) (t e : Block)
  | br (b : Block)
  /-- Of the result of the conversion. -/
  | store (reg : Nat)
  | fpToSI
  | fpToUI

/-- The builder: the code of each block, and the one it emits into. -/
structure Builder (f : Format) where
  code : Block → List (Instr f) := fun _ => []
  insertBlock : Block := .bbCur

namespace Builder
variable {f : Format} (b : Builder f)

def emit (i : Instr f) : Builder f :=
  {b with code := Function.update b.code b.insertBlock (b.code b.insertBlock ++ [i])}

def setInsertBlock (bb : Block) : Builder f := {b with insertBlock := bb}

def condBr (c : Cond f) (t e : Block) : Builder f := b.emit (.condBr c t e)

def br (bb : Block) : Builder f := b.emit (.br bb)

/-- Writes to `x0` are dropped. `CreateStore` asserts that the value has the type of the variable
(and `verifyModule` refuses the module where it does not). -/
def store (v : Value f) (reg : Nat) : Except String (Builder f) :=
  if reg = 0 then pure b
  else match v with
    | .const _ => throw "Ptr must be a pointer to Val type!"
    | .converted => pure (b.emit (.store reg))

end Builder

/-- The tests of the input, with the bounds already in its format. The code that follows is for
valid inputs. -/
def validateRangeBegin {f : Format} (enableFCVTValidation : Bool) (min max : Floating f)
    (out : Nat) (b : Builder f) : Except String (Option Block × Builder f) := do
  if !enableFCVTValidation then return (none, b)
  else
    let ninf : Floating f := .inf true
    let pinf : Floating f := .inf false
    -- test: OOR neg
    let b := b.condBr (.flt .input (.const min)) .bbOORNeg .bbNotOORNeg
    let b := b.setInsertBlock .bbOORNeg
    let b ← b.store (.const min) out
    let b := b.br .bbEnd
    -- not OOR neg: test neg inf
    let b := b.setInsertBlock .bbNotOORNeg
    let b := b.condBr (.feq .input (.const ninf)) .bbNegInf .bbNotNegInf
    let b := b.setInsertBlock .bbNegInf
    let b ← b.store (.const min) out
    let b := b.br .bbEnd
    -- not neg inf: test OOR pos
    let b := b.setInsertBlock .bbNotNegInf
    let b := b.condBr (.flt (.const max) .input) .bbOORPos .bbNotOORPos
    let b := b.setInsertBlock .bbOORPos
    let b ← b.store (.const max) out
    let b := b.br .bbEnd
    -- not OOR pos: test pos inf
    let b := b.setInsertBlock .bbNotOORPos
    let b := b.condBr (.feq .input (.const pinf)) .bbPosInf .bbNotPosInf
    let b := b.setInsertBlock .bbPosInf
    let b ← b.store (.const max) out
    let b := b.br .bbEnd
    -- not pos inf (input is valid)
    return (some .bbEnd, b.setInsertBlock .bbNotPosInf)

def validateRangeEnd {f : Format} (bbEnd : Option Block) (b : Builder f) : Builder f :=
  match bbEnd with
  | some bb => (b.br bb).setInsertBlock bb
  | none => b

theorem representable_min (ft : FType) (it : IType) :
    ft.format.Representable (ft.format.roundInt it.min) := by
  have hW : ((-2 ^ 31 : ℤ) : ℚ) = ((-1 : ℤ) : ℚ) * (2 : ℚ) ^ (31 : ℤ) := by norm_num
  cases it with
  | F_W =>
    cases ft with
    | F_SINGLE =>
      have hround : Format.single.roundInt (-2 ^ 31) = -2 ^ 31 := by decide
      exact ⟨-1, 31, (congrArg _ hround).trans hW, by decide, by decide, by decide⟩
    | F_DOUBLE =>
      have hround : Format.double.roundInt (-2 ^ 31) = -2 ^ 31 := by decide
      exact ⟨-1, 31, (congrArg _ hround).trans hW, by decide, by decide, by decide⟩
  | F_WU => cases ft <;> exact Format.representable_intCast (by decide) (by decide) (by decide)

theorem representable_max (ft : FType) (it : IType) :
    ft.format.Representable (ft.format.roundInt it.max) := by
  cases ft with
  | F_SINGLE =>
    -- it is rounded up to a power of two
    cases it with
    | F_W =>
      have hround : Format.single.roundInt (2 ^ 31 - 1) = 2 ^ 31 := by decide
      have hpow : ((2 ^ 31 : ℤ) : ℚ) = ((1 : ℤ) : ℚ) * (2 : ℚ) ^ (31 : ℤ) := by norm_num
      exact ⟨1, 31, (congrArg _ hround).trans hpow, by decide, by decide, by decide⟩
    | F_WU =>
      have hround : Format.single.roundInt (2 ^ 32 - 1) = 2 ^ 32 := by decide
      have hpow : ((2 ^ 32 : ℤ) : ℚ) = ((1 : ℤ) : ℚ) * (2 : ℚ) ^ (32 : ℤ) := by norm_num
      exact ⟨1, 32, (congrArg _ hround).trans hpow, by decide, by decide, by decide⟩
  | F_DOUBLE => cases it <;> exact Format.representable_intCast (by decide) (by decide) (by decide)

def translateCVT (enableFCVTValidation : Bool) (it : IType) (ft : FType) (rd : Nat) :
    Except String (Builder ft.format) := do
  let min := fp ft.format it.min (representable_min ft it)
  let max := fp ft.format it.max (representable_max ft it)
  let (bbEnd, b) ← validateRangeBegin enableFCVTValidation min max rd {}
  let b := b.emit (match it with | .F_W => .fpToSI | .F_WU => .fpToUI)
  let b ← b.store .converted rd
  return validateRangeEnd bbEnd b

/-! ### Running it -/

/-- What a register holds. The conversion of an input that does not fit is poison. -/
inductive Content where
  | int (w : BitVec 32)
  | poison

structure State where
  x : Nat → Content
  /-- The result of the host conversion, once it was executed. -/
  converted : Option Content := none

section
variable {f : Format} (input : Floating f)

def Operand.eval : Operand f → Floating f
  | .input => input
  | .const c => c

def Cond.eval : Cond f → Bool
  | .flt a b => (a.eval input).olt (b.eval input)
  | .feq a b => (a.eval input).oeq (b.eval input)

/-- The host's conversion, toward zero. -/
def convert (it : IType) : Floating f → Content
  | .fin q _ =>
    if it.min ≤ trunc q ∧ trunc q ≤ it.max then .int (BitVec.ofInt 32 (trunc q)) else .poison
  | _ => .poison

/-- The code of a block, and where it goes. -/
def runBlock : List (Instr f) → State → State × Option Block
  | [], s => (s, none)
  | .condBr c t e :: _, s => (s, some (if c.eval input then t else e))
  | .br bb :: _, s => (s, some bb)
  | .store reg :: l, s =>
    runBlock l {s with x := Function.update s.x reg (s.converted.getD .poison)}
  | .fpToSI :: l, s => runBlock l {s with converted := some (convert .F_W input)}
  | .fpToUI :: l, s => runBlock l {s with converted := some (convert .F_WU input)}

/-- At most `n` blocks. -/
def run (code : Block → List (Instr f)) : Nat → Block → State → Option State
  | 0, _, _ => none
  | n + 1, bb, s =>
    match runBlock input (code bb) s with
    | (s, none) => some s
    | (s, some bb) => run code n bb s

end
end RiscvSbt.Float
