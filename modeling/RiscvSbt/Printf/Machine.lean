import RiscvSbt.Library.Run

/-! Printf calls with many arguments, or with doubles, broken into simple ones
(`PrintfBreak.cpp`).

The format string is cut where a group of arguments ends: behind at most four integers or
pointers, or behind one double. A call is issued for each piece, and the sum of what they
answer takes the place of the answer of the original call. -/
namespace RiscvSbt.Printf

/-- A variable argument, with its type. -/
inductive Arg where
  | int (bits : Nat) (v : BitVec bits)
  | ptr (a : BitVec 32)
  | float (v : BitVec 32)
  | double (v : BitVec 64)
  deriving DecidableEq

namespace Arg

def isDouble : Arg → Bool
  | .double _ => true
  | _ => false

/-- Arguments of two words. -/
def is2xLen : Arg → Bool
  | .int bits _ => 32 < bits
  | .double _ => true
  | _ => false

end Arg

/-- The data of one printf call. -/
structure PCall where
  fmt : List Char
  args : Nat
  isDouble : Bool
  deriving DecidableEq, Repr

/-- The index of the next argument and their number; of the calls so far the last one holds
what is left of the format string. -/
structure State where
  i : Nat
  n : Nat
  front : List PCall := []
  back : PCall
  deriving DecidableEq, Repr

def State.pcalls (st : State) : List PCall := st.front ++ [st.back]

/-- Counts percent signs that are not escaped, up to number `n + 1`, and answers the position
where the string is cut: that of the last one, or the end. -/
def advance (n : Nat) : Nat → List Char → Except String (Nat × Nat)
  | count, [] => pure (count, 0)
  | count, c :: s =>
    if c = '%' then
      match s with
      | [] => throw "pos < s.size()"
      | c :: s => do
        let count := if c ≠ '%' then count + 1 else count
        if count = n + 1 then pure (count, 0)
        else do
          let (count, pos) ← advance n count s
          pure (count, pos + 2)
    else do
      let (count, pos) ← advance n count s
      pure (count, pos + 1)

namespace State

/-- Cuts the format string behind the next `n` arguments, if there are more. -/
def split (st : State) (n : Nat) (isDouble : Bool) : Except String State := do
  if isDouble && n ≠ 1 then throw "!isDouble || isDouble && n == 1"
  else do
    let s := st.back.fmt
    let (count, pos) ← advance n 0 s
    if ¬ (count = n + 1 ∨ count = n ∧ pos = s.length) then
      throw "count == n + 1 || count == n && pos == s.size()"
    else if count ≠ n then
      pure { st with
        i := st.i + n
        front := st.front ++ [⟨s.take pos, n, isDouble⟩]
        back := ⟨s.drop pos, st.n - (st.i - 1) - n, false⟩ }
    else if isDouble then
      pure {st with i := st.i + n, back := {st.back with args := n, isDouble := isDouble}}
    else pure {st with i := st.i + n}

/-- The loop over up to four arguments, `j` of which have been looked at. A double ends it.
The last argument of a group that is not broken is none. -/
def group (st : State) (j : Nat) : List Arg → Except String (State × List Arg)
  | [] => do pure (← st.split j false, [])
  | arg :: args =>
    if j = 4 then do pure (← st.split j false, arg :: args)
    else match arg with
      | .float _ => throw "!ty->isFloatTy()"
      | .int bits _ =>
        if bits ≤ 32 then group st (j + 1) args else throw "ty->getIntegerBitWidth() <= 32"
      | .ptr _ => group st (j + 1) args
      | .double _ => do
        -- The integers before it are flushed first.
        let st ← if j ≠ 0 then st.split j false else pure st
        pure (← st.split 1 true, args)

/-- The loop over the groups. Each has an argument, so that there are no more of them. -/
def groups : Nat → State → List Arg → Except String State
  | _, st, [] => pure st
  | 0, _, _ :: _ => throw "groups"
  | fuel + 1, st, arg :: args => do
    let (st, rest) ← st.group 0 (arg :: args)
    groups fuel st rest

end State

inductive Callee where
  | printf
  | sbt_printf_d
  deriving DecidableEq, Repr

/-- A call in the translated program. -/
structure Call where
  callee : Callee
  fmt : List Char
  args : List Arg
  deriving DecidableEq

/-- The calls, each with its share of the original arguments. -/
def issueNewCalls : List PCall → List Arg → Except String (List Call)
  | [], [] => pure []
  | [], _ :: _ => throw "argit == ocall->arg_end()"
  | pcall :: pcalls, args => do
    let n := if pcall.isDouble then 1 else pcall.args
    if args.length < n then throw "*argit"
    else do
      let callee := if pcall.isDouble then Callee.sbt_printf_d else .printf
      let calls ← issueNewCalls pcalls (args.drop n)
      pure (⟨callee, pcall.fmt, args.take n⟩ :: calls)

/-- The calls that take the place of a printf call, if it has to be broken. -/
def breakPrintfCall (fmt : List Char) (args : List Arg) : Except String (Option (List Call)) := do
  if args.length < 5 ∧ ¬ args.any Arg.is2xLen then pure none
  else do
    let st ← State.groups args.length ⟨1, args.length, [], ⟨fmt, args.length, false⟩⟩ args
    pure (some (← issueNewCalls st.pcalls args))

/-! ### Running the calls -/

/-- What a call prints. Both functions hand their arguments to the C library. -/
def Call.prints (format : List Char → List Arg → List UInt8) (c : Call) : List UInt8 :=
  format c.fmt c.args

/-- What a call answers: how many bytes it printed. -/
def Call.answers (format : List Char → List Arg → List UInt8) (c : Call) : BitVec 32 :=
  BitVec.ofNat 32 (c.prints format).length

/-- What calls print, one after the other. -/
def prints (format : List Char → List Arg → List UInt8) (calls : List Call) : List UInt8 :=
  calls.flatMap (Call.prints format)

/-- The sum of what they answer, as it is added up. -/
def answers (format : List Char → List Arg → List UInt8) (calls : List Call) : BitVec 32 :=
  calls.foldl (fun ret c => ret + c.answers format) (0 + 0)

/-- The calls that are made where the program calls printf. -/
def issued (fmt : List Char) (args : List Arg) : Except String (List Call) := do
  pure ((← breakPrintfCall fmt args).getD [⟨.printf, fmt, args⟩])

end RiscvSbt.Printf
