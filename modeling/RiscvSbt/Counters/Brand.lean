import Mathlib.Data.Nat.Notation
import Mathlib.Data.Int.Notation
import Mathlib.Algebra.GroupWithZero.Nat
import Mathlib.Algebra.Group.Int.Defs

/-! The CPU's frequency, from its brand string (`counters_init`), and the time (`get_time`).

Memory is the buffer of the brand string, as characters. `sscanf` is that of C, for one format;
what it stores of a number that is no `int` is left open. -/
namespace RiscvSbt.Counters

/-- What `cpuid` returns. -/
structure Cpuid where
  eax : BitVec 32
  ebx : BitVec 32
  ecx : BitVec 32
  edx : BitVec 32

/-- A register in memory. -/
def wordChars (w : BitVec 32) : List Char :=
  [w.extractLsb' 0 8, w.extractLsb' 8 8, w.extractLsb' 16 8, w.extractLsb' 24 8].map
    fun b => Char.ofNat b.toNat

def Cpuid.chars (r : Cpuid) : List Char :=
  wordChars r.eax ++ wordChars r.ebx ++ wordChars r.ecx ++ wordChars r.edx

/-- What the first loop stores, with `esi` from `0x80000002` until it is `0x80000005`. -/
def loop (cpuid : BitVec 32 → Cpuid) : List Char :=
  [0x80000002, 0x80000003, 0x80000004].flatMap fun esi => (cpuid esi).chars

/-- The second loop: the offset behind the last space before `esi`. Below the buffer it would
go on. -/
def loop2 (brand_str : List Char) : Nat → Option Nat
  | 0 => none
  | esi + 1 => if brand_str[esi]? = some ' ' then some (esi + 1) else loop2 brand_str esi

/-! ### `sscanf` -/

def isSpace (c : Char) : Bool := c ∈ [' ', '\t', '\n', '\x0b', '\x0c', '\r']

def decimal (ds : List Char) : Nat := ds.foldl (fun n c => 10 * n + (c.toNat - 48)) 0

/-- Whether there is a minus, and what is behind the sign. -/
def sign : List Char → Bool × List Char
  | '-' :: s => (true, s)
  | '+' :: s => (false, s)
  | s => (false, s)

/-- `%d`. -/
def scanInt (s : List Char) : Option (ℤ × List Char) :=
  let (neg, s) := sign (s.dropWhile isSpace)
  let ds := s.takeWhile Char.isDigit
  if ds = [] then none
  else some (if neg then -decimal ds else decimal ds, s.dropWhile Char.isDigit)

/-- `"%d.%d%c"`, all three items or nothing. -/
def sscanf (s : List Char) : Option (ℤ × ℤ × Char) :=
  match scanInt s with
  | some (l, '.' :: s) =>
    match scanInt s with
    | some (r, u :: _) => some (l, r, u)
    | _ => none
  | _ => none

/-- A number in an `int`. -/
def toInt (out : ℤ → BitVec 32) (n : ℤ) : BitVec 32 :=
  if -2 ^ 31 ≤ n ∧ n < 2 ^ 31 then BitVec.ofInt 32 n else out n

/-! ### The function -/

inductive Outcome where
  | freq (freq : BitVec 32)
  /-- The error message and `exit`. -/
  | error
  /-- The scan left the buffer. -/
  | lost
  deriving DecidableEq

def counters_init (cpuid : BitVec 32 → Cpuid) (out : ℤ → BitVec 32) : Outcome :=
  let brand_str := loop cpuid ++ List.replicate 16 '\x00'
  match loop2 brand_str 47 with
  | none => .lost
  | some esi =>
    match sscanf ((brand_str.drop esi).takeWhile (· ≠ '\x00')) with
    | none => .error
    | some (l, r, u) =>
      let freq_l := toInt out l
      let freq_r := toInt out r
      -- GHz: multiply by 1000, then add the number to the right of the '.'
      if u = 'G' then .freq (freq_l * 1000 + freq_r)
      -- MHz
      else if u = 'M' then .freq freq_l
      else .error

/-- `edx:eax` by a register, the quotient and the remainder. -/
def div (edx eax ebx : BitVec 32) : Option (BitVec 32 × BitVec 32) :=
  let n := edx.toNat * 2 ^ 32 + eax.toNat
  if ebx = 0 ∨ 2 ^ 32 ≤ n / ebx.toNat then none
  else some (BitVec.ofNat 32 (n / ebx.toNat), BitVec.ofNat 32 (n % ebx.toNat))

/-- The time in `edx:eax`, from the cycles there. -/
def get_time (freq edx eax : BitVec 32) : Option (BitVec 32 × BitVec 32) := do
  let (ecx, edx) ← div 0 edx freq
  let (eax, _) ← div edx eax freq
  return (ecx, eax)

end RiscvSbt.Counters
