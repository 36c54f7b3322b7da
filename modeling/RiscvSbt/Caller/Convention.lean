import Mathlib.Data.List.Basic
import RiscvSbt.Caller.Machine

/-! Arguments and the calling convention.

`convention` is what ilp32 and ilp32d assign to the parameters of a function. What a `Caller`
passes agrees with it as long as all words come from registers: it goes on with the registers
behind the last one of the arguments, and never to the stack. -/
namespace RiscvSbt.Caller

/-- How many argument registers and words of the stack are used. -/
structure Locs where
  a : Nat := 0
  fa : Nat := 0
  s : Nat := 0

def nextWord (g : Guest) (l : Locs) : BitVec 32 × Locs :=
  if l.a < 8 then (g.x (10 + l.a), {l with a := l.a + 1}) else (g.stack l.s, {l with s := l.s + 1})

/-- Two words, that are aligned if both are on the stack. -/
def nextPair (g : Guest) (l : Locs) : BitVec 64 × Locs :=
  let l := if l.a < 8 then l else {l with s := l.s + l.s % 2}
  let (lo, l) := nextWord g l
  let (hi, l) := nextWord g l
  (hi ++ lo, l)

/-- The value of a parameter. -/
def assignOne (hf : Bool) (g : Guest) (l : Locs) (ty : Param) : Val × Locs :=
  match ty with
  | .i32 => let (w, l) := nextWord g l; (.i32 w, l)
  | .ptr => let (w, l) := nextWord g l; (.ptr w, l)
  | .float =>
    if hf && l.fa < 8 then (.float ((g.f (10 + l.fa)).setWidth 32), {l with fa := l.fa + 1})
    else let (w, l) := nextWord g l; (.float w, l)
  | .double =>
    if hf && l.fa < 8 then (.double (g.f (10 + l.fa)), {l with fa := l.fa + 1})
    else let (d, l) := nextPair g l; (.double d, l)

def assign (hf : Bool) (g : Guest) : Locs → List Param → List Val
  | _, [] => []
  | l, ty :: tys => let (v, l) := assignOne hf g l ty; v :: assign hf g l tys

/-- The values of the parameters; where a long double is to be returned to takes the first word. -/
def convention (hf : Bool) (g : Guest) (ft : FuncType) : List Val :=
  assign hf g (if ft.ret = .fp128 then (nextWord g {}).2 else {}) ft.params

/-- A direct call passes what the convention assigns and uses no register beyond `a7` and `fa7`,
and an indirect one passes the same. -/
structure Conforms (hf : Bool) (ft : FuncType) : Prop where
  direct : ∀ g retref vs c,
    callExternal g {hf := hf, params := ft.params} ft.ret = (retref, vs, c) →
      vs = convention hf g ft ∧ c.reg ≤ 18 ∧ c.freg ≤ 18
  indirect : hf = false → ∀ g retref vs c,
    callExternal g {hf := hf, params := ft.params} ft.ret = (retref, vs, c) →
      ∃ retref', genICaller g ft (callICaller g) = .ok (retref', vs)

def Param.isWord : Param → Bool
  | i32 | ptr => true
  | _ => false

/-- All arguments are in registers, and where a long double is returned, the word for its address
does not get in the way of others. -/
def InRegisters (hf : Bool) (ft : FuncType) : Prop :=
  if ft.ret = .fp128 then
    if hf then (∀ ty ∈ ft.params, ty.isWord = true) ∧ ft.params.length ≤ 7 else ft.params = []
  else hf = true ∨ wordArgs false ft.params ≤ 8

variable {g : Guest} {c : Caller} {tys : List Param} {hf : Bool} {l : Locs} {ws : List (BitVec 32)}

/-! ### Words of registers -/

/-- The arguments, if all their words are in the registers from `k` on. -/
def fromRegs (g : Guest) : Nat → List Param → List Val
  | _, [] => []
  | k, ty :: tys =>
    if ty = .double then .double (g.x (k + 1) ++ g.x k) :: fromRegs g (k + 2) tys
    else (Val.i32 (g.x k)).cast ty :: fromRegs g (k + 1) tys

@[simp] theorem wordArgs_nil (hf : Bool) : wordArgs hf [] = 0 := rfl

theorem wordArgs_cons (ty : Param) (tys : List Param) :
    wordArgs false (ty :: tys) = (if ty = .double then 2 else 1) + wordArgs false tys := by
  simp [wordArgs]

theorem wordArgs_words (h : ∀ ty ∈ tys, ty.isWord = true) : wordArgs false tys = tys.length := by
  induction tys with
  | nil => rfl
  | cons ty tys ih =>
    have hty : ty ≠ .double := by
      rintro rfl
      simpa [Param.isWord] using h _ List.mem_cons_self
    rw [wordArgs_cons, if_neg hty, ih fun x hx => h x (.tail ty hx), List.length_cons, Nat.add_comm]

theorem append_eq (lo hi : BitVec 32) :
    (hi.setWidth 64 <<< 32) ||| lo.setWidth 64 = hi ++ lo := by
  apply BitVec.eq_of_toNat_eq
  have h₁ : hi.toNat % 2 ^ 64 = hi.toNat := Nat.mod_eq_of_lt (by have := hi.isLt; omega)
  have h₂ : lo.toNat % 2 ^ 64 = lo.toNat := Nat.mod_eq_of_lt (by have := lo.isLt; omega)
  have h₃ : hi.toNat * 2 ^ 32 % 2 ^ 64 = hi.toNat * 2 ^ 32 :=
    Nat.mod_eq_of_lt (by have := hi.isLt; omega)
  rw [BitVec.toNat_append, BitVec.toNat_or, BitVec.toNat_shiftLeft, BitVec.toNat_setWidth,
    BitVec.toNat_setWidth, h₁, h₂, Nat.shiftLeft_eq, h₃]

theorem i32x2ToFP64_eq (lo hi : BitVec 32) :
    i32x2ToFP64 (.i32 lo) (.i32 hi) = .double (hi ++ lo) :=
  congrArg Val.double (append_eq lo hi)

/-! ### The soft-float ABI -/

theorem nextArg_soft (hhf : c.hf = false) (hz : c.passZero = false) (ha : c.args = none) :
    nextArg g c = (.i32 (g.x c.reg), {c with reg := c.reg + 1}) := by
  simp [nextArg, hhf, hz, ha]

theorem castArg_word {w : BitVec 32} {ty : Param} (hhf : c.hf = false) (hty : ty ≠ .double) :
    castArg g c (.i32 w) ty = ((Val.i32 w).cast ty, c) := by
  cases ty with
  | double => exact absurd rfl hty
  | i32 | ptr | float => simp [castArg, hhf, Val.cast, Val.word]

theorem castArg_double {lo hi : BitVec 32} {c' : Caller} (hhf : c.hf = false)
    (h : nextArg g c = (.i32 hi, c')) :
    castArg g c (.i32 lo) .double = (.double (hi ++ lo), c') := by
  simp [castArg, hhf, h, i32x2ToFP64_eq]

theorem passArgs_cons {ty : Param} {v v' : Val} {c₁ c₂ : Caller} (hnext : nextArg g c = (v, c₁))
    (hcast : castArg g c₁ v ty = (v', c₂)) :
    passArgs g c (ty :: tys) = (v' :: (passArgs g c₂ tys).1, (passArgs g c₂ tys).2) := by
  rw [passArgs, hnext]
  simp only [hcast]

/-- Direct calls take one register after the other. -/
theorem passArgs_soft (hhf : c.hf = false) (hz : c.passZero = false) (ha : c.args = none) :
    passArgs g c tys = (fromRegs g c.reg tys, {c with reg := c.reg + wordArgs false tys}) := by
  induction tys generalizing c with
  | nil => rfl
  | cons ty tys ih =>
    rw [wordArgs_cons]
    let next : Caller := {c with reg := c.reg + 1}
    have hfirst : nextArg g c = (.i32 (g.x c.reg), next) := nextArg_soft hhf hz ha
    by_cases hty : ty = .double
    · let last : Caller := {c with reg := c.reg + 2}
      have hnext : nextArg g next = (.i32 (g.x (c.reg + 1)), last) := nextArg_soft hhf hz ha
      have hcast : castArg g next (.i32 (g.x c.reg)) .double =
          (.double (g.x (c.reg + 1) ++ g.x c.reg), last) := castArg_double hhf hnext
      have hrest : passArgs g last tys =
          (fromRegs g (c.reg + 2) tys, {last with reg := c.reg + 2 + wordArgs false tys}) :=
            ih hhf hz ha
      rw [hty, passArgs_cons hfirst hcast, hrest]
      simp [fromRegs, last, Nat.add_assoc]
    · have hcast : castArg g next (.i32 (g.x c.reg)) ty = ((Val.i32 (g.x c.reg)).cast ty, next) :=
        castArg_word hhf hty
      have hrest : passArgs g next tys =
          (fromRegs g (c.reg + 1) tys, {next with reg := c.reg + 1 + wordArgs false tys}) :=
            ih hhf hz ha
      rw [passArgs_cons hfirst hcast, hrest]
      simp [fromRegs, next, hty, Nat.add_assoc]

theorem nextArg_args {w : BitVec 32} (hz : c.passZero = false) (ha : c.args = some (w :: ws)) :
    nextArg g c = (.i32 w, {c with args := some ws}) := by
  simp [nextArg, hz, ha]

/-- The icaller takes the same words from its arguments. -/
theorem passArgs_args {k : Nat} (hhf : c.hf = false) (hz : c.passZero = false)
    (ha : c.args = some ws) (hws : ∀ i < wordArgs false tys, ws[i]? = some (g.x (k + i))) :
    (passArgs g c tys).1 = fromRegs g k tys := by
  induction tys generalizing c ws k with
  | nil => rfl
  | cons ty tys ih =>
    rw [wordArgs_cons] at hws
    cases ws with
    | nil => simpa using hws 0 (by split <;> omega)
    | cons w ws =>
      obtain rfl : w = g.x k := by simpa using hws 0 (by split <;> omega)
      let next : Caller := {c with args := some ws}
      have hfirst : nextArg g c = (.i32 (g.x k), next) := nextArg_args hz ha
      by_cases hty : ty = .double
      · subst hty
        rw [if_pos rfl] at hws
        cases ws with
        | nil => simpa using hws 1 (by omega)
        | cons w ws =>
          obtain rfl : w = g.x (k + 1) := by simpa using hws 1 (by omega)
          have hrest : ∀ i < wordArgs false tys, ws[i]? = some (g.x (k + 2 + i)) := fun i hi => by
            have hi := hws (i + 2) (by omega)
            rwa [List.getElem?_cons_succ, List.getElem?_cons_succ, ← Nat.add_assoc,
              Nat.add_right_comm] at hi
          let last : Caller := {c with args := some ws}
          have hnext : nextArg g next = (.i32 (g.x (k + 1)), last) := nextArg_args hz rfl
          have hcast : castArg g next (.i32 (g.x k)) .double =
              (.double (g.x (k + 1) ++ g.x k), last) :=
            castArg_double hhf hnext
          have htail : (passArgs g last tys).1 = fromRegs g (k + 2) tys := ih hhf hz rfl hrest
          rw [passArgs_cons hfirst hcast, htail]
          simp [fromRegs]
      · rw [if_neg hty] at hws
        have hrest : ∀ i < wordArgs false tys, ws[i]? = some (g.x (k + 1 + i)) := fun i hi => by
          have hi := hws (i + 1) (by omega)
          rwa [List.getElem?_cons_succ, ← Nat.add_assoc, Nat.add_right_comm] at hi
        have hcast : castArg g next (.i32 (g.x k)) ty = ((Val.i32 (g.x k)).cast ty, next) :=
          castArg_word hhf hty
        have htail : (passArgs g next tys).1 = fromRegs g (k + 1) tys := ih hhf hz rfl hrest
        rw [passArgs_cons hfirst hcast, htail]
        simp [fromRegs, hty]

/-! ### The words of values -/

def Val.words : Val → List (BitVec 32)
  | i32 w | ptr w | float w => [w]
  | double d => [d.extractLsb' 0 32, d.extractLsb' 32 32]

@[simp] theorem words_cast (w : BitVec 32) {ty : Param} (hty : ty ≠ .double) :
    ((Val.i32 w).cast ty).words = [w] := by
  cases ty with
  | double => exact absurd rfl hty
  | i32 | ptr | float => rfl

@[simp] theorem words_double (lo hi : BitVec 32) : (Val.double (hi ++ lo)).words = [lo, hi] := by
  have hlo : (hi ++ lo).extractLsb' 0 32 = lo := BitVec.extractLsb'_append_eq_right
  have hhi : (hi ++ lo).extractLsb' 32 32 = hi := BitVec.extractLsb'_append_eq_left
  simp only [Val.words, hlo, hhi]

theorem words_fromRegs (g : Guest) (k : Nat) (tys : List Param) :
    (fromRegs g k tys).flatMap Val.words =
    (List.range' k (wordArgs false tys)).map g.x := by
  induction tys generalizing k with
  | nil => rfl
  | cons ty tys ih =>
    rw [wordArgs_cons, Nat.add_comm]
    by_cases hty : ty = .double
    · rw [if_pos hty, List.range'_succ, List.range'_succ]
      simp [fromRegs, hty, ih]
    · rw [if_neg hty, List.range'_succ]
      simp [fromRegs, hty, ih]

/-! ### The convention, and registers -/

theorem nextWord_reg (h : l.a < 8) : nextWord g l = (g.x (10 + l.a), {l with a := l.a + 1}) := by
  simp [nextWord, h]

theorem assignOne_word {ty : Param} (hw : hf = false ∨ ty.isWord = true) (hty : ty ≠ .double)
    (h : l.a < 8) : assignOne hf g l ty =
    ((Val.i32 (g.x (10 + l.a))).cast ty, {l with a := l.a + 1}) := by
  cases ty with
  | double => exact absurd rfl hty
  | i32 | ptr => simp [assignOne, nextWord_reg h, Val.cast, Val.word]
  | float =>
    have hhf : hf = false := by simpa [Param.isWord] using hw
    simp [assignOne, hhf, nextWord_reg h, Val.cast, Val.word]

theorem assignOne_double (h : l.a + 1 < 8) : assignOne false g l .double =
    (.double (g.x (10 + l.a + 1) ++ g.x (10 + l.a)), {l with a := l.a + 2}) := by
  have hlo : nextWord g l = (g.x (10 + l.a), {l with a := l.a + 1}) := nextWord_reg (by omega)
  have hhi : nextWord g {l with a := l.a + 1} = (g.x (10 + (l.a + 1)), {l with a := l.a + 1 + 1}) :=
    nextWord_reg h
  simp [assignOne, nextPair, show l.a < 8 by omega, hlo, hhi, Nat.add_assoc]

/-- The convention takes the registers, as long as there are enough. -/
theorem assign_fromRegs (hw : hf = false ∨ ∀ ty ∈ tys, ty.isWord = true)
    (hfit : l.a + wordArgs false tys ≤ 8) : assign hf g l tys = fromRegs g (10 + l.a) tys := by
  induction tys generalizing l with
  | nil => rfl
  | cons ty tys ih =>
    have htail : hf = false ∨ ∀ ty ∈ tys, ty.isWord = true :=
      hw.imp_right fun h x hx => h x (.tail ty hx)
    rw [wordArgs_cons] at hfit
    by_cases hty : ty = .double
    · subst hty
      rw [if_pos rfl] at hfit
      have hhf : hf = false := hw.resolve_right fun h => by
        simpa [Param.isWord] using h _ List.mem_cons_self
      subst hhf
      have hrest := @ih {l with a := l.a + 2} htail (by
        show l.a + 2 + _ ≤ 8
        omega)
      simp [assign, assignOne_double (g := g) (show l.a + 1 < 8 by omega), fromRegs,
        hrest, Nat.add_assoc]
    · rw [if_neg hty] at hfit
      have hone := @assignOne_word g hf l ty (hw.imp_right fun h => h ty List.mem_cons_self) hty
        (by omega)
      have hrest := @ih {l with a := l.a + 1} htail (by
        show l.a + 1 + _ ≤ 8
        omega)
      simp [assign, hone, fromRegs, hty, hrest, Nat.add_assoc]

/-- A guest whose registers behind the last one of the arguments are not zero. -/
def beyond : Guest := ⟨fun r => if r < 18 then 0 else 1, fun _ => 0, fun _ => 0⟩

theorem nextWord_beyond (l : Locs) : (nextWord beyond l).1 = 0 := by
  unfold nextWord beyond
  split
  · simp [show 10 + l.a < 18 by omega]
  · rfl

theorem assignOne_beyond (hf : Bool) (l : Locs) (ty : Param) :
    ∀ w ∈ (assignOne hf beyond l ty).1.words, w = 0 := by
  have hword := nextWord_beyond
  cases ty with
  | i32 | ptr => simp [assignOne, Val.words, hword]
  | float =>
    simp only [assignOne]
    split
    · simp [Val.words, beyond]
    · simp [Val.words, hword]
  | double =>
    simp only [assignOne]
    split
    · simp [Val.words, beyond]
    · simp [nextPair, hword, Val.words]

/-- The convention uses no such register. -/
theorem assign_beyond (hf : Bool) (l : Locs) (tys : List Param) :
    ∀ w ∈ (assign hf beyond l tys).flatMap Val.words, w = 0 := by
  induction tys generalizing l with
  | nil => simp [assign]
  | cons ty tys ih =>
    intro w hw
    rw [assign, List.flatMap_cons, List.mem_append] at hw
    rcases hw with hw | hw
    · exact assignOne_beyond hf l ty w hw
    · exact ih _ w hw

/-- With more words than registers another one is read. -/
theorem fromRegs_beyond {a : Nat} (ha : a ≤ 8) (hfit : 8 < a + wordArgs false tys) (hf : Bool)
    (l : Locs) : fromRegs beyond (10 + a) tys ≠ assign hf beyond l tys := by
  intro heq
  have hmem : (1 : BitVec 32) ∈ (fromRegs beyond (10 + a) tys).flatMap Val.words := by
    rw [words_fromRegs]
    exact List.mem_map.mpr ⟨18, List.mem_range'_1.mpr (by omega), rfl⟩
  rw [heq] at hmem
  exact absurd (assign_beyond hf l tys 1 hmem) (by decide)

/-! ### The icaller -/

/-- Where the icaller's arguments do not suffice, a word is zero. -/
theorem passArgs_short (hhf : c.hf = false) (hz : c.passZero = false) (ha : c.args = some ws)
    (hlt : ws.length < wordArgs false tys) :
    (0 : BitVec 32) ∈ (passArgs g c tys).1.flatMap Val.words := by
  induction tys generalizing c ws with
  | nil => simp at hlt
  | cons ty tys ih =>
    rw [wordArgs_cons] at hlt
    cases ws with
    | nil =>
      let next : Caller := {c with passZero := true}
      have hfirst : nextArg g c = (.i32 0, next) := by simp [nextArg, hz, ha, next]
      by_cases hty : ty = .double
      · have hcast : castArg g next (.i32 0) .double =
            (.double ((0 : BitVec 32) ++ (0 : BitVec 32)), next) :=
          castArg_double hhf (by simp [nextArg, next])
        rw [hty, passArgs_cons hfirst hcast, List.flatMap_cons, words_double]
        simp
      · have hcast : castArg g next (.i32 0) ty = ((Val.i32 0).cast ty, next) :=
          castArg_word hhf hty
        rw [passArgs_cons hfirst hcast, List.flatMap_cons, words_cast 0 hty]
        simp
    | cons w ws =>
      let next : Caller := {c with args := some ws}
      have hfirst : nextArg g c = (.i32 w, next) := nextArg_args hz ha
      simp only [List.length_cons] at hlt
      by_cases hty : ty = .double
      · rw [if_pos hty] at hlt
        cases ws with
        | nil =>
          let last : Caller := {c with args := some [], passZero := true}
          have hcast : castArg g next (.i32 w) .double = (.double ((0 : BitVec 32) ++ w), last) :=
            castArg_double hhf (by simp [nextArg, next, hz, last])
          rw [hty, passArgs_cons hfirst hcast, List.flatMap_cons, words_double]
          simp
        | cons w' ws =>
          let last : Caller := {c with args := some ws}
          have hcast : castArg g next (.i32 w) .double = (.double (w' ++ w), last) :=
            castArg_double hhf (nextArg_args hz rfl)
          simp only [List.length_cons] at hlt
          rw [hty, passArgs_cons hfirst hcast, List.flatMap_cons, List.mem_append]
          exact .inr (ih (c := last) hhf hz rfl (by omega))
      · rw [if_neg hty] at hlt
        have hcast : castArg g next (.i32 w) ty = ((Val.i32 w).cast ty, next) :=
          castArg_word hhf hty
        rw [passArgs_cons hfirst hcast, List.flatMap_cons, List.mem_append]
        exact .inr (ih (c := next) hhf hz rfl (by omega))

/-! ### The hard-float ABI -/

/-- An argument from a register of its type. -/
def read (g : Guest) (c : Caller) : Param → Val × Caller
  | .float => (.float ((g.f c.freg).setWidth 32), {c with freg := c.freg + 1})
  | .double => (.double (g.f c.freg), {c with freg := c.freg + 1})
  | .i32 | .ptr => (.i32 (g.x c.reg), {c with reg := c.reg + 1})

section Hard
variable (hhf : c.hf = true) (hz : c.passZero = false) (ha : c.args = none)
include hhf hz ha

theorem nextArg_typed {ty : Param} {rest : List Param} (h : c.params.drop c.argIdx = ty :: rest) :
    nextArg g c = read g {c with argIdx := c.argIdx + 1} ty := by
  have hty : c.params[c.argIdx]? = some ty := by rw [← List.head?_drop, h]; rfl
  unfold nextArg
  rw [if_neg (by simp [hz])]
  simp only [ha, hhf, hty]
  cases ty <;> rfl

theorem nextArg_untyped (h : c.params.drop c.argIdx = []) : nextArg g c = read g c .i32 := by
  have hnone : c.params[c.argIdx]? = none := by rw [← List.head?_drop, h]; rfl
  obtain ⟨hf, params, reg, freg, argIdx, passZero, args⟩ := c
  simp only at hhf hz ha hnone
  subst hhf hz ha
  simp [nextArg, hnone, read]

omit hz ha in
theorem castArg_hard (v : Val) (ty : Param) :
    castArg g c v ty = (if ty = .ptr then v.cast .ptr else v, c) := by
  unfold castArg
  rw [if_pos hhf]
  by_cases hty : ty = .ptr
  · simp [hty]
  · simp [hty]

/-- Each argument is read by its own type, in the right order. -/
theorem passArgs_hard (hp : c.params.drop c.argIdx = tys) (hreg : c.reg = 10 + l.a)
    (hfreg : c.freg = 10 + l.fa) (hfit : l.a + l.fa + tys.length ≤ 8) :
    ∃ c', passArgs g c tys = (assign true g l tys, c') ∧ c'.reg ≤ 18 ∧ c'.freg ≤ 18 := by
  induction tys generalizing c l with
  | nil => exact ⟨c, rfl, by omega, by omega⟩
  | cons ty tys ih =>
    simp only [List.length_cons] at hfit
    have htail : c.params.drop (c.argIdx + 1) = tys := by rw [← List.tail_drop, hp]; rfl
    have hnext := @nextArg_typed g c hhf hz ha ty tys hp
    by_cases hty : ty.isWord = true
    · have hread : read g {c with argIdx := c.argIdx + 1} ty =
          (.i32 (g.x c.reg), {c with argIdx := c.argIdx + 1, reg := c.reg + 1}) := by
        cases ty with
        | i32 | ptr => rfl
        | float | double => cases hty
      let next : Caller := {c with argIdx := c.argIdx + 1, reg := c.reg + 1}
      obtain ⟨c', hrest, hbound⟩ := @ih next {l with a := l.a + 1} hhf hz ha htail
        (by show c.reg + 1 = _; rw [hreg]; rfl) hfreg (by show l.a + 1 + l.fa + _ ≤ 8; omega)
      have hone := @assignOne_word g true l ty (.inr hty) (by rintro rfl; cases hty) (by omega)
      have hnexthf : next.hf = true := hhf
      refine ⟨c', ?_, hbound⟩
      rw [passArgs_cons (hnext.trans hread) (castArg_hard hnexthf _ ty), hrest, assign, hone]
      cases ty with
      | i32 | ptr => simp [Val.cast, Val.word, hreg]
      | float | double => cases hty
    · let next : Caller := {c with argIdx := c.argIdx + 1, freg := c.freg + 1}
      have hread : (read g {c with argIdx := c.argIdx + 1} ty).2 = next := by
        cases ty with
        | i32 | ptr => exact absurd rfl hty
        | float | double => rfl
      obtain ⟨c', hrest, hbound⟩ := @ih next {l with fa := l.fa + 1} hhf hz ha htail hreg
        (by show c.freg + 1 = _; rw [hfreg]; rfl) (by show l.a + (l.fa + 1) + _ ≤ 8; omega)
      have hfirst : nextArg g c = ((read g {c with argIdx := c.argIdx + 1} ty).1, next) :=
        hnext.trans (Prod.ext rfl hread)
      have hnexthf : next.hf = true := hhf
      refine ⟨c', ?_, hbound⟩
      rw [passArgs_cons hfirst (castArg_hard hnexthf _ ty), hrest, assign]
      have hfa : l.fa < 8 := by omega
      cases ty with
      | i32 | ptr => exact absurd rfl hty
      | float | double => simp [read, assignOne, hfa, hfreg]

/-- Words are read as such also where the types have got out of step. -/
theorem nextArg_words (hp : ∀ ty ∈ c.params, ty.isWord = true) :
    ∃ i, nextArg g c = (.i32 (g.x c.reg), {c with reg := c.reg + 1, argIdx := i}) := by
  cases hd : c.params.drop c.argIdx with
  | nil => exact ⟨c.argIdx, nextArg_untyped hhf hz ha hd⟩
  | cons p rest =>
    have hpw : p.isWord = true := hp p (List.mem_of_mem_drop (hd ▸ List.mem_cons_self))
    refine ⟨c.argIdx + 1, (nextArg_typed hhf hz ha hd).trans ?_⟩
    cases p with
    | i32 | ptr => rfl
    | float | double => cases hpw

theorem passArgs_words (hp : ∀ ty ∈ c.params, ty.isWord = true)
    (hw : ∀ ty ∈ tys, ty.isWord = true) :
    ∃ i, passArgs g c tys =
      (fromRegs g c.reg tys, {c with reg := c.reg + tys.length, argIdx := i}) := by
  induction tys generalizing c with
  | nil => exact ⟨c.argIdx, rfl⟩
  | cons ty tys ih =>
    obtain ⟨i, hnext⟩ := @nextArg_words g c hhf hz ha hp
    let next : Caller := {c with reg := c.reg + 1, argIdx := i}
    obtain ⟨j, hrest⟩ := @ih next hhf hz ha hp fun x hx => hw x (.tail ty hx)
    refine ⟨j, ?_⟩
    have hty := hw ty List.mem_cons_self
    have hnexthf : next.hf = true := hhf
    rw [passArgs_cons hnext (castArg_hard hnexthf _ ty), hrest]
    cases ty with
    | i32 | ptr => simp [fromRegs, next, Val.cast, Val.word, Nat.add_assoc, Nat.add_comm 1]
    | float | double => cases hty

/-- With the types one ahead, only words can agree with the convention. -/
theorem words_of_shifted (hp : c.params.drop c.argIdx = tys.tail)
    (heq : (passArgs g c tys).1 = assign true g l tys) : ∀ ty ∈ tys, ty.isWord = true := by
  induction tys generalizing c l with
  | nil => simp
  | cons ty tys ih =>
    rw [List.tail_cons] at hp
    -- The arguments behind the first one are words, and so is what it is read as.
    have hboth : (∀ x ∈ tys, x.isWord = true) ∧
        ∃ w c₁, nextArg g c = (.i32 w, c₁) ∧ c₁.hf = true := by
      cases tys with
      | nil => exact ⟨by simp, g.x c.reg, _, nextArg_untyped hhf hz ha hp, hhf⟩
      | cons p rest =>
        have htail : c.params.drop (c.argIdx + 1) = rest := by rw [← List.tail_drop, hp]; rfl
        have hnext := @nextArg_typed g c hhf hz ha p rest hp
        let next := (read g {c with argIdx := c.argIdx + 1} p).2
        have hkept : next.hf = c.hf ∧ next.passZero = c.passZero ∧ next.args = c.args ∧
            next.params = c.params ∧ next.argIdx = c.argIdx + 1 := by cases p <;> simp [next, read]
        obtain ⟨hf', hz', ha', hp', hi'⟩ := hkept
        have hhf' : next.hf = true := hf'.trans hhf
        rw [passArgs_cons hnext (castArg_hard hhf' _ ty)] at heq
        have hrest := ih hhf' (hz'.trans hz) (ha'.trans ha) (by rw [hp', hi', htail]; rfl)
          (List.cons.inj heq).2
        refine ⟨hrest, g.x c.reg, next, ?_, hhf'⟩
        have hpw := hrest p List.mem_cons_self
        cases p with
        | i32 | ptr => exact hnext
        | float | double => cases hpw
    obtain ⟨hrest, w, c₁, hnext, hhf₁⟩ := hboth
    rw [passArgs_cons hnext (castArg_hard hhf₁ _ ty)] at heq
    have hhead : (if ty = .ptr then (Val.i32 w).cast .ptr else .i32 w) =
        (assignOne true g l ty).1 :=
      (List.cons.inj heq).1
    intro x hx
    cases hx with
    | head =>
      cases ty with
      | i32 | ptr => rfl
      | float =>
        obtain ⟨d, hd⟩ : ∃ d, (assignOne true g l .float).1 = .float d := by
          simp only [assignOne]
          split <;> exact ⟨_, rfl⟩
        simp [hd] at hhead
      | double =>
        obtain ⟨d, hd⟩ : ∃ d, (assignOne true g l .double).1 = .double d := by
          simp only [assignOne]
          split <;> exact ⟨_, rfl⟩
        simp [hd] at hhead
    | tail _ hx => exact hrest x hx

end Hard

/-! ### Calls -/

theorem callExternal_plain {ret : RetType} (h : ret ≠ .fp128) :
    callExternal g c ret = (none, passArgs g c c.params) := by
  simp [callExternal, h]

theorem callExternal_ref {v : Val} {c₁ : Caller} (hnext : nextArg g c = (v, c₁)) :
    callExternal g c .fp128 = (some v, passArgs g c₁ c₁.params) := by
  simp [callExternal, hnext]

@[simp] theorem length_callICaller (g : Guest) : (callICaller g).length = 8 := rfl

theorem callICaller_take {n i : Nat} (hn : n ≤ 8) (hi : i < n) :
    ((callICaller g).take n)[i]? = some (g.x (10 + i)) := by
  simp [callICaller, hi, show i < 8 by omega]

/-- The caller in the icaller's case of a function. -/
def icCaller (g : Guest) (ft : FuncType) : Caller where
  hf := false
  params := ft.params
  args := some ((callICaller g).take (wordArgs false ft.params))

theorem genICaller_fits {ft : FuncType} (h : wordArgs false ft.params ≤ 8) :
    genICaller g ft (callICaller g) = .ok ((callExternal g (icCaller g ft) ft.ret).1,
      (callExternal g (icCaller g ft) ft.ret).2.1) := by
  unfold genICaller
  simp [show ¬ 8 < wordArgs false ft.params by omega, pure, Except.pure, icCaller]

theorem genICaller_ok {ft : FuncType} {res : Option Val × List Val}
    (h : genICaller g ft (callICaller g) = .ok res) : wordArgs false ft.params ≤ 8 := by
  unfold genICaller at h
  by_contra hgt
  simp [show 8 < wordArgs false ft.params by omega, throw, throwThe, MonadExceptOf.throw] at h

/-! ### Each ABI, with and without a long double to return -/

section Cases
variable {ft : FuncType}

theorem conforms_soft (hret : ft.ret ≠ .fp128) :
    Conforms false ft ↔ wordArgs false ft.params ≤ 8 := by
  have hcall : ∀ g, callExternal g {hf := false, params := ft.params} ft.ret =
      (none, fromRegs g 10 ft.params,
        {hf := false, params := ft.params, reg := 10 + wordArgs false ft.params}) := fun g => by
    rw [callExternal_plain hret, passArgs_soft rfl rfl rfl]
  constructor
  · intro h
    by_contra hgt
    have heq := (h.direct beyond _ _ _ (hcall beyond)).1
    rw [convention, if_neg hret] at heq
    exact fromRegs_beyond (Nat.zero_le 8) (by omega) false {} heq
  · intro hfit
    constructor
    · intro g retref vs c hrun
      obtain ⟨-, hrun⟩ := Prod.mk.inj ((hcall g).symm.trans hrun)
      obtain ⟨rfl, rfl⟩ := Prod.mk.inj hrun
      refine ⟨?_, by show 10 + _ ≤ 18; omega, (by decide : 10 ≤ 18)⟩
      have hassign : assign false g {} ft.params = fromRegs g 10 ft.params :=
        assign_fromRegs (.inl rfl) (by simpa using hfit)
      rw [convention, if_neg hret, hassign]
    · intro _ g retref vs c hrun
      obtain ⟨-, hrun⟩ := Prod.mk.inj ((hcall g).symm.trans hrun)
      obtain ⟨rfl, rfl⟩ := Prod.mk.inj hrun
      refine ⟨none, ?_⟩
      have hargs : (passArgs g (icCaller g ft) ft.params).1 = fromRegs g 10 ft.params :=
        passArgs_args rfl rfl rfl fun i hi => callICaller_take hfit hi
      rw [genICaller_fits hfit, callExternal_plain hret]
      exact congrArg (fun vs => Except.ok (none, vs)) hargs

theorem conforms_soft_ref (hret : ft.ret = .fp128) : Conforms false ft ↔ ft.params = [] := by
  have hcall : ∀ g, callExternal g {hf := false, params := ft.params} .fp128 =
      (some (.i32 (g.x 10)), fromRegs g 11 ft.params,
        {hf := false, params := ft.params, reg := 11 + wordArgs false ft.params}) := fun g => by
    rw [callExternal_ref (nextArg_soft rfl rfl rfl), passArgs_soft rfl rfl rfl]
  constructor
  · intro h
    by_contra hne
    -- All registers hold one, and a word that the icaller lacks is zero.
    obtain ⟨retref, hic⟩ := h.indirect rfl ⟨fun _ => 1, fun _ => 0, fun _ => 0⟩ _ _ _
      (hret ▸ hcall _)
    have hfit := genICaller_ok hic
    have hpos : 0 < wordArgs false ft.params := by
      cases hp : ft.params with
      | nil => exact absurd hp hne
      | cons ty tys =>
        rw [wordArgs_cons]
        split <;> omega
    rw [genICaller_fits hfit, hret] at hic
    generalize hg : (⟨fun _ => 1, fun _ => 0, fun _ => 0⟩ : Guest) = g at hic
    have hlen : ((callICaller g).take (wordArgs false ft.params)).length =
        wordArgs false ft.params := by
      simp [hfit]
    unfold icCaller at hic
    cases hw : (callICaller g).take (wordArgs false ft.params) with
    | nil =>
      rw [hw] at hlen
      simp at hlen
      omega
    | cons w ws =>
      rw [hw] at hlen hic
      rw [callExternal_ref (nextArg_args rfl rfl)] at hic
      obtain ⟨-, hvs⟩ := Prod.mk.inj (Except.ok.inj hic)
      simp only [List.length_cons] at hlen
      have hzero := @passArgs_short g {hf := false, params := ft.params, args := some ws}
        ft.params ws
        rfl rfl rfl (by omega)
      rw [hvs, words_fromRegs, ← hg] at hzero
      simp at hzero
  · intro hp
    constructor
    · intro g retref vs c hrun
      obtain ⟨-, hrun⟩ := Prod.mk.inj ((hcall g).symm.trans (hret ▸ hrun))
      obtain ⟨rfl, rfl⟩ := Prod.mk.inj hrun
      refine ⟨by simp [convention, hp, fromRegs, assign], ?_, (by decide : 10 ≤ 18)⟩
      show 11 + wordArgs false ft.params ≤ 18
      simp [hp]
    · intro _ g retref vs c hrun
      obtain ⟨-, hrun⟩ := Prod.mk.inj ((hcall g).symm.trans (hret ▸ hrun))
      obtain ⟨rfl, rfl⟩ := Prod.mk.inj hrun
      refine ⟨some (.i32 0), ?_⟩
      rw [genICaller_fits (by simp [hp]), hret]
      simp [hp, icCaller, callExternal, nextArg, passArgs, fromRegs]

theorem conforms_hard (hret : ft.ret ≠ .fp128) (hn : ft.params.length ≤ 8) : Conforms true ft := by
  constructor
  · intro g retref vs c hrun
    obtain ⟨c', hargs, hbound⟩ := @passArgs_hard g {hf := true, params := ft.params} ft.params {}
      rfl rfl rfl rfl rfl rfl (by simpa using hn)
    rw [callExternal_plain hret, hargs] at hrun
    obtain ⟨-, hrun⟩ := Prod.mk.inj hrun
    obtain ⟨rfl, rfl⟩ := Prod.mk.inj hrun
    rw [convention, if_neg hret]
    exact ⟨rfl, hbound⟩
  · intro h
    cases h

theorem conforms_hard_ref (hret : ft.ret = .fp128) : Conforms true ft ↔
    (∀ ty ∈ ft.params, ty.isWord = true) ∧ ft.params.length ≤ 7 := by
  -- What a call of words passes.
  have hcall : (∀ ty ∈ ft.params, ty.isWord = true) → ∀ g, ∃ i,
      callExternal g {hf := true, params := ft.params} .fp128 = (some (.i32 (g.x 10)),
        fromRegs g 11 ft.params,
        {hf := true, params := ft.params, reg := 11 + ft.params.length, argIdx := i}) := by
    intro hw g
    obtain ⟨i, hnext⟩ := @nextArg_words g {hf := true, params := ft.params} rfl rfl rfl hw
    obtain ⟨j, hargs⟩ := @passArgs_words g {hf := true, params := ft.params, reg := 11, argIdx := i}
      ft.params rfl rfl rfl hw hw
    exact ⟨j, by rw [callExternal_ref hnext, hargs]⟩
  constructor
  · intro h
    have hw : ∀ ty ∈ ft.params, ty.isWord = true := by
      cases hp : ft.params with
      | nil => simp
      | cons p ps =>
        obtain ⟨v, c₁, hnext, hhf, hz, ha, hparams, hidx⟩ : ∃ v c₁,
            nextArg beyond {hf := true, params := p :: ps} = (v, c₁) ∧ c₁.hf = true ∧
              c₁.passZero = false ∧ c₁.args = none ∧ c₁.params = p :: ps ∧ c₁.argIdx = 1 := by
          refine ⟨_, _, nextArg_typed rfl rfl rfl rfl, ?_⟩
          cases p <;> simp
        have hrun := callExternal_ref hnext
        rw [hparams] at hrun
        have heq := (h.direct beyond (some v) (passArgs beyond c₁ (p :: ps)).1
          (passArgs beyond c₁ (p :: ps)).2 (by rw [hret, hp]; exact hrun)).1
        rw [convention, hp] at heq
        exact words_of_shifted hhf hz ha (by rw [hparams, hidx]; rfl) heq
    refine ⟨hw, ?_⟩
    by_contra hgt
    obtain ⟨i, hrun⟩ := hcall hw beyond
    have heq := (h.direct beyond _ _ _ (hret ▸ hrun)).1
    rw [convention] at heq
    exact fromRegs_beyond (by decide : 1 ≤ 8) (by rw [wordArgs_words hw]; omega) true _ heq
  · rintro ⟨hw, hlen⟩
    constructor
    · intro g retref vs c hrun
      obtain ⟨i, hargs⟩ := hcall hw g
      obtain ⟨-, hrun⟩ := Prod.mk.inj (hargs.symm.trans (hret ▸ hrun))
      obtain ⟨rfl, rfl⟩ := Prod.mk.inj hrun
      refine ⟨?_, by show 11 + _ ≤ 18; omega, (by decide : 10 ≤ 18)⟩
      rw [convention, if_pos hret]
      have hassign : assign true g (nextWord g {}).2 ft.params = fromRegs g 11 ft.params :=
        assign_fromRegs (.inr hw) (by
          rw [wordArgs_words hw]
          show 1 + _ ≤ 8
          omega)
      exact hassign.symm
    · intro h
      cases h

end Cases

/-- **When the arguments of an external function follow the calling convention.** -/
theorem arguments_iff (hf : Bool) (ft : FuncType) (hn : ft.Admitted) :
    Conforms hf ft ↔ InRegisters hf ft := by
  have hlen : ft.params.length ≤ 8 := Nat.le_of_lt_succ hn
  unfold InRegisters
  by_cases hret : ft.ret = .fp128
  · rw [if_pos hret]
    cases hf with
    | false => simpa using conforms_soft_ref hret
    | true => simpa using conforms_hard_ref hret
  · rw [if_neg hret]
    cases hf with
    | false => simpa using conforms_soft hret
    | true => simpa using conforms_hard hret hlen

/-- A function of a pointer, a double and four words fits. -/
def sixParams : FuncType := ⟨[.ptr, .double, .i32, .i32, .i32, .i32], .double⟩

theorem sixParams_conform : Conforms false sixParams ∧ Conforms true sixParams :=
  ⟨(arguments_iff false sixParams (by unfold FuncType.Admitted; decide)).mpr
    (by unfold InRegisters; decide),
    (arguments_iff true sixParams (by unfold FuncType.Admitted; decide)).mpr
      (by unfold InRegisters; decide)⟩

/-- The last one of five doubles is taken from `s2` and `s3` in place of the stack. -/
def fiveDoubles : FuncType := ⟨[.double, .double, .double, .double, .double], .void⟩

theorem fiveDoubles_miss : ¬ Conforms false fiveDoubles := by
  intro h
  exact absurd (h.direct beyond _ _ _ rfl).1 (by decide)

end RiscvSbt.Caller
