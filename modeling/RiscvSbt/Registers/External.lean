import RiscvSbt.Registers.Convention
import RiscvSbt.Registers.Locals

/-! Calls of external functions, and what becomes of their results.

An external function answers in the registers that the host's calling convention and the
kind of its result say. With `syncOnExternalCalls` all registers are stored before the
call and loaded behind it, and the result, that is written to a local register in between,
is not among what was stored. -/
namespace RiscvSbt.Registers
open Library

/-- What a register holds: of an `x` register, the low half. -/
abbrev Val := BitVec 64

abbrev Memory := BitVec 32 → BitVec 8

/-- The type of a result. A `long double` goes to memory, through a pointer. -/
inductive RetTy where
  | void
  | int (bits : Nat)
  | ptr
  | float
  | double
  deriving DecidableEq, Repr

/-- An external function: the registers its arguments are read from, its result and what it
does to memory and to the outside world. -/
structure External (W : Type) where
  retty : RetTy
  args : List Reg
  eval : List Val → Memory → W → Val × Memory × W

namespace Caller

def lo (v : Val) : Val := (v.setWidth 32).setWidth 64

def hi (v : Val) : Val := v >>> 32

/-- A store through a pointer to the low half. -/
def setLo (old v : Val) : Val := (old >>> 32) <<< 32 ||| lo v

/-- The registers of a result. An integer is cast to 32 bits, which it has to have. -/
def retRegs (o : Options) : RetTy → Option (List Reg)
  | .void => some []
  | .int bits => if bits = 32 then some [Reg.A0] else none
  | .ptr => some [Reg.A0]
  | .float => some (if o.hardFloatABI then [Reg.FA0] else [Reg.A0])
  | .double => some (if o.hardFloatABI then [Reg.FA0] else [Reg.A0, Reg.A1])

/-- `handleReturn`: what is stored to the registers of a result, the first of which holds
`old`. -/
def handleReturn (o : Options) (old ret : Val) : RetTy → List Val
  | .void => []
  | .int _ => [lo ret]
  | .ptr => [lo ret]
  | .float => if o.hardFloatABI then [setLo old ret] else [lo ret]
  | .double => if o.hardFloatABI then [ret] else [lo ret, hi ret]

variable {W : Type}

def callExternal (o : Options) (fn : External W) : Option (Ext Val (BitVec 32) (BitVec 8) W) := do
  let rets ← retRegs o fn.retty
  pure {
    args := fn.args ++ rets
    rets := rets
    eval := fun vs mem world =>
      let (ret, mem, world) := fn.eval (vs.take fn.args.length) mem world
      (handleReturn o ((vs.drop fn.args.length).headD 0) ret fn.retty, mem, world) }

end Caller

namespace Func
variable {V A B W : Type} (o : Options) (ofAddr : Nat → V)

/-- The code of `handleCall` for an external function, up to the return of a tail call. -/
def outCall (addr : Nat) (e : Ext V A B W) (linkReg : Reg) : List (Code V A B W) :=
  link ofAddr addr linkReg ++
    (if o.syncOnExternalCalls then
      [storeRegisters o {call := true}, .ext e, loadRegisters o {callReturned := true}]
    else [.ext e])

/-- The return that follows a call, where it is no tail call. -/
def thenReturn (linkReg : Reg) : List (Code V A B W) :=
  if linkReg = Reg.ZERO then [] else freturn o

theorem handleExternal_eq (addr : Nat) (e : Ext V A B W) (linkReg : Reg) :
    handleExternal o ofAddr addr e linkReg = outCall o ofAddr addr e linkReg ++
    tailCall o linkReg :=
  rfl

theorem handleExternal_return (addr : Nat) (e : Ext V A B W) (linkReg : Reg) :
    handleExternal o ofAddr addr e linkReg ++ thenReturn o linkReg =
      outCall o ofAddr addr e linkReg ++ freturn o := by
  rw [handleExternal_eq, List.append_assoc]
  unfold tailCall thenReturn
  by_cases hl : linkReg = Reg.ZERO <;> simp [hl]

end Func

/-! ### Running code -/

section Code
variable {V A B W : Type}

/-- A function runs some code. -/
def State.running (s : State V A B W) (fr : Frame V A B W) (code : List (Code V A B W))
    (rest : List (Frame V A B W)) : State V A B W :=
  {s with stack := {fr with code := code} :: rest}

/-- The state and the copies of registers after registers are stored, or loaded. -/
def State.stored (s : State V A B W) (fr : Frame V A B W) (regs : Reg → Bool) : State V A B W :=
  {s with regs := fun r => if regs r then fr.regs r else s.regs r}

def Frame.loaded (fr : Frame V A B W) (s : State V A B W) (regs : Reg → Bool) : Frame V A B W :=
  {fr with regs := fun r => if regs r then s.regs r else fr.regs r}

namespace Program
variable (P : Program V A B W)

/-- What a call finds in the registers: those of the caller and the link. -/
def linked (s : State V A B W) (fr : Frame V A B W) (addr : Nat) (linkReg : Reg) : Reg → V :=
  writeRegs (P.getReg s fr) [linkReg] [P.ofAddr (addr + 4)]

variable [DecidableEq A]

/-- Some code runs to its end, in one function. -/
def Executes (code : List (Code V A B W)) (s : State V A B W) (fr : Frame V A B W)
    (t : State V A B W) (fr' : Frame V A B W) : Prop :=
  ∀ code' rest, steps P.step code.length (s.running fr (code ++ code') rest) =
    some (t.running fr' code' rest)

/-- Some code returns to the function below, which runs one more item. -/
def Returns (code : List (Code V A B W)) (c : Code V A B W) (s : State V A B W)
    (fr g : Frame V A B W) (t : State V A B W) (g' : Frame V A B W) : Prop :=
  ∀ code' rest, steps P.step (code.length + 1)
    (s.running fr code ({g with code := c :: code'} :: rest)) = some (t.running g' code' rest)

end Program
end Code

/-! ### Results -/

/-- Where the guest finds a result, and what it finds there. -/
def Holds (o : Options) (ret : Val) (regs : Reg → Val) : RetTy → Prop
  | .void => True
  | .int _ => (regs Reg.A0).setWidth 32 = ret.setWidth 32
  | .ptr => (regs Reg.A0).setWidth 32 = ret.setWidth 32
  | .float => (regs (if o.hardFloatABI then Reg.FA0 else Reg.A0)).setWidth 32 = ret.setWidth 32
  | .double =>
    if o.hardFloatABI then regs Reg.FA0 = ret
    else (regs Reg.A0).setWidth 32 = ret.setWidth 32 ∧
      (regs Reg.A1).setWidth 32 = (ret >>> 32).setWidth 32

open Func Registers.Caller in
/-- External functions with a result of some type keep it, wherever and from whatever state
they are called: behind the call it is where the guest looks for it, with `sp` and the
registers of the caller as they were, and where the caller returns next, its own caller
finds it. -/
def Keeps (W : Type) (o : Options) (ty : RetTy) : Prop :=
  ∀ fn : External W, fn.retty = ty → ∃ e, callExternal o fn = some e ∧
    ∀ (P : Program Val (BitVec 32) (BitVec 8) W) F addr base linkReg s fr, P.o = o →
      P.funcs fr.f = some F → F.inst? addr = some (.callExternal base e linkReg) →
      let ret := (fn.eval (fn.args.map (P.linked s fr addr linkReg)) s.mem s.world).1
      let clean := List.map (Code.clean (F.accessed P.o P.ofAddr))
      (∃ t fr', P.Executes (clean (outCall P.o P.ofAddr addr e linkReg)) s fr t fr' ∧
        Holds o ret (P.getReg t fr') ty ∧
        ∀ r, calleeSaved r = true → r ≠ linkReg → P.getReg t fr' r = P.getReg s fr r) ∧
      ∀ g G, P.funcs g.f = some G →
        ∃ u g', P.Returns
          (clean (handleExternal P.o P.ofAddr addr e linkReg ++ thenReturn P.o linkReg))
          ((loadRegisters P.o {callReturned := true}).clean (G.accessed P.o P.ofAddr)) s fr g u g' ∧
          Holds o ret (P.getReg u g') ty

/-! ### One item of code -/

namespace Program
variable {V A B W : Type} {P : Program V A B W} {F : Func V A B W} {s t u : State V A B W}
  {fr fr' fr'' g : Frame V A B W}

theorem isLocal_of (hF : P.funcs fr.f = some F) (r : Reg) :
    P.isLocal fr.f r = (P.o.localRegs && F.accessed P.o P.ofAddr r) := by
  simp [isLocal, hF]

theorem getReg_of_local (s : State V A B W) (fr : Frame V A B W) {r : Reg} (hr : r ≠ Reg.ZERO)
    (h : P.isLocal fr.f r = true) : P.getReg s fr r = fr.regs r := by
  simp [getReg, hr, h]

theorem getReg_of_global {r : Reg} (hr : r ≠ Reg.ZERO) (h : P.isLocal fr.f r = false) :
    P.getReg s fr r = s.regs r := by
  simp [getReg, hr, h]

theorem writeRegs_zero (regs : Reg → V) (rs : List Reg) (vs : List V) :
    writeRegs regs rs vs Reg.ZERO = regs Reg.ZERO := by
  induction rs generalizing regs vs with
  | nil => rfl
  | cons r rs ih =>
    cases vs with
    | nil => rfl
    | cons v vs =>
      refine (ih _ vs).trans ?_
      by_cases hr : r = Reg.ZERO
      · rw [if_pos hr]
      · rw [if_neg hr, Function.update_of_ne (Ne.symm hr)]

/-- Writing registers of the running function changes these only, as it sees them. -/
theorem getReg_setRegs (hF : P.funcs fr.f = some F) {rs : List Reg}
    (hrs : ∀ r ∈ rs, F.accessed P.o P.ofAddr r = true) (vs : List V) :
    P.getReg (P.setRegs s fr rs vs).1 (P.setRegs s fr rs vs).2 =
      writeRegs (P.getReg s fr) rs vs := by
  funext r
  by_cases hr : r = Reg.ZERO
  · subst hr
    rw [writeRegs_zero]
    rfl
  have hlocal := isLocal_of hF r
  cases hl : P.o.localRegs with
  | false =>
    rw [hl, Bool.false_and] at hlocal
    simp only [setRegs, hl, Bool.false_eq_true, if_false]
    rw [getReg_of_global hr hlocal]
    exact writeRegs_congr (getReg_of_global hr hlocal).symm rs vs
  | true =>
    rw [hl, Bool.true_and] at hlocal
    simp only [setRegs, hl, if_true]
    by_cases hacc : F.accessed P.o P.ofAddr r = true
    · refine (getReg_of_local s {fr with regs := writeRegs fr.regs rs vs} hr
        (hlocal.trans hacc)).trans ?_
      exact writeRegs_congr (getReg_of_local s fr hr (hlocal.trans hacc)).symm rs vs
    · have hnot : r ∉ rs := fun h => hacc (hrs r h)
      rw [writeRegs_of_notMem hnot]
      simp [getReg, hlocal, hacc]

theorem setRegs_running (rs : List Reg) (vs : List V) (code code' : List (Code V A B W))
    (rest : List (Frame V A B W)) :
    P.setRegs (s.running fr code' rest) {fr with code := code} rs vs =
      ((P.setRegs s fr rs vs).1.running fr code' rest,
        {(P.setRegs s fr rs vs).2 with code := code}) := by
  unfold setRegs
  split <;> rfl

theorem setRegs_same (s : State V A B W) (fr : Frame V A B W) (rs : List Reg) (vs : List V) :
    (P.setRegs s fr rs vs).2.f = fr.f ∧ (P.setRegs s fr rs vs).1.mem = s.mem ∧
      (P.setRegs s fr rs vs).1.world = s.world ∧
      (P.o.localRegs = true → (P.setRegs s fr rs vs).1.regs = s.regs) := by
  unfold setRegs
  by_cases hl : P.o.localRegs = true
  · rw [if_pos hl]
    exact ⟨rfl, rfl, rfl, fun _ => rfl⟩
  · rw [if_neg hl]
    exact ⟨rfl, rfl, rfl, fun h => absurd h hl⟩

/-- Copies of registers that the function does not have are not made. -/
theorem clean_local (hF : P.funcs fr.f = some F) {flags : SyncFlags} {r : Reg}
    (h : (synced P.o flags r && F.accessed P.o P.ofAddr r) = true) :
    r ≠ Reg.ZERO ∧ P.isLocal fr.f r = true := by
  simp only [synced, Bool.and_eq_true] at h
  obtain ⟨⟨⟨hlocal, hsync⟩, -⟩, hacc⟩ := h
  refine ⟨?_, by rw [isLocal_of hF, hlocal, hacc]; rfl⟩
  rintro rfl
  have hzero : syncable P.o Reg.ZERO = false := rfl
  rw [hzero] at hsync
  cases hsync

/-- The function sees nothing of a store. -/
theorem getReg_stored {regs : Reg → Bool} (h : ∀ r, regs r = true → P.isLocal fr.f r = true) :
    P.getReg (s.stored fr regs) fr = P.getReg s fr := by
  funext r
  by_cases hr : r = Reg.ZERO
  · rw [getReg, getReg, if_pos hr, if_pos hr]
  · cases hl : P.isLocal fr.f r with
    | true => rw [getReg_of_local _ _ hr hl, getReg_of_local _ _ hr hl]
    | false =>
      rw [getReg_of_global hr hl, getReg_of_global hr hl]
      have : ¬ regs r = true := fun h' => by rw [h r h'] at hl; cases hl
      exact if_neg this

/-- What it loads is what it then sees. -/
theorem getReg_loaded {regs : Reg → Bool}
    (h : ∀ r, regs r = true → r ≠ Reg.ZERO ∧ P.isLocal fr.f r = true) (r : Reg) :
    P.getReg s (fr.loaded s regs) r = if regs r then s.regs r else P.getReg s fr r := by
  by_cases hregs : regs r = true
  · obtain ⟨hr, hl⟩ := h r hregs
    rw [if_pos hregs]
    exact (getReg_of_local s (fr.loaded s regs) hr hl).trans (if_pos hregs)
  · rw [if_neg hregs]
    simp [getReg, Frame.loaded, hregs]

variable [DecidableEq A]

namespace Executes

theorem nil : P.Executes [] s fr s fr := fun _ _ => rfl

theorem append {c c' : List (Code V A B W)} (h : P.Executes c s fr t fr')
    (h' : P.Executes c' t fr' u fr'') : P.Executes (c ++ c') s fr u fr'' := by
  intro code' rest
  rw [List.length_append, steps_add, List.append_assoc, h]
  exact h' code' rest

/-- One item that stays in the function. -/
theorem item {c : Code V A B W}
    (h : ∀ code rest, P.exec (s.running fr (c :: code) rest) {fr with code := code} rest c =
      some (t.running fr' code rest)) : P.Executes [c] s fr t fr' := by
  intro code' rest
  show (P.step (s.running fr (c :: code') rest) >>= steps P.step 0) = _
  rw [show P.step (s.running fr (c :: code') rest) = _ from h code' rest]
  rfl

theorem store (regs : Reg → Bool) : P.Executes [.storeRegs regs] s fr (s.stored fr regs) fr :=
  .item fun _ _ => rfl

theorem load (regs : Reg → Bool) : P.Executes [.loadRegs regs] s fr s (fr.loaded s regs) :=
  .item fun _ _ => rfl

theorem link (addr : Nat) (linkReg : Reg) (acc : Reg → Bool) :
    P.Executes ((Func.link P.ofAddr addr linkReg).map (Code.clean acc)) s fr
      (P.setRegs s fr [linkReg] [P.ofAddr (addr + 4)]).1
      (P.setRegs s fr [linkReg] [P.ofAddr (addr + 4)]).2 := by
  unfold Func.link
  by_cases hl : linkReg = Reg.ZERO
  · have hnone : P.setRegs s fr [linkReg] [P.ofAddr (addr + 4)] = (s, fr) := by
      subst hl
      unfold setRegs
      split <;> rfl
    rw [if_pos hl, hnone]
    exact .nil
  · rw [if_neg hl]
    refine .item fun code rest => ?_
    show P.exec _ _ rest (.op _) = _
    simp only [exec, setRegs_running, writeAll]
    congr 2
    unfold setRegs
    split <;> rfl

theorem ext (e : Ext V A B W) :
    P.Executes [.ext e] s fr
      { (P.setRegs s fr e.rets (e.eval (e.args.map (P.getReg s fr)) s.mem s.world).1).1 with
        mem := (e.eval (e.args.map (P.getReg s fr)) s.mem s.world).2.1
        world := (e.eval (e.args.map (P.getReg s fr)) s.mem s.world).2.2 }
      (P.setRegs s fr e.rets (e.eval (e.args.map (P.getReg s fr)) s.mem s.world).1).2 := by
  refine .item fun code rest => ?_
  simp only [exec, setRegs_running]
  rfl

end Executes

/-! ### The call and the return -/

theorem synced_ret {o : Options} {r : Reg} (h : synced o {callReturned := true} r = true) :
    synced o {call := true} r = true ∧ synced o {funcReturn := true} r = true := by
  have hsub : syncRet r = true → syncCall r = true := by
    intro h
    simp only [syncRet, decide_eq_true_eq, List.mem_cons, List.not_mem_nil, or_false] at h
    rcases h with rfl | rfl | rfl | rfl <;> decide
  cases hm : o.regs <;> simp_all [synced, syncReg, Options.localRegs]

/-- Behind the link the registers are those that the callee finds. -/
theorem link_view (hF : P.funcs fr.f = some F) (addr : Nat) {linkReg : Reg}
    (hacc : linkReg ≠ Reg.ZERO → F.accessed P.o P.ofAddr linkReg = true) :
    ∃ t fr', P.Executes ((Func.link P.ofAddr addr linkReg).map
        (Code.clean (F.accessed P.o P.ofAddr))) s fr t fr' ∧ fr'.f = fr.f ∧ t.mem = s.mem ∧
      t.world = s.world ∧ (P.o.localRegs = true → t.regs = s.regs) ∧
      P.getReg t fr' = P.linked s fr addr linkReg := by
  obtain ⟨hf, hmem, hworld, hregs⟩ := P.setRegs_same s fr [linkReg] [P.ofAddr (addr + 4)]
  refine ⟨_, _, .link addr linkReg _, hf, hmem, hworld, hregs, ?_⟩
  by_cases hl : linkReg = Reg.ZERO
  · subst hl
    unfold linked setRegs
    split <;> rfl
  · exact getReg_setRegs hF (fun r hr => List.mem_singleton.mp hr ▸ hacc hl) _

theorem ext_view (hF : P.funcs fr.f = some F) {e : Ext V A B W}
    (hacc : ∀ r ∈ e.rets, F.accessed P.o P.ofAddr r = true) :
    ∃ t fr', P.Executes [.ext e] s fr t fr' ∧ fr'.f = fr.f ∧
      (P.o.localRegs = true → t.regs = s.regs) ∧
      P.getReg t fr' = writeRegs (P.getReg s fr) e.rets
        (e.eval (e.args.map (P.getReg s fr)) s.mem s.world).1 := by
  obtain ⟨hf, -, -, hregs⟩ :=
    P.setRegs_same s fr e.rets (e.eval (e.args.map (P.getReg s fr)) s.mem s.world).1
  exact ⟨_, _, .ext e, hf, hregs, getReg_setRegs hF hacc _⟩

section Accessed
variable {o : Options} {ofAddr : Nat → V} {addr : Nat} {e : Ext V A B W} {base : List Reg}
  {linkReg r : Reg}

omit [DecidableEq A] in
theorem outCall_accessed (h : F.inst? addr = some (.callExternal base e linkReg))
    {c : Code V A B W} (hc : c ∈ Func.outCall o ofAddr addr e linkReg) (hr : r ∈ c.accesses) :
    F.accessed o ofAddr r = true := by
  refine accessed_of_mem h (c := c) ?_ hr
  rw [Func.translate, Func.handleExternal_eq]
  simp [hc]

omit [DecidableEq A] in
theorem rets_accessed (h : F.inst? addr = some (.callExternal base e linkReg)) :
    ∀ r ∈ e.rets, F.accessed o ofAddr r = true := by
  intro r hr
  refine outCall_accessed h (c := .ext e) ?_ (List.mem_append_right _ hr)
  unfold Func.outCall
  split <;> simp

end Accessed

/-- What is in the registers behind the call of an external function: what it answers, or,
where registers are loaded again, what they held before. -/
theorem call_view (hF : P.funcs fr.f = some F) {addr : Nat} {e : Ext V A B W} {base : List Reg}
    {linkReg : Reg} (hinst : F.inst? addr = some (.callExternal base e linkReg)) :
    ∃ t fr', P.Executes ((Func.outCall P.o P.ofAddr addr e linkReg).map
        (Code.clean (F.accessed P.o P.ofAddr))) s fr t fr' ∧ fr'.f = fr.f ∧
      (P.o.localRegs = true → ∀ r, syncable P.o r = false → t.regs r = s.regs r) ∧
      ∀ r, P.getReg t fr' r =
        if P.o.syncOnExternalCalls = true ∧ synced P.o {callReturned := true} r = true ∧
          F.accessed P.o P.ofAddr r = true then P.linked s fr addr linkReg r
        else writeRegs (P.linked s fr addr linkReg) e.rets
          (e.eval (e.args.map (P.linked s fr addr linkReg)) s.mem s.world).1 r := by
  have hrets := @rets_accessed _ _ _ _ F P.o P.ofAddr _ _ _ _ hinst
  have hlink : linkReg ≠ Reg.ZERO → F.accessed P.o P.ofAddr linkReg = true := by
    intro hne
    refine outCall_accessed hinst
      (c := .op {writes := [linkReg], eval := fun _ _ => ([P.ofAddr (addr + 4)], [])}) ?_
      List.mem_cons_self
    unfold Func.outCall Func.link
    rw [if_neg hne]
    simp
  obtain ⟨s₁, fr₁, hs₁, hf₁, hmem₁, hworld₁, hregs₁, hview₁⟩ :=
    link_view (s := s) hF addr hlink
  have hF₁ : P.funcs fr₁.f = some F := hf₁ ▸ hF
  unfold Func.outCall
  rw [List.map_append]
  cases hsync : P.o.syncOnExternalCalls with
  | false =>
    obtain ⟨t, fr', ht, hf, hregs, hview⟩ := ext_view (s := s₁) hF₁ hrets
    rw [hview₁, hmem₁, hworld₁] at hview
    refine ⟨t, fr', hs₁.append ht, hf.trans hf₁, fun hl r _ => ?_, fun r => ?_⟩
    · rw [hregs hl, hregs₁ hl]
    · rw [if_neg fun h => Bool.false_ne_true h.1, hview]
  | true =>
    -- The store, the call, and the load of what was stored.
    let stored r := synced P.o {call := true} r && F.accessed P.o P.ofAddr r
    let loaded r := synced P.o {callReturned := true} r && F.accessed P.o P.ofAddr r
    have hstored : P.getReg (s₁.stored fr₁ stored) fr₁ = P.getReg s₁ fr₁ :=
      getReg_stored fun r hr => (clean_local hF₁ hr).2
    obtain ⟨t, fr', ht, hf, hregs, hview⟩ := ext_view (s := s₁.stored fr₁ stored) hF₁ hrets
    have hF' : P.funcs fr'.f = some F := hf ▸ hF₁
    rw [hstored, hview₁, show (s₁.stored fr₁ stored).mem = s.mem from hmem₁,
      show (s₁.stored fr₁ stored).world = s.world from hworld₁] at hview
    refine ⟨t, fr'.loaded t loaded, hs₁.append ((Executes.store stored).append
      (ht.append (Executes.load loaded))), hf.trans hf₁, fun hl r hr => ?_, fun r => ?_⟩
    · have hno : stored r = false := by simp [stored, synced, hr]
      rw [hregs hl, ← hregs₁ hl]
      exact if_neg (by rw [hno]; exact Bool.false_ne_true)
    · rw [getReg_loaded (fun r hr => clean_local hF' hr) r, hview]
      by_cases hload : loaded r = true
      · have hload' := Bool.and_eq_true_iff.mp hload
        obtain ⟨hr, hl⟩ := clean_local hF₁ hload
        have hlocal : P.o.localRegs = true := by
          rw [isLocal_of hF₁] at hl
          exact (Bool.and_eq_true_iff.mp hl).1
        have hst : stored r = true := Bool.and_eq_true_iff.mpr ⟨(synced_ret hload'.1).1, hload'.2⟩
        rw [if_pos hload, if_pos ⟨rfl, hload'⟩, hregs hlocal, ← hview₁, getReg_of_local _ _ hr hl]
        exact if_pos hst
      · rw [if_neg hload, if_neg fun h => hload (Bool.and_eq_true_iff.mpr h.2)]

/-- What a caller finds when a function returns: the function's registers that come across,
and others as they are in the global file. -/
theorem return_view {G : Func V A B W} (hF : P.funcs fr.f = some F) (hG : P.funcs g.f = some G)
    {code : List (Code V A B W)} (h : P.Executes code s fr t fr') (hf : fr'.f = fr.f) :
    ∃ u g', P.Returns (code ++ (Func.freturn P.o).map (Code.clean (F.accessed P.o P.ofAddr)))
        ((Func.loadRegisters P.o {callReturned := true}).clean (G.accessed P.o P.ofAddr))
        s fr g u g' ∧
      (∀ r, r ≠ Reg.ZERO → F.accessed P.o P.ofAddr r = true →
        (P.o.localRegs = true → synced P.o {callReturned := true} r = true) →
        P.getReg u g' r = P.getReg t fr' r) ∧
      ∀ r, r ≠ Reg.ZERO → syncable P.o r = false → G.accessed P.o P.ofAddr r = false →
        P.getReg u g' r = t.regs r := by
  let stored r := synced P.o {funcReturn := true} r && F.accessed P.o P.ofAddr r
  let loaded r := synced P.o {callReturned := true} r && G.accessed P.o P.ofAddr r
  have hF' : P.funcs fr'.f = some F := hf ▸ hF
  have hload (r : Reg) := getReg_loaded (P := P) (s := t.stored fr' stored)
    (fun r (hr : loaded r = true) => clean_local hG hr) r
  refine ⟨t.stored fr' stored, g.loaded (t.stored fr' stored) loaded, ?_, ?_, ?_⟩
  · intro code' rest
    have hstore := h.append (.store stored)
    rw [show (Func.freturn P.o).map (Code.clean (F.accessed P.o P.ofAddr)) =
        [.storeRegs stored] ++ [.ret] from rfl, ← List.append_assoc, List.length_append,
      Nat.add_assoc, steps_add, hstore]
    rfl
  · intro r hr hacc hsync
    cases hl : P.o.localRegs with
    | false =>
      have hnot (f : Reg → Bool) (flags : SyncFlags) : (synced P.o flags r && f r) = false := by
        simp [synced, hl]
      have hg : P.isLocal g.f r = false := by simp [isLocal, hl]
      have hf' : P.isLocal fr'.f r = false := by simp [isLocal, hl]
      refine (hload r).trans ((if_neg (by rw [show loaded r = false from hnot _ _]; simp)).trans ?_)
      rw [getReg_of_global hr hg, getReg_of_global hr hf']
      exact if_neg (by rw [show stored r = false from hnot _ _]; simp)
    | true =>
      have hst : stored r = true := by
        simp only [stored, (synced_ret (hsync hl)).2, hacc, Bool.and_true]
      have hlocal : P.isLocal fr'.f r = true := by rw [isLocal_of hF', hl, hacc]; rfl
      have hregs : (t.stored fr' stored).regs r = P.getReg t fr' r :=
        (if_pos hst).trans (getReg_of_local _ _ hr hlocal).symm
      refine (hload r).trans ?_
      split
      next => exact hregs
      next hno =>
        have hG' : G.accessed P.o P.ofAddr r = false := by
          simpa only [loaded, hsync hl, Bool.true_and, Bool.not_eq_true] using hno
        have hg : P.isLocal g.f r = false := by
          rw [isLocal_of hG, hG', Bool.and_false]
        rw [getReg_of_global hr hg]
        exact hregs
  · intro r hr hsync hacc
    have hst : stored r = false := by simp [stored, synced, hsync]
    have hno : loaded r = false := by simp [loaded, hacc]
    have hg : P.isLocal g.f r = false := by rw [isLocal_of hG, hacc, Bool.and_false]
    refine (hload r).trans ((if_neg (by rw [hno]; simp)).trans ?_)
    rw [getReg_of_global hr hg]
    exact if_neg (by rw [hst]; simp)

omit [DecidableEq A] in
theorem getReg_of_running {code : List (Code V A B W)} {rest : List (Frame V A B W)}
    (h : t.running fr code rest = u.running fr' code rest) : P.getReg t fr = P.getReg u fr' := by
  have hregs : t.regs = u.regs := congrArg (·.regs) h
  obtain ⟨hframe, -⟩ := List.cons.inj (congrArg (·.stack) h)
  have hf : fr.f = fr'.f := congrArg (·.f) hframe
  have hcopies : fr.regs = fr'.regs := congrArg (·.regs) hframe
  funext r
  simp only [getReg, hf, hregs, hcopies]

/-- Code that runs to its end does so in one way. -/
theorem Executes.getReg_eq {code : List (Code V A B W)} (h : P.Executes code s fr t fr')
    (h' : P.Executes code s fr u fr'') : P.getReg t fr' = P.getReg u fr'' :=
  getReg_of_running (Option.some.inj ((h [] []).symm.trans (h' [] [])))

theorem Returns.getReg_eq {code : List (Code V A B W)} {c : Code V A B W}
    (h : P.Returns code c s fr g t fr') (h' : P.Returns code c s fr g u fr'') :
    P.getReg t fr' = P.getReg u fr'' :=
  getReg_of_running (Option.some.inj ((h [] []).symm.trans (h' [] [])))

end Program

/-! ### The registers of a result -/

namespace Caller
variable {W : Type} {o : Options} {ty : RetTy} {rets : List Reg} {r : Reg}

theorem retRegs_mem (h : retRegs o ty = some rets) (hr : r ∈ rets) :
    r ≠ Reg.ZERO ∧ r ≠ Reg.RA ∧ calleeSaved r = false ∧ syncRet r = true := by
  have hcases : r = Reg.A0 ∨ r = Reg.A1 ∨ r = Reg.FA0 := by
    cases ty <;> simp only [retRegs] at h
    case int bits =>
      split at h
      next => obtain rfl := Option.some.inj h; simp_all
      next => cases h
    all_goals
      obtain rfl := Option.some.inj h
      cases hf : o.hardFloatABI <;> simp only [hf, if_true, if_false, Bool.false_eq_true,
        List.mem_cons, List.not_mem_nil, or_false] at hr <;> tauto
  rcases hcases with rfl | rfl | rfl <;> decide

theorem callExternal_ok {fn : External W} {e : Ext Val (BitVec 32) (BitVec 8) W}
    (h : callExternal o fn = some e) : retRegs o fn.retty = some e.rets ∧
      ∀ regs mem world, ∃ old, (e.eval (e.args.map regs) mem world).1 =
        handleReturn o old (fn.eval (fn.args.map regs) mem world).1 fn.retty := by
  unfold callExternal at h
  cases hr : retRegs o fn.retty with
  | none =>
    rw [hr] at h
    cases h
  | some rets =>
    rw [hr] at h
    obtain rfl := Option.some.inj h
    refine ⟨rfl, fun regs mem world => ?_⟩
    have htake : ((fn.args ++ rets).map regs).take fn.args.length = fn.args.map regs := by
      rw [List.map_append, List.take_left' (List.length_map _)]
    simp only [htake]
    exact ⟨_, rfl⟩

theorem holds_congr {regs regs' : Reg → Val} (h : retRegs o ty = some rets)
    (heq : ∀ r ∈ rets, regs r = regs' r) {ret : Val} (hr : Holds o ret regs' ty) :
    Holds o ret regs ty := by
  cases ty <;> simp only [retRegs] at h
  case void => trivial
  case int bits =>
    split at h
    next =>
      obtain rfl := Option.some.inj h
      simp_all [Holds]
    next => cases h
  all_goals
    obtain rfl := Option.some.inj h
    cases hf : o.hardFloatABI <;> simp_all [Holds]

theorem setWidth_lo (v : Val) : (lo v).setWidth 32 = v.setWidth 32 := by
  simp [lo]

theorem setWidth_setLo (old v : Val) : (setLo old v).setWidth 32 = v.setWidth 32 := by
  ext i hi
  simp [setLo, lo]

/-- What `handleReturn` writes is the result. -/
theorem holds_writeRegs (regs : Reg → Val) (old ret : Val) (h : retRegs o ty = some rets) :
    Holds o ret (Program.writeRegs regs rets (handleReturn o old ret ty)) ty := by
  have hA0 : Reg.A0 ≠ Reg.ZERO := by decide
  have hA1 : Reg.A1 ≠ Reg.ZERO := by decide
  have hFA0 : Reg.FA0 ≠ Reg.ZERO := by decide
  have hne : Reg.A0 ≠ Reg.A1 := by decide
  cases ty <;> simp only [retRegs] at h
  case void => trivial
  case int bits =>
    split at h
    next =>
      obtain rfl := Option.some.inj h
      simp [Holds, handleReturn, Program.writeRegs, hA0, setWidth_lo]
    next => cases h
  all_goals
    obtain rfl := Option.some.inj h
    cases hf : o.hardFloatABI <;>
      simp [Holds, handleReturn, Program.writeRegs, hA0, hA1, hFA0, hne, hf, setWidth_lo,
        setWidth_setLo, hi]

theorem not_holds {regs : Reg → Val} {rs : List Reg} (h : retRegs o ty = some (r :: rs))
    (hr : regs r = 0) : ¬ Holds o (BitVec.allOnes 64) regs ty := by
  have hne : (0 : BitVec 32) ≠ (BitVec.allOnes 64).setWidth 32 := by decide
  have hne' : (0 : BitVec 64) ≠ BitVec.allOnes 64 := by decide
  cases ty <;> simp only [retRegs] at h
  case void => cases h
  case int bits =>
    split at h
    next =>
      obtain ⟨rfl, -⟩ := List.cons.inj (Option.some.inj h)
      simp [Holds, hr]
    next => cases h
  all_goals
    cases hf : o.hardFloatABI <;> simp_all [Holds]

end Caller

/-! ### When results are kept -/

/-- The result is in a floating point register. -/
def inFA0 (o : Options) (ty : RetTy) : Bool := o.hardFloatABI && (ty = .float || ty = .double)

/-- The cast of an integer works; and local registers, if there are any, are not loaded
again behind the call, and are stored on return. -/
def Safe (o : Options) (ty : RetTy) : Prop :=
  (∀ bits, ty = .int bits → bits = 32) ∧
    (o.localRegs = true → ty ≠ .void →
      o.syncOnExternalCalls = false ∧ (inFA0 o ty = true → o.syncFRegs = true))

namespace Caller
variable {W : Type} {o : Options} {ty : RetTy} {rets : List Reg} {r : Reg}

theorem retRegs_isSome (h : ∀ bits, ty = .int bits → bits = 32) :
    ∃ rets, retRegs o ty = some rets := by
  cases ty with
  | int bits => exact ⟨_, if_pos (h bits rfl)⟩
  | _ => exact ⟨_, rfl⟩

theorem retRegs_syncable (h : retRegs o ty = some rets) :
    (∀ r ∈ rets, syncable o r = true) ↔ (inFA0 o ty = true → o.syncFRegs = true) := by
  have hA0 : syncable o Reg.A0 = true := rfl
  have hA1 : syncable o Reg.A1 = true := rfl
  have hFA0 : syncable o Reg.FA0 = o.syncFRegs := rfl
  cases ty <;> simp only [retRegs] at h
  case int bits =>
    split at h
    next =>
      obtain rfl := Option.some.inj h
      simp [hA0, inFA0]
    next => cases h
  all_goals
    obtain rfl := Option.some.inj h
    cases hf : o.hardFloatABI <;> simp [hA0, hA1, hFA0, inFA0, hf]

theorem retRegs_cons (h : retRegs o ty = some rets) (hty : ty ≠ .void) :
    ∃ r rs, rets = r :: rs := by
  cases ty <;> simp only [retRegs] at h
  case void => exact absurd rfl hty
  case int bits =>
    split at h
    next => exact ⟨_, _, (Option.some.inj h).symm⟩
    next => cases h
  all_goals
    obtain rfl := Option.some.inj h
    cases hf : o.hardFloatABI <;> simp

theorem retRegs_head {rs : List Reg} (h : retRegs o ty = some (r :: rs))
    (hr : syncable o r = true) : ∀ x ∈ r :: rs, syncable o x = true := by
  cases ty <;> simp only [retRegs] at h
  case void => cases h
  case int bits =>
    split at h
    next => simp_all
    next => cases h
  case double =>
    have hA1 : syncable o Reg.A1 = true := rfl
    cases hf : o.hardFloatABI with
    | false =>
      simp only [hf, Bool.false_eq_true, if_false] at h
      obtain ⟨rfl, rfl⟩ := List.cons.inj (Option.some.inj h)
      simp [hr, hA1]
    | true => simp_all
  all_goals cases hf : o.hardFloatABI <;> simp_all

theorem synced_result (hl : o.localRegs = true) (h : retRegs o ty = some rets) (hr : r ∈ rets)
    (hs : syncable o r = true) : synced o {callReturned := true} r = true := by
  obtain ⟨-, -, -, hret⟩ := retRegs_mem h hr
  simp [synced, hl, hs, syncReg, hret]

end Caller

section Keeps
open Registers.Caller Program
variable {W : Type} {o : Options} {ty : RetTy}

theorem Safe.keeps (h : Safe o ty) : Keeps W o ty := by
  rintro fn rfl
  obtain ⟨rets, hrets⟩ := retRegs_isSome (o := o) h.1
  obtain ⟨e, he⟩ : ∃ e, callExternal o fn = some e := by
    unfold callExternal
    rw [hrets]
    exact ⟨_, rfl⟩
  refine ⟨e, he, fun P F addr base linkReg s fr ho hF hinst => ?_⟩
  subst ho
  obtain ⟨hregs, hout⟩ := callExternal_ok he
  obtain ⟨old, hout⟩ := hout (P.linked s fr addr linkReg) s.mem s.world
  have hacc := @rets_accessed _ _ _ _ F P.o P.ofAddr _ _ _ _ hinst
  -- The registers of the result that are copied: the call does not load them again.
  have hsafe : P.o.localRegs = true → ∀ r ∈ e.rets,
      P.o.syncOnExternalCalls = false ∧ synced P.o {callReturned := true} r = true := by
    intro hl r hr
    have hty : fn.retty ≠ .void := by
      intro hty
      rw [hty] at hregs
      rw [← Option.some.inj hregs] at hr
      cases hr
    obtain ⟨hsync, hf⟩ := h.2 hl hty
    exact ⟨hsync, synced_result hl hregs hr ((retRegs_syncable hregs).mpr hf r hr)⟩
  obtain ⟨t, fr', ht, hf, -, hview⟩ := call_view (s := s) hF hinst
  rw [hout] at hview
  have hresult : ∀ r ∈ e.rets, P.getReg t fr' r = writeRegs (P.linked s fr addr linkReg) e.rets
      (handleReturn P.o old (fn.eval (fn.args.map (P.linked s fr addr linkReg)) s.mem s.world).1
        fn.retty) r := by
    intro r hr
    rw [hview, if_neg]
    rintro ⟨hsync, hs, -⟩
    cases hl : P.o.localRegs with
    | false => simp [synced, hl] at hs
    | true =>
      rw [(hsafe hl r hr).1] at hsync
      cases hsync
  have hholds := holds_congr hregs hresult (holds_writeRegs _ old _ hregs)
  refine ⟨⟨t, fr', ht, hholds, fun r hsaved hlink => ?_⟩, fun g G hG => ?_⟩
  · have hnot : r ∉ e.rets := fun hr => by
      rw [(retRegs_mem hregs hr).2.2.1] at hsaved
      cases hsaved
    rw [hview, writeRegs_of_notMem hnot, ite_self]
    exact writeRegs_of_notMem (fun hr => hlink (List.mem_singleton.mp hr)) _
  · obtain ⟨u, g', hu, hback, -⟩ := return_view (s := s) (g := g) hF hG ht hf
    refine ⟨u, g', ?_, holds_congr hregs (fun r hr => ?_) hholds⟩
    · rw [Func.handleExternal_return, List.map_append]
      exact hu
    · exact hback r (retRegs_mem hregs hr).1 (hacc r hr) fun hl => (hsafe hl r hr).2

/-- A function that calls an external one, and one that calls that function. -/
def callers (o : Options) (e : Ext Val (BitVec 32) (BitVec 8) W) :
    Program Val (BitVec 32) (BitVec 8) W where
  o := o
  funcs
    | 0 => some ⟨0, [.callExternal [] e Reg.RA]⟩
    | 1 => some ⟨8, [.call [] 0 Reg.RA]⟩
    | _ => none
  undef _ _ := 0
  ofAddr _ := 0
  zero := 0

theorem inst?_start {V A B W : Type} (start : Nat) (inst : Inst V A B W)
    (body : List (Inst V A B W)) : Func.inst? ⟨start, inst :: body⟩ start = some inst := by
  simp [Func.inst?]

/-- A call accesses the link register only. -/
theorem call_accessed {V A B W : Type} (o : Options) (ofAddr : Nat → V) {r : Reg}
    (hr : r ≠ Reg.RA) :
    Func.accessed (A := A) (B := B) (W := W) o ofAddr ⟨8, [.call [] 0 Reg.RA]⟩ r = false := by
  have hlink : Reg.RA ≠ Reg.ZERO := by decide
  simp [Func.accessed, Func.bodyAt, inst?_start, Func.translate, Func.handleCall, Func.link,
    Func.tailCall, Func.load, Func.storeRegisters, Func.loadRegisters, Code.accesses, hlink, hr]

theorem Keeps.safe [Inhabited W] (h : Keeps W o ty) : Safe o ty := by
  let fn : External W := ⟨ty, [], fun _ mem world => (BitVec.allOnes 64, mem, world)⟩
  obtain ⟨e, he, hkeeps⟩ := h fn rfl
  obtain ⟨hregs, -⟩ := callExternal_ok he
  refine ⟨fun bits hty => ?_, fun hl hty => ?_⟩
  · by_contra hbits
    have hnone : retRegs o fn.retty = none := by
      show retRegs o ty = none
      rw [hty]
      exact if_neg hbits
    rw [hnone] at hregs
    cases hregs
  obtain ⟨r, rs, hrs⟩ := retRegs_cons hregs hty
  rw [hrs] at hregs
  have hr : r ∈ e.rets := hrs ▸ List.mem_cons_self
  obtain ⟨hzero, hra, -, -⟩ := retRegs_mem hregs List.mem_cons_self
  let P := callers o e
  let s : State Val (BitVec 32) (BitVec 8) W := ⟨fun _ => 0, fun _ => 0, default, [], []⟩
  let fr : Frame Val (BitVec 32) (BitVec 8) W := ⟨0, 0, [], fun _ => 0, none⟩
  let g : Frame Val (BitVec 32) (BitVec 8) W := ⟨1, 8, [], fun _ => 0, none⟩
  have hinst := inst?_start 0 (.callExternal [] e Reg.RA) []
  obtain ⟨⟨t, fr', ht, hcall, -⟩, hback⟩ := hkeeps P _ 0 [] Reg.RA s fr rfl rfl hinst
  obtain ⟨u, g', hu, hreturn⟩ := hback g _ rfl
  have hF : P.funcs fr.f = some ⟨0, [.callExternal [] e Reg.RA]⟩ := rfl
  have hG : P.funcs g.f = some ⟨8, [.call [] 0 Reg.RA]⟩ := rfl
  obtain ⟨t₀, fr₀, ht₀, hf₀, hkept, hview⟩ := @call_view _ _ _ _ P _ s fr _ hF _ _ _ _ hinst
  obtain ⟨u₀, g₀, hu₀, -, hlost⟩ := @return_view _ _ _ _ P _ s _ fr _ g _ _ hF hG _ ht₀ hf₀
  rw [← List.map_append, ← Func.handleExternal_return] at hu₀
  rw [ht.getReg_eq ht₀] at hcall
  rw [hu.getReg_eq hu₀] at hreturn
  have hstart : P.getReg s fr r = 0 := by
    unfold getReg
    split
    · rfl
    · split <;> rfl
  have hlinked : P.linked s fr 0 Reg.RA r = 0 :=
    (writeRegs_of_notMem (fun h => hra (List.mem_singleton.mp h)) _).trans hstart
  -- A register that is not stored on return is not what the caller sees.
  have hsyncable : syncable o r = true := by
    by_contra hs
    rw [Bool.not_eq_true] at hs
    have hacc := call_accessed o P.ofAddr (A := BitVec 32) (B := BitVec 8) (W := W) hra
    refine not_holds hregs ?_ hreturn
    exact (hlost r hzero hs hacc).trans (hkept hl r hs)
  have hsync : o.syncOnExternalCalls = false := by
    by_contra hs
    rw [Bool.not_eq_false] at hs
    refine not_holds hregs ?_ hcall
    rw [hview, if_pos ⟨hs, synced_result hl hregs List.mem_cons_self hsyncable,
      rets_accessed hinst r hr⟩]
    exact hlinked
  exact ⟨hsync, (retRegs_syncable hregs).mp (retRegs_head hregs hsyncable)⟩

/-- **When results of external functions are kept.** -/
theorem external_results (W : Type) [Inhabited W] (o : Options) (ty : RetTy) :
    Keeps W o ty ↔ Safe o ty :=
  ⟨Keeps.safe, Safe.keeps⟩

/-- With `syncOnExternalCalls` a local copy of `a0` loses the result. -/
theorem synced_result_lost :
    ¬ Keeps Unit {regs := .LOCALS, syncOnExternalCalls := true} (.int 32) := by
  intro h
  obtain ⟨hsync, -⟩ := h.safe.2 rfl nofun
  cases hsync

end Keeps
end RiscvSbt.Registers
