import Mathlib.Algebra.GroupWithZero.Nat
import RiscvSbt.Registers.Machine

/-! The code of an instruction in two modes: with all registers in the global file, and with
local copies.

Both codes have the same items. Where the second one copies registers, it copies those that
the mode passes there and that the function accesses. Between a store and a call, and between
a call and the load behind it, the function is in a situation of its own (`Phase`): what one
can say of its registers depends on it. -/
namespace RiscvSbt.Registers

variable {V A B W : Type}

/-- Branches stay in the function and do not go back to its first instruction. -/
def Func.Inside (F : Func V A B W) : Prop :=
  ∀ inst ∈ F.body, ∀ t, (∃ reads cond, inst = .branch reads cond t) ∨ inst = .jump t →
    F.start < t ∧ t < F.stop

/-- The program with registers in another place. -/
def Program.withRegs (P : Program V A B W) (regs : Regs) : Program V A B W :=
  {P with o := {P.o with regs := regs}}

/-- Where a branch in the code goes. -/
def Code.goes : Code V A B W → Option Nat
  | .condBr _ _ addr => some addr
  | _ => none

/-- Code that neither copies registers nor leaves the instruction. -/
def Code.plain : Code V A B W → Bool
  | .mark | .op _ | .ext _ | .target _ _ | .condBr _ _ _ => true
  | _ => false

/-- Where an activation is between its calls. -/
inductive Phase where
  /-- In front of the loading of the registers at the start. -/
  | entered
  | running
  /-- Behind the storing of the registers for a call. -/
  | calling
  /-- In front of the loading of the registers behind a call. -/
  | returned
  /-- Behind the storing of the registers for the return. -/
  | leaving
  deriving DecidableEq

/-- What the storing of the registers for a call and the loading at a function's start copy. -/
def Options.called (o : Options) : Reg → Bool := syncReg (o.regs = .ABI) {call := true}

/-- What the storing for a return and the loading behind a call copy. -/
def Options.answered (o : Options) : Reg → Bool := syncReg (o.regs = .ABI) {funcReturn := true}

/-- The code of one instruction in both modes, if `call` is passed to a function and `ret`
back. -/
inductive Shape (start : Nat) (acc call ret : Reg → Bool) :
    Phase → List (Code V A B W) → List (Code V A B W) → Prop where
  | item {c : Code V A B W} {g l : List (Code V A B W)} : c.plain = true →
      (∀ r ∈ c.accesses, acc r = true) → (∀ addr, c.goes = some addr → addr ≠ start) →
      Shape start acc call ret .running g l → Shape start acc call ret .running (c :: g) (c :: l)
  | enter {rg rl : Reg → Bool} {g l : List (Code V A B W)} : (∀ r, rg r = false) →
      (∀ r, r ≠ Reg.ZERO → rl r = (call r && acc r)) → Shape start acc call ret .running g l →
      Shape start acc call ret .entered (.loadRegs rg :: g) (.loadRegs rl :: l)
  | store {rg rl : Reg → Bool} {g l : List (Code V A B W)} : (∀ r, rg r = false) →
      (∀ r, r ≠ Reg.ZERO → rl r = (call r && acc r)) → Shape start acc call ret .calling g l →
      Shape start acc call ret .running (.storeRegs rg :: g) (.storeRegs rl :: l)
  | call {f : FnId} {g l : List (Code V A B W)} : Shape start acc call ret .returned g l →
      Shape start acc call ret .calling (.call f :: g) (.call f :: l)
  | icall {args : List Reg} {g l : List (Code V A B W)} : Shape start acc call ret .returned g l →
      Shape start acc call ret .calling (.icall args :: g) (.icall args :: l)
  | load {rg rl : Reg → Bool} {g l : List (Code V A B W)} : (∀ r, rg r = false) →
      (∀ r, r ≠ Reg.ZERO → rl r = (ret r && acc r)) → Shape start acc call ret .running g l →
      Shape start acc call ret .returned (.loadRegs rg :: g) (.loadRegs rl :: l)
  | leave {rg rl : Reg → Bool} {g l : List (Code V A B W)} : (∀ r, rg r = false) →
      (∀ r, r ≠ Reg.ZERO → rl r = (ret r && acc r)) → Shape start acc call ret .leaving g l →
      Shape start acc call ret .running (.storeRegs rg :: g) (.storeRegs rl :: l)
  | ret {g l : List (Code V A B W)} : Shape start acc call ret .leaving (.ret :: g) (.ret :: l)
  | br {addr : Nat} {g l : List (Code V A B W)} : addr ≠ start →
      Shape start acc call ret .running (.br addr :: g) (.br addr :: l)

variable {o : Options} {ofAddr : Nat → V} {F : Func V A B W} {addr : Nat} {inst : Inst V A B W}
  {acc accG : Reg → Bool} {start : Nat}

/-! ### Copies -/

theorem synced_globals (flags : SyncFlags) (r : Reg) :
    synced {o with regs := .GLOBALS} flags r = false := rfl

theorem syncable_of_ne (hf : o.syncFRegs = true) {r : Reg} (hr : r ≠ Reg.ZERO) :
    syncable o r = true := by
  cases r with
  | x i =>
    have hi : i ≠ 0 := fun h => hr (h ▸ rfl)
    simpa [syncable] using hi
  | f i => exact hf

/-- With local copies, what is copied depends on the mode and on the place. -/
theorem synced_eq (hl : o.localRegs = true) (hf : o.syncFRegs = true) (flags : SyncFlags) {r : Reg}
    (hr : r ≠ Reg.ZERO) : synced o flags r = syncReg (o.regs = .ABI) flags r := by
  rw [synced, hl, syncable_of_ne hf hr, Bool.true_and, Bool.true_and]

theorem syncReg_funcStart (abi : Bool) (r : Reg) :
    syncReg abi {funcStart := true} r = syncReg abi {call := true} r := by
  cases abi <;> rfl

theorem syncReg_callReturned (abi : Bool) (r : Reg) :
    syncReg abi {callReturned := true} r = syncReg abi {funcReturn := true} r := by
  cases abi <;> rfl

namespace Shape
variable (hl : o.localRegs = true) (hf : o.syncFRegs = true) {g l : List (Code V A B W)}
include hl hf

/-- The function returns, whatever code follows. -/
theorem freturn : Shape start acc o.called o.answered .running
    ((Func.freturn {o with regs := .GLOBALS} ++ g).map (Code.clean accG))
    ((Func.freturn o ++ l).map (Code.clean acc)) := by
  refine .leave (fun r => ?_) (fun r hr => ?_) .ret
  · rw [synced_globals, Bool.false_and]
  · rw [synced_eq hl hf _ hr, Options.answered]

/-- A function starts with the loading of its registers. -/
theorem enters (h : Shape start acc o.called o.answered .running g l) :
    Shape start acc o.called o.answered .entered
      ((Func.loadRegisters {o with regs := .GLOBALS} {funcStart := true}).clean accG :: g)
      ((Func.loadRegisters o {funcStart := true}).clean acc :: l) := by
  refine .enter (fun r => ?_) (fun r hr => ?_) h
  · rw [synced_globals, Bool.false_and]
  · rw [synced_eq hl hf _ hr, syncReg_funcStart, Options.called]

/-- A call in the middle of an instruction: its code waits for the callee. -/
theorem handleCall {c : Code V A B W} (hc : (∃ f, c = .call f) ∨ ∃ args, c = .icall args)
    (h : Shape start acc o.called o.answered .running (g.map (Code.clean accG))
      (l.map (Code.clean acc))) :
    Shape start acc o.called o.answered .running
      (([Func.storeRegisters {o with regs := .GLOBALS} {call := true}, c,
        Func.loadRegisters {o with regs := .GLOBALS} {callReturned := true}] ++ g).map
          (Code.clean accG))
      (([Func.storeRegisters o {call := true}, c,
        Func.loadRegisters o {callReturned := true}] ++ l).map (Code.clean acc)) := by
  have hload : Shape start acc o.called o.answered .returned
      ((Func.loadRegisters {o with regs := .GLOBALS} {callReturned := true}).clean accG ::
        g.map (Code.clean accG))
      ((Func.loadRegisters o {callReturned := true}).clean acc :: l.map (Code.clean acc)) := by
    refine .load (fun r => ?_) (fun r hr => ?_) h
    · rw [synced_globals, Bool.false_and]
    · rw [synced_eq hl hf _ hr, syncReg_callReturned, Options.answered]
  refine .store (fun r => ?_) (fun r hr => ?_) ?_
  · rw [synced_globals, Bool.false_and]
  · rw [synced_eq hl hf _ hr, Options.called]
  rcases hc with ⟨f, rfl⟩ | ⟨args, rfl⟩
  · exact .call hload
  · exact .icall hload

/-- What follows a call: the return of a tail call, or the next instruction. -/
theorem tailCall (haddr : addr + 4 ≠ start) (linkReg : Reg) :
    Shape start acc o.called o.answered .running
      (((Func.tailCall {o with regs := .GLOBALS} linkReg ++ [.br (addr + 4)] :
        List (Code V A B W))).map (Code.clean accG))
      (((Func.tailCall o linkReg ++ [.br (addr + 4)] : List (Code V A B W))).map
        (Code.clean acc)) := by
  by_cases hz : linkReg = Reg.ZERO
  · simp only [Func.tailCall, if_pos hz]
    exact freturn hl hf
  · simp only [Func.tailCall, if_neg hz]
    exact .br haddr

omit hl hf in
theorem link {linkReg : Reg} {call ret : Reg → Bool}
    (hacc : ∀ c ∈ Func.link (A := A) (B := B) (W := W) ofAddr addr linkReg,
      ∀ r ∈ c.accesses, acc r = true)
    (h : Shape start acc call ret .running (g.map (Code.clean accG)) (l.map (Code.clean acc))) :
    Shape start acc call ret .running ((Func.link ofAddr addr linkReg ++ g).map (Code.clean accG))
      ((Func.link ofAddr addr linkReg ++ l).map (Code.clean acc)) := by
  unfold Func.link at hacc ⊢
  by_cases hz : linkReg = Reg.ZERO
  · simp only [if_pos hz]
    exact h
  · simp only [if_neg hz] at hacc ⊢
    exact .item rfl (hacc _ List.mem_cons_self) nofun h

/-- The code of an instruction, that does not branch to the function's start. -/
theorem translate (he : o.syncOnExternalCalls = false)
    (hacc : ∀ c ∈ Func.translate o ofAddr addr inst, ∀ r ∈ c.accesses, acc r = true)
    (hnext : addr + 4 ≠ start)
    (htgt : ∀ t, (∃ reads cond, inst = .branch reads cond t) ∨ inst = .jump t → t ≠ start) :
    Shape start acc o.called o.answered .running
      ((Func.translate {o with regs := .GLOBALS} ofAddr addr inst).map (Code.clean accG))
      ((Func.translate o ofAddr addr inst).map (Code.clean acc)) := by
  have hitem : ∀ {c : Code V A B W} {g l : List (Code V A B W)},
      c ∈ Func.translate o ofAddr addr inst → c.plain = true →
      (∀ a, c.goes = some a → a ≠ start) → c.clean acc = c → c.clean accG = c →
      Shape start acc o.called o.answered .running (g.map (Code.clean accG))
        (l.map (Code.clean acc)) →
      Shape start acc o.called o.answered .running ((c :: g).map (Code.clean accG))
        ((c :: l).map (Code.clean acc)) := by
    intro c g l hmem hplain hgoes hc hcG h
    rw [List.map_cons, List.map_cons, hc, hcG]
    exact .item hplain (hacc c hmem) hgoes h
  cases inst with
  | op o' =>
    refine hitem (by simp [Func.translate]) rfl nofun rfl rfl ?_
    refine hitem (by simp [Func.translate]) rfl nofun rfl rfl ?_
    exact .br hnext
  | branch reads cond t =>
    refine hitem (by simp [Func.translate]) rfl nofun rfl rfl ?_
    refine hitem (by simp [Func.translate]) rfl (fun a ha => ?_) rfl rfl ?_
    · obtain rfl := Option.some.inj ha
      exact htgt _ (.inl ⟨reads, cond, rfl⟩)
    · exact .br hnext
  | jump t =>
    refine hitem (by simp [Func.translate]) rfl nofun rfl rfl ?_
    exact .br (htgt t (.inr rfl))
  | call base f linkReg =>
    refine hitem (by simp [Func.translate]) rfl nofun rfl rfl ?_
    refine hitem (by simp [Func.translate]) rfl nofun rfl rfl ?_
    simp only [Func.handleCall, List.append_assoc]
    refine link (fun c hc => hacc c ?_) ?_
    · exact List.mem_cons_of_mem _ (List.mem_cons_of_mem _
        (List.mem_append_left _ (List.mem_append_left _ (List.mem_append_left _ hc))))
    exact handleCall hl hf (.inl ⟨f, rfl⟩) (tailCall hl hf hnext linkReg)
  | callExternal base e linkReg =>
    refine hitem (by simp [Func.translate]) rfl nofun rfl rfl ?_
    refine hitem (by simp [Func.translate]) rfl nofun rfl rfl ?_
    simp only [Func.handleExternal, he, Bool.false_eq_true, if_false, List.append_assoc]
    refine link (fun c hc => hacc c ?_) ?_
    · exact List.mem_cons_of_mem _ (List.mem_cons_of_mem _
        (List.mem_append_left _ (List.mem_append_left _ (List.mem_append_left _ hc))))
    refine hitem (by simp [Func.translate, Func.handleExternal, he]) rfl nofun rfl rfl ?_
    exact tailCall hl hf hnext linkReg
  | icall base dest linkReg =>
    refine hitem (by simp [Func.translate]) rfl nofun rfl rfl ?_
    refine hitem (by simp [Func.translate]) rfl nofun rfl rfl ?_
    simp only [Func.handleICall, List.append_assoc]
    refine link (fun c hc => hacc c ?_) ?_
    · exact List.mem_cons_of_mem _ (List.mem_cons_of_mem _
        (List.mem_append_left _ (List.mem_append_left _ hc)))
    exact handleCall hl hf (.inr ⟨_, rfl⟩) (.br hnext)
  | ecall eval =>
    refine hitem (by simp [Func.translate]) rfl nofun rfl rfl ?_
    refine hitem (by simp [Func.translate]) rfl nofun rfl rfl ?_
    exact .br hnext
  | ret =>
    refine hitem (by simp [Func.translate]) rfl nofun rfl rfl ?_
    refine hitem (by simp [Func.translate]) rfl nofun rfl rfl ?_
    exact freturn hl hf

end Shape

/-! ### Writing registers -/

theorem writeRegs_congr {m m' : Reg → V} {r : Reg} (h : m r = m' r) (rs : List Reg)
    (vs : List V) : Program.writeRegs m rs vs r = Program.writeRegs m' rs vs r := by
  induction rs generalizing m m' vs with
  | nil => exact h
  | cons r' rs ih =>
    cases vs with
    | nil => exact h
    | cons v vs =>
      refine ih ?_ vs
      by_cases h0 : r' = Reg.ZERO
      · rwa [if_pos h0, if_pos h0]
      · rw [if_neg h0, if_neg h0]
        by_cases hr : r = r'
        · rw [hr, Function.update_self, Function.update_self]
        · rw [Function.update_of_ne hr, Function.update_of_ne hr, h]

theorem writeRegs_of_notMem {m : Reg → V} {r : Reg} {rs : List Reg} (h : r ∉ rs) (vs : List V) :
    Program.writeRegs m rs vs r = m r := by
  induction rs generalizing m vs with
  | nil => rfl
  | cons r' rs ih =>
    cases vs with
    | nil => rfl
    | cons v vs =>
      rw [Program.writeRegs, ih (List.not_mem_of_not_mem_cons h)]
      by_cases h0 : r' = Reg.ZERO
      · rw [if_pos h0]
      · rw [if_neg h0, Function.update_of_ne (List.ne_of_not_mem_cons h)]

/-! ### The code of a function -/

theorem inst?_eq_some (h : F.inst? addr = some inst) :
    ∃ i < F.body.length, addr = F.start + 4 * i ∧ inst ∈ F.body := by
  unfold Func.inst? at h
  split at h
  next hle =>
    obtain ⟨hlt, heq⟩ := List.getElem?_eq_some_iff.mp h
    exact ⟨_, hlt, by omega, heq ▸ List.getElem_mem hlt⟩
  next => cases h

/-- What the code of an instruction accesses, the function does. -/
theorem accessed_of_mem (h : F.inst? addr = some inst) {c : Code V A B W}
    (hc : c ∈ Func.translate o ofAddr addr inst) {r : Reg} (hr : r ∈ c.accesses) :
    F.accessed o ofAddr r = true := by
  obtain ⟨i, hi, rfl, -⟩ := inst?_eq_some h
  refine List.any_eq_true.mpr ⟨i, List.mem_range.mpr hi, ?_⟩
  simp only [Func.bodyAt, h]
  exact List.any_eq_true.mpr ⟨c, hc, decide_eq_true hr⟩

/-- Where the code at an address starts. -/
def Func.phaseAt (F : Func V A B W) (addr : Nat) : Phase :=
  if addr = F.start then .entered else .running

/-- Code that is translated in both modes, and cleaned. -/
theorem Func.shape_cleanRegs (F : Func V A B W) (ofAddr : Nat → V) (hl : o.localRegs = true)
    (hf : o.syncFRegs = true) (he : o.syncOnExternalCalls = false) (hin : F.Inside) (addr : Nat) :
    Option.Rel (Shape F.start (F.accessed o ofAddr) o.called o.answered (F.phaseAt addr))
      (F.cleanRegs {o with regs := .GLOBALS} ofAddr addr) (F.cleanRegs o ofAddr addr) := by
  -- The code without the loading of the registers.
  have hbody : Option.Rel (fun g l => Shape F.start (F.accessed o ofAddr) o.called o.answered
      .running (g.map (Code.clean (F.accessed {o with regs := .GLOBALS} ofAddr)))
      (l.map (Code.clean (F.accessed o ofAddr))))
      (F.bodyAt {o with regs := .GLOBALS} ofAddr addr) (F.bodyAt o ofAddr addr) := by
    unfold Func.bodyAt
    cases h : F.inst? addr with
    | some inst =>
      obtain ⟨i, -, rfl, hmem⟩ := inst?_eq_some h
      refine .some (.translate hl hf he (fun c hc r => accessed_of_mem h hc) (by omega)
        fun t ht => ?_)
      exact Nat.ne_of_gt (hin inst hmem t ht).1
    | none =>
      dsimp only
      split
      · exact .some (.freturn (g := []) (l := []) hl hf)
      · exact .none
  unfold Func.cleanRegs Func.codeAt Func.phaseAt
  generalize F.bodyAt {o with regs := .GLOBALS} ofAddr addr = g at hbody
  generalize F.bodyAt o ofAddr addr = l at hbody
  cases hbody with
  | none => exact .none
  | some h =>
    refine .some ?_
    by_cases hs : addr = F.start
    · simp only [hs, if_true]
      exact .enters hl hf h
    · simp only [hs, if_false]
      exact h

end RiscvSbt.Registers
