import RiscvSbt.Float.Moves

/-! The bits that the moves of floating registers leave in memory and integer registers.

A narrow write keeps the upper half of the register that it finds, where RISC-V sets it to ones.
Only a wide store shows it. Calls and returns move registers between files, but no bits. -/
namespace RiscvSbt.Float
open Isa (Word Memory FInst FState)
open Registers (Options SyncFlags synced)

variable {o : Options} {s s' : Machine} {g : FState}

/-- RISC-V has no files to synchronise. -/
def guestStep (g : FState) : Event → FState
  | .inst i => g.step i
  | _ => g

/-- Memory and the integer registers agree. -/
def Agree (g : FState) (s : Machine) : Prop := g.mem = s.mem ∧ g.x = s.x

/-- They agree in every state of a run. -/
def Agrees (o : Options) (g : FState) (s : Machine) : List Event → Prop
  | [] => Agree g s
  | e :: es => Agree g s ∧ ∀ s', s.step o e = some s' → Agrees o (guestStep g e) s' es

/-- The variable that holds a register. -/
def Machine.cell (o : Options) (s : Machine) (r : Isa.Reg) : BitVec 64 :=
  if o.localRegs && s.func.access r then s.func.regs r else s.f r

/-- Whether the last write of a register was a narrow one. -/
def narrowed (narrow : Isa.Reg → Bool) : Event → Isa.Reg → Bool
  | .inst (.flw rd _ _) | .inst (.fmvWX rd _) => Function.update narrow rd true
  | .inst (.fld rd _ _) => Function.update narrow rd false
  | _ => narrow

/-- A wide store of a register with a narrow value finds ones above it. -/
def Event.boxed (o : Options) (narrow : Isa.Reg → Bool) (s : Machine) : Event → Prop
  | .inst (.fsd rs2 _ _) =>
    narrow rs2 = true → (s.cell o rs2).extractLsb' 32 32 = BitVec.allOnes 32
  | _ => True

/-- Each step of a run does. -/
def Boxed (o : Options) (narrow : Isa.Reg → Bool) (s : Machine) : List Event → Prop
  | [] => True
  | e :: es => ∀ s', s.step o e = some s' → e.boxed o narrow s ∧ Boxed o (narrowed narrow e) s' es

/-- Calls and returns synchronise the floating registers. -/
structure Synchronises (o : Options) : Prop where
  syncs : o.syncFRegs = true
  mode : o.regs ≠ .ABI

/-! ### Synchronisation -/

theorem Synchronises.synced (h : Synchronises o) (flags : SyncFlags) (r : Isa.Reg)
    (hflags : flags.retRegsOnly = false) : synced o flags (.f r) = o.localRegs := by
  simp [Registers.synced, Registers.syncable, Registers.syncReg, h.syncs, h.mode, hflags]

/-- Behind a store the global registers hold what the function's did. -/
theorem storeRegisters_f (h : Synchronises o) (flags : SyncFlags)
    (hflags : flags.retRegsOnly = false) (s : Machine) (r : Isa.Reg) :
    (s.storeRegisters o flags).f r = s.cell o r := by
  simp only [Machine.storeRegisters, Machine.copied, h.synced flags r hflags, Machine.cell]

/-- Behind a load the function's registers hold what the global ones do. -/
theorem cell_loadRegisters (h : Synchronises o) (flags : SyncFlags)
    (hflags : flags.retRegsOnly = false) (s : Machine) (r : Isa.Reg) :
    (s.loadRegisters o flags).cell o r = s.f r := by
  simp only [Machine.loadRegisters, Machine.copied, h.synced flags r hflags, Machine.cell]
  split
  · rfl
  · rfl

theorem cell_call (h : Synchronises o) (s : Machine) (access : Isa.Reg → Bool)
    (regs : FRegisters) : (s.call o access regs).cell o = s.cell o := by
  funext r
  rw [Machine.call, cell_loadRegisters h _ rfl]
  exact storeRegisters_f h _ rfl s r

theorem cell_ret (h : Synchronises o) (hret : s.ret o = some s') : s'.cell o = s.cell o := by
  unfold Machine.ret at hret
  cases hcallers : s.callers with
  | nil => rw [hcallers] at hret; cases hret
  | cons caller callers =>
    rw [hcallers] at hret
    obtain rfl := Option.some.inj hret
    funext r
    rw [cell_loadRegisters h _ rfl]
    exact storeRegisters_f h _ rfl s r

theorem ret_toState (hret : s.ret o = some s') : s'.toState = s.toState := by
  unfold Machine.ret at hret
  cases hcallers : s.callers with
  | nil => rw [hcallers] at hret; cases hret
  | cons caller callers =>
    rw [hcallers] at hret
    obtain rfl := Option.some.inj hret
    rfl

/-! ### Registers -/

theorem step_inst {i : FInst} (hs : s.step o (.inst i) = some s') :
    s.func.access (freg i) = true ∧ s' = s.translate o i := by
  have hs' : (if s.func.access (freg i) then some (s.translate o i) else none) = some s' := hs
  split at hs'
  next hr => exact ⟨hr, (Option.some.inj hs').symm⟩
  next => cases hs'

theorem getFReg_eq {r : Isa.Reg} (hr : s.func.access r = true) : s.getFReg o r = s.cell o r := by
  simp [Machine.getFReg, Machine.cell, hr]

theorem cell_setFReg {r : Isa.Reg} (hr : s.func.access r = true) (v : BitVec 64) :
    (s.setFReg o r v).cell o = Function.update (s.cell o) r v := by
  funext q
  by_cases hq : q = r
  · subst hq
    cases hl : o.localRegs <;> simp [Machine.setFReg, Machine.cell, hl, hr]
  · cases hl : o.localRegs <;> simp [Machine.setFReg, Machine.cell, hl, hq]

/-- What RISC-V has in a register: a narrow value is boxed. -/
def seen (narrow : Bool) (v : BitVec 64) : BitVec 64 :=
  if narrow then Isa.box (v.extractLsb' 0 32) else v

/-- The machine and RISC-V after the same events. -/
structure Related (o : Options) (narrow : Isa.Reg → Bool) (g : FState) (s : Machine) : Prop where
  mem : g.mem = s.mem
  x : g.x = s.x
  f : ∀ r, g.f r = seen (narrow r) (s.cell o r)

theorem low_append (u v : Word) : (u ++ v).extractLsb' 0 32 = v :=
    BitVec.extractLsb'_append_eq_right

theorem high_append (u v : Word) : (u ++ v).extractLsb' 32 32 = u :=
    BitVec.extractLsb'_append_eq_left

theorem halves (v : BitVec 64) : v.extractLsb' 32 32 ++ v.extractLsb' 0 32 = v :=
  BitVec.extractLsb'_append_extractLsb'_eq_extractLsb' (by decide) |>.trans (by simp)

/-- The low half is there in any case. -/
theorem seen_low (narrow : Bool) (v : BitVec 64) :
    (seen narrow v).extractLsb' 0 32 = v.extractLsb' 0 32 := by
  cases narrow with
  | false => rfl
  | true => exact low_append _ _

theorem seen_eq_iff (narrow : Bool) (v : BitVec 64) :
    seen narrow v = v ↔ (narrow = true → v.extractLsb' 32 32 = BitVec.allOnes 32) := by
  cases narrow with
  | false => simp [seen]
  | true =>
    constructor
    · intro h _
      rw [← h]
      exact high_append _ _
    · intro h
      show BitVec.allOnes 32 ++ v.extractLsb' 0 32 = v
      rw [← h rfl, halves]

namespace Related
variable {narrow : Isa.Reg → Bool} (h : Related o narrow g s)
include h

theorem get (r : Isa.Reg) : g.get r = s.get r := by
  unfold Isa.State.get
  rw [h.x]

/-- A register is written on both sides. -/
theorem write {r : Isa.Reg} (hr : s.func.access r = true) (b : Bool) {v w : BitVec 64}
    (hv : v = seen b w) :
    Related o (Function.update narrow r b) (g.setF r v) (s.setFReg o r w) := by
  refine ⟨?_, ?_, fun q => ?_⟩
  · unfold Machine.setFReg
    split <;> exact h.mem
  · unfold Machine.setFReg
    split <;> exact h.x
  · rw [cell_setFReg hr]
    by_cases hq : q = r
    · subst hq
      simp [FState.setF, hv]
    · simp [FState.setF, hq, h.f q]

/-- A narrow write keeps the half above it. -/
theorem write32 {r : Isa.Reg} (hr : s.func.access r = true) (v : Word) :
    Related o (Function.update narrow r true) (g.setF r (Isa.box v)) (s.fstore32 o v r) := by
  refine h.write hr true ?_
  rw [seen, if_pos rfl, low_append]

theorem low (r : Isa.Reg) (hr : s.func.access r = true) :
    (g.f r).extractLsb' 0 32 = s.fload32 o r := by
  rw [h.f, seen_low, Machine.fload32, getFReg_eq hr]

/-- One instruction, a wide store if it stores what RISC-V does. -/
theorem inst {i : FInst} (hr : s.func.access (freg i) = true)
    (hboxed : (Event.inst i).boxed o narrow s) :
    Related o (narrowed narrow (.inst i)) (g.step i) (s.translate o i) := by
  cases i with
  | flw rd rs1 imm =>
    rw [FState.step, h.mem, h.get]
    exact h.write32 hr _
  | fld rd rs1 imm =>
    rw [FState.step, h.mem, h.get]
    exact h.write hr false rfl
  | fsw rs2 rs1 imm =>
    refine ⟨?_, h.x, h.f⟩
    show Memory.write32 _ _ _ = Memory.write32 _ _ _
    rw [h.mem, h.get, h.low rs2 hr]
    rfl
  | fsd rs2 rs1 imm =>
    refine ⟨?_, h.x, h.f⟩
    have hcell : g.f rs2 = s.cell o rs2 := (h.f rs2).trans ((seen_eq_iff _ _).2 hboxed)
    have hload : s.fload64 o rs2 = s.cell o rs2 := getFReg_eq hr
    show Memory.write64 _ _ _ = Memory.write64 _ _ _
    rw [h.mem, h.get, hcell, hload]
    rfl
  | fmvWX rd rs1 =>
    rw [FState.step, h.get]
    exact h.write32 hr _
  | fmvXW rd rs1 =>
    have hset : g.set rd ((g.f rs1).extractLsb' 0 32) = s.set rd (s.fload32 o rs1) := by
      rw [h.low rs1 hr]
      unfold Isa.State.set
      have hstate : g.toState = s.toState := by
        rw [show g.toState = ⟨g.x, g.mem⟩ from rfl, h.x, h.mem]
      rw [hstate]
    refine ⟨?_, ?_, h.f⟩
    · exact congrArg Isa.State.mem hset
    · exact congrArg Isa.State.x hset

/-- A wide store of anything else is seen in memory. -/
theorem fsd_differs {rs2 rs1 : Isa.Reg} {imm : BitVec 12} (hr : s.func.access rs2 = true)
    (hboxed : ¬ (Event.inst (.fsd rs2 rs1 imm)).boxed o narrow s) :
    ¬ Agree (g.step (.fsd rs2 rs1 imm)) (s.translate o (.fsd rs2 rs1 imm)) := by
  intro hagree
  -- the upper half, that is read behind the address
  have hread : (g.mem.write64 (g.get rs1 + imm.signExtend 32) (g.f rs2)).read32
        (s.addr rs1 imm + 4) =
      (s.mem.write64 (s.addr rs1 imm) (s.fload64 o rs2)).read32 (s.addr rs1 imm + 4) :=
    congrArg (fun m : Memory => m.read32 (s.addr rs1 imm + 4)) hagree.1
  have haddr : g.get rs1 + imm.signExtend 32 = s.addr rs1 imm := by rw [h.get]; rfl
  have hload : s.fload64 o rs2 = s.cell o rs2 := getFReg_eq hr
  rw [haddr, Memory.read32_write64, Memory.read32_write64, hload, h.f] at hread
  refine hboxed fun hnarrow => ?_
  rw [← hread, hnarrow]
  exact high_append _ _

/-- One event, a wide store if it stores what RISC-V does. -/
theorem step (hsync : Synchronises o) {e : Event} (hs : s.step o e = some s')
    (hboxed : e.boxed o narrow s) : Related o (narrowed narrow e) (guestStep g e) s' := by
  cases e with
  | inst i =>
    obtain ⟨hr, rfl⟩ := step_inst hs
    exact h.inst hr hboxed
  | call access regs =>
    obtain rfl := Option.some.inj hs
    refine ⟨h.mem, h.x, fun r => ?_⟩
    rw [cell_call hsync]
    exact h.f r
  | ret =>
    have hstate : s'.toState = s.toState := ret_toState hs
    refine ⟨h.mem.trans (congrArg Isa.State.mem hstate.symm),
      h.x.trans (congrArg Isa.State.x hstate.symm), fun r => ?_⟩
    rw [cell_ret hsync hs]
    exact h.f r

end Related

theorem Agrees.head {es : List Event} (h : Agrees o g s es) : Agree g s := by
  cases es with
  | nil => exact h
  | cons e es => exact h.1

/-- Only wide stores have a condition. -/
theorem of_not_boxed {narrow : Isa.Reg → Bool} {e : Event} (h : ¬ e.boxed o narrow s) :
    ∃ rs2 rs1 imm, e = .inst (.fsd rs2 rs1 imm) := by
  cases e with
  | inst i =>
    cases i with
    | fsd rs2 rs1 imm => exact ⟨rs2, rs1, imm, rfl⟩
    | _ => exact absurd trivial h
  | _ => exact absurd trivial h

/-- Memory and integer registers agree in every state of a run just when each wide store finds
ones above a narrow value. -/
theorem agrees_iff_of_related (hsync : Synchronises o) (es : List Event)
    {narrow : Isa.Reg → Bool} (h : Related o narrow g s) :
    Agrees o g s es ↔ Boxed o narrow s es := by
  induction es generalizing narrow g s with
  | nil => exact iff_of_true ⟨h.mem, h.x⟩ trivial
  | cons e es ih =>
    constructor
    · rintro ⟨-, hrun⟩ s' hs
      have hboxed : e.boxed o narrow s := by
        by_contra hno
        obtain ⟨rs2, rs1, imm, rfl⟩ := of_not_boxed hno
        obtain ⟨hr, rfl⟩ := step_inst hs
        exact h.fsd_differs hr hno (hrun _ hs).head
      exact ⟨hboxed, (ih (h.step hsync hs hboxed)).1 (hrun s' hs)⟩
    · intro hrun
      refine ⟨⟨h.mem, h.x⟩, fun s' hs => ?_⟩
      obtain ⟨hboxed, hrest⟩ := hrun s' hs
      exact (ih (h.step hsync hs hboxed)).2 hrest

/-- From a start at which the registers hold the same bits, memory and integer registers agree in
every state of a run just when each wide store finds ones above a narrow value. -/
theorem agrees_iff (hsync : Synchronises o) (hmem : g.mem = s.mem) (hx : g.x = s.x)
    (hf : g.f = s.cell o) (es : List Event) :
    Agrees o g s es ↔ Boxed o (fun _ => false) s es :=
  agrees_iff_of_related hsync es ⟨hmem, hx, fun r => congrFun hf r⟩

/-- A run that starts in `main`, with zeros all over. -/
def zeros : Machine where
  x _ := 0
  mem _ := 0
  f _ := 0
  func := ⟨fun _ => true, fun _ => 0⟩
  callers := []

def guestZeros : FState := {x := fun _ => 0, mem := fun _ => 0, f := fun _ => 0}

def locals : Options := {regs := .LOCALS}

/-- A word goes through a register to a callee, and on to memory. -/
theorem word_agrees : Agrees locals guestZeros zeros
    [.inst (.flw 10 2 0), .call (fun _ => true) (fun _ => 7), .inst (.fsw 10 2 4), .ret] :=
  (agrees_iff ⟨rfl, by decide⟩ rfl rfl rfl _).2 fun _ _ => ⟨trivial, fun _ _ => ⟨trivial, fun _ _ =>
    ⟨trivial, fun _ _ => ⟨trivial, trivial⟩⟩⟩⟩

/-- A narrow load and a wide store: the upper half is zero, not ones. -/
theorem spill_differs : ¬ Agrees locals guestZeros zeros
    [.inst (.flw 8 2 0), .inst (.fsd 8 2 8)] := fun h =>
  absurd (congrFun ((h.2 _ rfl).2 _ rfl).1 12) (by decide)

end RiscvSbt.Float
