import RiscvSbt.Registers.Convention

/-! `ABI` mode agrees with `GLOBALS` mode where programs abide by the convention.

Both programs run in lock step. In `ABI` mode a function has what it may rely on in its
copies and, for registers that it does not access, in the global file; all but `sp`: the global
`sp` is what the last call passed, and no return takes it back. `Carries` says where registers
are in each phase of an activation, and a suspended function has in its copies what its callee
received (`Waits`). -/
namespace RiscvSbt.Registers
open Library

variable {V A B W : Type}

/-! ### Items -/

namespace Code
variable [DecidableEq A] {c : Code V A B W} {regs regs' : Reg → V}

/-- An item finds the same in registers that it does not access, and what it computes does not
depend on them. -/
theorem effect_congr (h : ∀ r ∈ c.accesses, regs' r = regs r) (mem : A → B) (world : W) :
    (c.effect regs' mem world).2 = (c.effect regs mem world).2 ∧
      ∀ r, regs' r = regs r → (c.effect regs' mem world).1 r = (c.effect regs mem world).1 r := by
  cases c with
  | op o =>
    have hvs : o.reads.map regs' = o.reads.map regs :=
      List.map_congr_left fun r hr => h r (List.mem_append_left _ hr)
    simp only [effect, hvs]
    exact ⟨trivial, fun r hr => writeRegs_congr hr _ _⟩
  | ext e =>
    have hvs : e.args.map regs' = e.args.map regs :=
      List.map_congr_left fun r hr => h r (List.mem_append_left _ hr)
    simp only [effect, hvs]
    exact ⟨trivial, fun r hr => writeRegs_congr hr _ _⟩
  | _ => exact ⟨rfl, fun r hr => hr⟩

theorem effect_of_notMem {r : Reg} (h : r ∉ c.writes) (mem : A → B) (world : W) :
    (c.effect regs mem world).1 r = regs r := by
  cases c with
  | op o => exact writeRegs_of_notMem h _
  | ext e => exact writeRegs_of_notMem h _
  | _ => rfl

omit [DecidableEq A] in
theorem mem_accesses_of_writes {r : Reg} (h : r ∈ c.writes) : r ∈ c.accesses := by
  cases c with
  | op o => exact List.mem_append_right _ h
  | ext e => exact List.mem_append_right _ h
  | _ => cases h

end Code

namespace Program
variable (P : Program V A B W) {F : Func V A B W}

theorem held_of_ne (g : State V A B W) {r : Reg} (hr : r ≠ Reg.ZERO) : P.held g r = g.regs r :=
  if_neg hr

theorem getReg_globals (g : State V A B W) (gf : Frame V A B W) :
    (P.withRegs .GLOBALS).getReg g gf = P.held g := by
  funext r
  simp [getReg, held, isLocal, withRegs, Options.localRegs]

theorem isLocal_eq_accessed (hl : P.o.localRegs = true) {f : FnId} (h : P.funcs f = some F)
    (r : Reg) : P.isLocal f r = F.accessed P.o P.ofAddr r := by
  simp [isLocal, hl, h]

variable [DecidableEq A]

/-- An item with an effect, with all registers in the global file. -/
theorem exec_acts_globals (g : State V A B W) (gf : Frame V A B W) (gs : List (Frame V A B W))
    {c : Code V A B W} (hc : c.acts = true) :
    ∃ regs, (P.withRegs .GLOBALS).exec g gf gs c =
        some {g with
          regs := regs
          mem := (c.effect (P.held g) g.mem g.world).2.1
          world := (c.effect (P.held g) g.mem g.world).2.2
          stack := gf :: gs} ∧
      ∀ r ≠ Reg.ZERO, regs r = (c.effect (P.held g) g.mem g.world).1 r := by
  have hglobal : (P.withRegs .GLOBALS).o.localRegs = false := by
    simp [withRegs, Options.localRegs]
  cases c with
  | op o =>
    refine ⟨_, by simp only [exec, setRegs, hglobal, Bool.false_eq_true, if_false,
      getReg_globals]; rfl, fun r hr => ?_⟩
    exact writeRegs_congr (P.held_of_ne g hr).symm _ _
  | ext e =>
    refine ⟨_, by simp only [exec, setRegs, hglobal, Bool.false_eq_true, if_false,
      getReg_globals]; rfl, fun r hr => ?_⟩
    exact writeRegs_congr (P.held_of_ne g hr).symm _ _
  | _ => cases hc

/-- The same with local copies. -/
theorem exec_acts (hl : P.o.localRegs = true) (l : State V A B W) (lf : Frame V A B W)
    (ls : List (Frame V A B W)) {c : Code V A B W} (hc : c.acts = true) :
    ∃ copies, P.exec l lf ls c =
        some {l with
          mem := (c.effect (P.getReg l lf) l.mem l.world).2.1
          world := (c.effect (P.getReg l lf) l.mem l.world).2.2
          stack := {lf with regs := copies} :: ls} ∧
      ∀ r ≠ Reg.ZERO, P.isLocal lf.f r = true →
        copies r = (c.effect (P.getReg l lf) l.mem l.world).1 r := by
  have hget (r : Reg) (hr : r ≠ Reg.ZERO) (hlocal : P.isLocal lf.f r = true) :
      lf.regs r = P.getReg l lf r := by
    rw [getReg, if_neg hr, if_pos hlocal]
  cases c with
  | op o =>
    refine ⟨_, by simp only [exec, setRegs, hl, if_true]; rfl, fun r hr hlocal => ?_⟩
    exact writeRegs_congr (hget r hr hlocal) _ _
  | ext e =>
    refine ⟨_, by simp only [exec, setRegs, hl, if_true]; rfl, fun r hr hlocal => ?_⟩
    exact writeRegs_congr (hget r hr hlocal) _ _
  | _ => cases hc

end Program

/-! ### Where registers are -/

/-- Where the `ABI` run has what an activation may rely on, that accesses `acc`: `g` is the
register file of the `GLOBALS` run, `l` the global one of the `ABI` run. -/
def Carries (acc rely : Reg → Bool) (g l copies : Reg → V) : Phase → Prop
  | .entered => ∀ r ≠ Reg.ZERO, rely r = true → syncCall r = true ∧ l r = g r
  | .running => ∀ r ≠ Reg.ZERO, rely r = true →
      if acc r then copies r = g r else r ≠ Reg.SP → l r = g r
  | .calling => ∀ r ≠ Reg.ZERO, rely r = true →
      if acc r then copies r = g r ∧ (syncCall r = true → l r = g r) else r ≠ Reg.SP → l r = g r
  | .returned => ∀ r ≠ Reg.ZERO, rely r = true →
      if syncRet r then l r = g r else if acc r then copies r = g r else r = Reg.SP
  | .leaving => ∀ r ≠ Reg.ZERO, rely r = true → syncRet r = true → l r = g r

/-- What is relied on is accessed or is passed by calls. -/
def Covered (acc rely : Reg → Bool) : Prop := ∀ r, rely r = true → acc r = true ∨ syncCall r = true

namespace Carries
variable {acc rely rl : Reg → Bool} {g l copies : Reg → V}

/-- The registers are loaded at the start of the function. -/
theorem enter (h : Carries acc rely g l copies .entered)
    (hrl : ∀ r, r ≠ Reg.ZERO → rl r = (syncCall r && acc r)) :
    Carries acc rely g l (fun r => if rl r then l r else copies r) .running := by
  intro r hz hr
  obtain ⟨hs, hr'⟩ := h r hz hr
  by_cases hacc : acc r = true
  · simp [hacc, hrl r hz, hs, hr']
  · simp [hacc, hr']

/-- The registers are stored for a call. -/
theorem store (h : Carries acc rely g l copies .running)
    (hrl : ∀ r, r ≠ Reg.ZERO → rl r = (syncCall r && acc r)) :
    Carries acc rely g (fun r => if rl r then copies r else l r) copies .calling := by
  intro r hz hr
  have hr' := h r hz hr
  by_cases hacc : acc r = true
  · rw [if_pos hacc] at hr' ⊢
    refine ⟨hr', fun hs => ?_⟩
    simp [hrl r hz, hs, hacc, hr']
  · rw [if_neg hacc] at hr' ⊢
    intro hsp
    simp [hrl r hz, hacc, hr' hsp]

/-- The registers are loaded behind a call. -/
theorem load (h : Carries acc rely g l copies .returned)
    (hrl : ∀ r, r ≠ Reg.ZERO → rl r = (syncRet r && acc r)) :
    Carries acc rely g l (fun r => if rl r then l r else copies r) .running := by
  intro r hz hr
  have hr' := h r hz hr
  by_cases hs : syncRet r = true
  · rw [if_pos hs] at hr'
    by_cases hacc : acc r = true
    · simp [hrl r hz, hs, hacc, hr']
    · simp [hacc, hr']
  · rw [if_neg hs] at hr'
    by_cases hacc : acc r = true
    · rw [if_pos hacc] at hr' ⊢
      simp [hrl r hz, hs, hr']
    · rw [if_neg hacc] at hr' ⊢
      exact fun hsp => absurd hr' hsp

/-- The registers are stored for the return. -/
theorem leave (h : Carries acc rely g l copies .running)
    (hrl : ∀ r, r ≠ Reg.ZERO → rl r = (syncRet r && acc r)) :
    Carries acc rely g (fun r => if rl r then copies r else l r) copies .leaving := by
  intro r hz hr hs
  have hr' := h r hz hr
  by_cases hacc : acc r = true
  · rw [if_pos hacc] at hr'
    simp [hrl r hz, hs, hacc, hr']
  · rw [if_neg hacc] at hr'
    simp [hrl r hz, hacc, hr' (syncRet_cases hs).2.2]

/-- A function is called, with `sp` in the global file if the callee relies on it. -/
theorem call {rely' : Reg → Bool} {copies' : Reg → V} (h : Carries acc rely g l copies .calling)
    (hrely : ∀ r, rely' r = true → syncCall r = true ∧ rely r = true)
    (hsp : acc Reg.SP = false → rely' Reg.SP = true → l Reg.SP = g Reg.SP) (acc' : Reg → Bool) :
    Carries acc' rely' g l copies' .entered := by
  intro r hz hr
  obtain ⟨hs, hr'⟩ := hrely r hr
  refine ⟨hs, ?_⟩
  have hcarry := h r hz hr'
  by_cases hacc : acc r = true
  · rw [if_pos hacc] at hcarry
    exact hcarry.2 hs
  · rw [if_neg hacc] at hcarry
    by_cases hrsp : r = Reg.SP
    · subst hrsp
      exact hsp (Bool.eq_false_iff.mpr hacc) hr
    · exact hcarry hrsp

/-- A function returns, to one that had `rely'` and `copies'` when it called. -/
theorem ret {acc' rely' rely'' : Reg → Bool} {copies' : Reg → V}
    (h : Carries acc rely g l copies .leaving) (hcov : Covered acc' rely')
    (hkept : ∀ r, calleeSaved r = true → rely' r = true → acc' r = true → copies' r = g r)
    (hrely : ∀ r, rely'' r = true →
      syncRet r = true ∧ rely r = true ∨ calleeSaved r = true ∧ rely' r = true) :
    Carries acc' rely'' g l copies' .returned ∧ Covered acc' rely'' := by
  constructor
  · intro r hz hr
    rcases hrely r hr with ⟨hs, hr'⟩ | ⟨hs, hr'⟩
    · rw [if_pos hs]
      exact h r hz hr' hs
    · have hret : syncRet r ≠ true := fun hret => by
        rw [(syncRet_cases hret).2.1] at hs
        cases hs
      rw [if_neg hret]
      by_cases hacc : acc' r = true
      · rw [if_pos hacc]
        exact hkept r hs hr' hacc
      · rw [if_neg hacc]
        exact eq_sp_of_calleeSaved hs ((hcov r hr').resolve_left hacc)
  · intro r hr
    rcases hrely r hr with ⟨hs, -⟩ | ⟨-, hr'⟩
    · exact .inr ((syncRet_cases hs).1)
    · exact hcov r hr'

end Carries

/-! ### States -/

namespace Program
variable (P : Program V A B W)

/-- Where an activation is in its code: in the middle of an instruction, or on its way to the
next one. -/
inductive Spot (F : Func V A B W) (addr : Nat) :
    Phase → List (Code V A B W) → List (Code V A B W) → Prop where
  | code {phase : Phase} {g l : List (Code V A B W)} :
      Shape F.start (F.accessed P.o P.ofAddr) syncCall syncRet phase g l → Spot F addr phase g l
  | next : addr ≠ F.start → Spot F addr .running [] []

/-- The activation of a function in both modes. -/
structure Paired (F : Func V A B W) (phase : Phase) (gf lf : Frame V A B W) : Prop where
  funcs : P.funcs gf.f = some F
  f : lf.f = gf.f
  addr : lf.addr = gf.addr
  target : lf.target = gf.target
  spot : P.Spot F gf.addr phase gf.code lf.code

/-- A suspended activation, whose callee received `entry`. -/
structure Waits (F : Func V A B W) (entry : Reg → V) (t : Trust V) (gf lf : Frame V A B W) :
    Prop where
  paired : P.Paired F .returned gf lf
  covered : Covered (F.accessed P.o P.ofAddr) t.rely
  kept : ∀ r, calleeSaved r = true → t.rely r = true → F.accessed P.o P.ofAddr r = true →
    lf.regs r = entry r

inductive Suspended : (Reg → V) → List (Frame V A B W) → List (Frame V A B W) →
    List (Trust V) → Prop where
  | nil {entry : Reg → V} : Suspended entry [] [] []
  | cons {entry : Reg → V} {F : Func V A B W} {gf lf : Frame V A B W}
      {gs ls : List (Frame V A B W)} {t : Trust V} {ts : List (Trust V)} :
      P.Waits F entry t gf lf → Suspended t.entry gs ls ts →
      Suspended entry (gf :: gs) (lf :: ls) (t :: ts)

/-- The running activation. The global `sp` is what was passed last, but on the way to a call by
a function that accesses `sp`. -/
structure Runs (F : Func V A B W) (phase : Phase) (t : Trust V) (sp : V) (g l : Reg → V)
    (gf lf : Frame V A B W) : Prop where
  paired : P.Paired F phase gf lf
  covered : Covered (F.accessed P.o P.ofAddr) t.rely
  carries : Carries (F.accessed P.o P.ofAddr) t.rely g l lf.regs phase
  sp : (phase = .calling → F.accessed P.o P.ofAddr Reg.SP = false) → l Reg.SP = sp

inductive Trusted (sp : V) (g l : Reg → V) : List (Frame V A B W) → List (Frame V A B W) →
    List (Trust V) → Prop where
  | nil : Trusted sp g l [] [] []
  | cons {F : Func V A B W} {phase : Phase} {gf lf : Frame V A B W} {gs ls : List (Frame V A B W)}
      {t : Trust V} {ts : List (Trust V)} : P.Runs F phase t sp g l gf lf →
      P.Suspended t.entry gs ls ts → Trusted sp g l (gf :: gs) (lf :: ls) (t :: ts)

/-- The states of both runs, with the shadow. -/
structure Linked (σ : Shadow V A) (g l : State V A B W) : Prop where
  mem : ∀ a, σ.clean a = true → l.mem a = g.mem a
  world : l.world = g.world
  stack : P.Trusted σ.sp g.regs l.regs g.stack l.stack σ.stack


section Step
variable {P : Program V A B W} {F : Func V A B W} {σ σ' : Shadow V A} {g l : State V A B W}
  {gf lf : Frame V A B W} {gs ls : List (Frame V A B W)} {t : Trust V} {ts : List (Trust V)}
  (hm : P.o.regs = .ABI) (hf : P.o.syncFRegs = true) (he : P.o.syncOnExternalCalls = false)
  (hin : ∀ f F, P.funcs f = some F → F.Inside)

theorem Paired.withRegs {phase : Phase} (h : P.Paired F phase gf lf) (regs copies : Reg → V) :
    P.Paired F phase {gf with regs := regs} {lf with regs := copies} :=
  ⟨h.funcs, h.f, h.addr, h.target, h.spot⟩

include hm hf he hin in
/-- The code at an address in both modes. -/
theorem Spot.cleanRegs {f : FnId} (hF : P.funcs f = some F) (addr : Nat) :
    Option.Rel (Shape F.start (F.accessed P.o P.ofAddr) syncCall syncRet (F.phaseAt addr))
      (F.cleanRegs (P.withRegs .GLOBALS).o P.ofAddr addr) (F.cleanRegs P.o P.ofAddr addr) := by
  have hcall : P.o.called = syncCall := by
    funext r
    simp [Options.called, hm, syncReg]
  have hret : P.o.answered = syncRet := by
    funext r
    simp [Options.answered, hm, syncReg]
  have hlocal : P.o.localRegs = true := by simp [Options.localRegs, hm]
  have h := F.shape_cleanRegs P.ofAddr hlocal hf he (hin f F hF) addr
  rw [hcall, hret] at h
  exact h

include hm hf he hin in
/-- Entering a function, with what it relies on in the global file. -/
theorem Linked.enter (clean : A → Bool) (sp : V) {g l : State V A B W}
    (hmem : ∀ a, clean a = true → l.mem a = g.mem a) (hworld : l.world = g.world)
    (hrely : ∀ r, t.rely r = true → syncCall r = true)
    (hcarries : ∀ acc copies, Carries acc t.rely g.regs l.regs copies .entered)
    (hsp : l.regs Reg.SP = sp) (hstack : P.Suspended t.entry g.stack l.stack ts) (f : FnId) :
    Option.Rel (P.Linked ⟨clean, sp, t :: ts⟩) ((P.withRegs .GLOBALS).enter g f) (P.enter l f) := by
  unfold Program.enter
  show Option.Rel _ (P.funcs f >>= _) (P.funcs f >>= _)
  cases hF : P.funcs f with
  | none => exact .none
  | some F =>
    have hcode := Spot.cleanRegs hm hf he hin hF F.start
    rw [Func.phaseAt, if_pos rfl] at hcode
    simp only [Option.bind_eq_bind, Option.bind_some]
    show Option.Rel _ (F.cleanRegs (P.withRegs .GLOBALS).o P.ofAddr F.start >>= _)
      (F.cleanRegs P.o P.ofAddr F.start >>= _)
    generalize F.cleanRegs (P.withRegs .GLOBALS).o P.ofAddr F.start = cg at hcode
    generalize F.cleanRegs P.o P.ofAddr F.start = cl at hcode
    cases hcode with
    | none => exact .none
    | some hshape =>
      exact .some ⟨hmem, hworld, .cons ⟨⟨hF, rfl, rfl, rfl, .code hshape⟩,
        fun r hr => .inr (hrely r hr), hcarries _ _, fun _ => hsp⟩ hstack⟩

/-- The activation that ran an item, with the rest of its code. -/
theorem Linked.top {phase : Phase} {clean : A → Bool} {sp : V} {g l : State V A B W}
    (hmem : ∀ a, clean a = true → l.mem a = g.mem a) (hworld : l.world = g.world)
    (hg : g.stack = gf :: gs) (hl : l.stack = lf :: ls)
    (hruns : P.Runs F phase t sp g.regs l.regs gf lf) (hrest : P.Suspended t.entry gs ls ts) :
    P.Linked ⟨clean, sp, t :: ts⟩ g l :=
  ⟨hmem, hworld, hg ▸ hl ▸ .cons hruns hrest⟩

/-- What an instruction finds in registers that the function accesses and relies on. -/
theorem Runs.getReg_eq {sp : V} (h : P.Runs F .running t sp g.regs l.regs gf lf)
    (hm : P.o.regs = .ABI) {r : Reg} (hacc : P.isLocal gf.f r = true) (hr : r ∈ t.known) :
    P.getReg l lf r = P.held g r := by
  have hlocal : P.o.localRegs = true := by simp [Options.localRegs, hm]
  by_cases hz : r = Reg.ZERO
  · rw [getReg, held, if_pos hz, if_pos hz]
  · have hcarry := h.carries r hz (hr.resolve_left hz)
    rw [← P.isLocal_eq_accessed hlocal h.paired.funcs, if_pos hacc] at hcarry
    rw [getReg, held, if_neg hz, if_neg hz, h.paired.f, if_pos hacc, hcarry]

/-- The registers of the `ABI` run where the function accesses them, and elsewhere those of the
`GLOBALS` run. -/
def patched (P : Program V A B W) (g l : State V A B W) (lf : Frame V A B W) (r : Reg) : V :=
  if P.isLocal lf.f r then P.getReg l lf r else P.held g r

theorem Runs.patched_eqOn {sp : V} (h : P.Runs F .running t sp g.regs l.regs gf lf)
    (hm : P.o.regs = .ABI) : Set.EqOn (P.patched g l lf) (P.held g) t.known := by
  intro r hr
  unfold patched
  split
  next hacc => exact h.getReg_eq hm (h.paired.f ▸ hacc) hr
  next => rfl

theorem Runs.patched_map {sp : V} {phase : Phase} (h : P.Runs F phase t sp g.regs l.regs gf lf)
    (hm : P.o.regs = .ABI) (reads : List Reg)
    (hacc : ∀ r ∈ reads, F.accessed P.o P.ofAddr r = true) :
    reads.map (P.getReg l lf) = reads.map (P.patched g l lf) := by
  have hlocal : P.o.localRegs = true := by simp [Options.localRegs, hm]
  refine List.map_congr_left fun r hr => ?_
  rw [patched, if_pos]
  rw [h.paired.f, P.isLocal_eq_accessed hlocal h.paired.funcs]
  exact hacc r hr

variable [DecidableEq A]

include hm in
/-- An item with an effect. -/
theorem Linked.acts {clean clean' : A → Bool} {sp : V} {rely : Reg → Bool} {c : Code V A B W}
    (h : P.Linked ⟨clean, sp, t :: ts⟩ g l) (hruns : P.Runs F .running t sp g.regs l.regs gf lf)
    (hrest : P.Suspended t.entry gs ls ts) (hc : c.acts = true)
    (hacc : ∀ r ∈ c.accesses, F.accessed P.o P.ofAddr r = true)
    (hrely : ∀ r, rely r = true → t.rely r = true ∨ r ∈ c.writes)
    (hdet : c.Determined (P.held g) g.mem g.world t.known (Trust.known ⟨rely, t.entry⟩) clean
      clean') :
    Option.Rel (P.Linked ⟨clean', sp, ⟨rely, t.entry⟩ :: ts⟩)
      ((P.withRegs .GLOBALS).exec g gf gs c) (P.exec l lf ls c) := by
  have hlocal : P.o.localRegs = true := by simp [Options.localRegs, hm]
  have hF := P.isLocal_eq_accessed hlocal hruns.paired.funcs
  obtain ⟨regs, hexecg, hregs⟩ := P.exec_acts_globals g gf gs hc
  obtain ⟨copies, hexecl, hcopies⟩ := P.exec_acts hlocal l lf ls hc
  obtain ⟨hknown, hclean, hworld⟩ := hdet _ l.mem (hruns.patched_eqOn hm) h.mem
  have hpatch (r : Reg) (hr : F.accessed P.o P.ofAddr r = true) :
      P.getReg l lf r = P.patched g l lf r := by
    rw [patched, if_pos (by rw [hruns.paired.f, hF, hr])]
  obtain ⟨heff, hout⟩ := c.effect_congr (fun r hr => hpatch r (hacc r hr)) l.mem g.world
  have hwrites (r : Reg) (hr : r ∈ c.writes) : F.accessed P.o P.ofAddr r = true :=
    hacc r (Code.mem_accesses_of_writes hr)
  have hcarries : Carries (F.accessed P.o P.ofAddr) rely regs l.regs copies .running := by
    intro r hz hr
    split
    next haccr =>
      calc copies r = (c.effect (P.getReg l lf) l.mem g.world).1 r := by
            rw [← h.world]
            exact hcopies r hz (by rw [hruns.paired.f, hF, haccr])
        _ = (c.effect (P.patched g l lf) l.mem g.world).1 r := hout r (hpatch r haccr)
        _ = (c.effect (P.held g) g.mem g.world).1 r := hknown (.inr hr)
        _ = regs r := (hregs r hz).symm
    next haccr =>
      intro hsp
      have hnot : r ∉ c.writes := fun hw => haccr (hwrites r hw)
      have hcarry := hruns.carries r hz ((hrely r hr).resolve_right hnot)
      rw [if_neg haccr] at hcarry
      rw [hcarry hsp, hregs r hz, Code.effect_of_notMem hnot, held_of_ne _ _ hz]
  have hcovered : Covered (F.accessed P.o P.ofAddr) rely := by
    intro r hr
    rcases hrely r hr with hr' | hr'
    · exact hruns.covered r hr'
    · exact .inl (hwrites r hr')
  rw [hexecg, hexecl, h.world]
  refine .some (.top (fun a ha => ?_) ?_ rfl rfl ⟨?_, hcovered, hcarries, hruns.sp⟩ hrest)
  · rw [heff]
    exact hclean a ha
  · rw [heff]
    exact hworld
  · exact hruns.paired.withRegs _ _

include hm in
/-- An item that stays in the instruction, or branches. -/
theorem Linked.plain {c : Code V A B W} {code : List (Code V A B W)} (h : P.Linked σ g l)
    (hruns : P.Runs F .running t σ.sp g.regs l.regs gf lf) (hσ : σ.stack = t :: ts)
    (hrest : P.Suspended t.entry gs ls ts) (hc : c.plain = true)
    (hacc : ∀ r ∈ c.accesses, F.accessed P.o P.ofAddr r = true)
    (hgoes : ∀ addr, c.goes = some addr → addr ≠ F.start)
    (hfollows : P.Follows g gf.f (c :: code) σ σ') :
    Option.Rel (P.Linked σ') ((P.withRegs .GLOBALS).exec g gf gs c) (P.exec l lf ls c) := by
  obtain ⟨clean, sp, stack⟩ := σ
  obtain rfl : stack = t :: ts := hσ
  have hpaired := hruns.paired
  cases hfollows with
  | quiet hq =>
    cases c with
    | mark => exact .some (.top h.mem h.world rfl rfl hruns hrest)
    | op | ext | target | condBr => cases hq
    | _ => cases hc
  | acts ha hrely hdet => exact h.acts hm hruns hrest ha hacc hrely hdet
  | @target reads dest _ _ _ _ hs hdest =>
    obtain ⟨rfl, rfl⟩ := List.cons.inj hs
    have heq : dest (reads.map (P.getReg l lf)) =
        dest (reads.map ((P.withRegs .GLOBALS).getReg g gf)) := by
      rw [hruns.patched_map hm reads hacc, hdest _ (hruns.patched_eqOn hm),
        P.getReg_globals]
    exact .some (.top h.mem h.world rfl rfl
      ⟨⟨hpaired.funcs, hpaired.f, hpaired.addr, heq, hpaired.spot⟩, hruns.covered, hruns.carries,
        hruns.sp⟩ hrest)
  | @condBr reads cond addr _ _ _ _ hs hcond =>
    obtain ⟨rfl, rfl⟩ := List.cons.inj hs
    have heq : cond (reads.map (P.getReg l lf)) =
        cond (reads.map ((P.withRegs .GLOBALS).getReg g gf)) := by
      rw [hruns.patched_map hm reads hacc, hcond _ (hruns.patched_eqOn hm),
        P.getReg_globals]
    simp only [exec, heq]
    split
    · exact .some (.top h.mem h.world rfl rfl
        ⟨⟨hpaired.funcs, hpaired.f, rfl, hpaired.target, .next (hgoes addr rfl)⟩, hruns.covered,
          hruns.carries, hruns.sp⟩ hrest)
    · exact .some (.top h.mem h.world rfl rfl hruns hrest)
  | call hcalls =>
    cases c with
    | call | icall => cases hc
    | _ => cases hcalls
  | ret | exit => cases hc

omit [DecidableEq A] in
include hm hf he hin in
/-- A call of a function, by one that waits for it. -/
theorem Linked.call {clean : A → Bool} {sp : V} {rely : Reg → Bool} {f : FnId}
    (h : P.Linked ⟨clean, sp, t :: ts⟩ g l) (hwaits : P.Paired F .returned gf lf)
    (hcovered : Covered (F.accessed P.o P.ofAddr) t.rely)
    (hcarries : Carries (F.accessed P.o P.ofAddr) t.rely g.regs l.regs lf.regs .calling)
    (hglobal : F.accessed P.o P.ofAddr Reg.SP = false → l.regs Reg.SP = sp)
    (hrest : P.Suspended t.entry gs ls ts)
    (hacc : P.isLocal gf.f Reg.SP = true → t.rely Reg.SP = true)
    (hrely : ∀ r, rely r = true → syncCall r = true ∧ t.rely r = true)
    (hsp : P.isLocal gf.f Reg.SP = false ∧ rely Reg.SP = true → sp = g.regs Reg.SP) :
    Option.Rel (P.Linked ⟨clean, if P.isLocal gf.f Reg.SP then g.regs Reg.SP else sp,
        ⟨rely, g.regs⟩ :: t :: ts⟩)
      ((P.withRegs .GLOBALS).enter {g with stack := gf :: gs} f)
      (P.enter {l with stack := lf :: ls} f) := by
  have hlocal : P.o.localRegs = true := by simp [Options.localRegs, hm]
  rw [P.isLocal_eq_accessed hlocal hwaits.funcs] at hacc hsp ⊢
  have hkept (r : Reg) (hr : calleeSaved r = true) (ht : t.rely r = true)
      (ha : F.accessed P.o P.ofAddr r = true) : lf.regs r = g.regs r := by
    have hz : r ≠ Reg.ZERO := by
      rintro rfl
      cases hr
    have hcarry := hcarries r hz ht
    rw [if_pos ha] at hcarry
    exact hcarry.1
  refine Linked.enter hm hf he hin clean _ (g := {g with stack := gf :: gs})
    (l := {l with stack := lf :: ls}) h.mem h.world (fun r hr => (hrely r hr).1)
    (fun acc copies => ?_) ?_ (.cons ⟨hwaits, hcovered, hkept⟩ hrest) f
  · refine hcarries.call hrely (fun ha hr => ?_) acc
    rw [hglobal ha, hsp ⟨ha, hr⟩]
  · by_cases ha : F.accessed P.o P.ofAddr Reg.SP = true
    · have hcarry := hcarries Reg.SP (by decide) (hacc ha)
      rw [if_pos ha] at hcarry
      rw [if_pos ha]
      exact hcarry.2 (by decide)
    · rw [if_neg ha]
      exact hglobal (Bool.eq_false_iff.mpr ha)

/-- A return. -/
theorem Linked.ret {code : List (Code V A B W)} (h : P.Linked σ g l)
    (hruns : P.Runs F .leaving t σ.sp g.regs l.regs gf lf) (hσ : σ.stack = t :: ts)
    (hrest : P.Suspended t.entry gs ls ts) (hfollows : P.Follows g gf.f (.ret :: code) σ σ') :
    P.Linked σ' {g with stack := gs} {l with stack := ls} := by
  obtain ⟨clean, sp, stack⟩ := σ
  obtain rfl : stack = t :: ts := hσ
  have hsp : l.regs Reg.SP = sp := hruns.sp nofun
  cases hfollows with
  | quiet hq => cases hq
  | acts ha => cases ha
  | call hc => cases hc
  | exit =>
    cases hrest
    exact ⟨h.mem, h.world, .nil⟩
  | ret hsaved hrely =>
    cases hrest with
    | cons hwaits hrest =>
      obtain ⟨hcarries, hcovered⟩ := hruns.carries.ret hwaits.covered
        (fun r hr ht ha => (hwaits.kept r hr ht ha).trans (hsaved r hr).symm) hrely
      exact ⟨h.mem, h.world, .cons ⟨hwaits.paired, hcovered, hcarries, fun _ => hsp⟩ hrest⟩

include hm hf he hin in
/-- One item of code of the running function. -/
theorem Linked.exec {phase : Phase} {cg cl : Code V A B W} {gcode lcode : List (Code V A B W)}
    (h : P.Linked σ g l) (hruns : P.Runs F phase t σ.sp g.regs l.regs gf lf)
    (hσ : σ.stack = t :: ts) (hrest : P.Suspended t.entry gs ls ts)
    (hshape : Shape F.start (F.accessed P.o P.ofAddr) syncCall syncRet phase (cg :: gcode)
      (cl :: lcode))
    (hfollows : P.Follows g gf.f (cg :: gcode) σ σ')
    (hsp : ∀ t' ts', σ'.stack = t' :: ts' → cg.calls = true ∧ P.isLocal gf.f Reg.SP = false ∧
      t'.rely Reg.SP = true → σ.sp = g.regs Reg.SP) :
    Option.Rel (P.Linked σ') ((P.withRegs .GLOBALS).exec g {gf with code := gcode} gs cg)
      (P.exec l {lf with code := lcode} ls cl) := by
  have hpaired {ph : Phase}
      (hs : Shape F.start (F.accessed P.o P.ofAddr) syncCall syncRet ph gcode lcode) :
      P.Paired F ph {gf with code := gcode} {lf with code := lcode} :=
    ⟨hruns.paired.funcs, hruns.paired.f, hruns.paired.addr, hruns.paired.target, .code hs⟩
  obtain ⟨clean, sp, stack⟩ := σ
  obtain rfl : stack = t :: ts := hσ
  have hcall (f : FnId) (hc : cg.calls = true)
      (hcarries : Carries (F.accessed P.o P.ofAddr) t.rely g.regs l.regs lf.regs .calling)
      (hglobal : F.accessed P.o P.ofAddr Reg.SP = false → l.regs Reg.SP = sp)
      (hs : Shape F.start (F.accessed P.o P.ofAddr) syncCall syncRet .returned gcode lcode) :
      Option.Rel (P.Linked σ')
        ((P.withRegs .GLOBALS).enter {g with stack := {gf with code := gcode} :: gs} f)
        (P.enter {l with stack := {lf with code := lcode} :: ls} f) := by
    obtain ⟨rely, rfl, hacc, hrely⟩ := hfollows.of_calls hc
    exact h.call hm hf he hin (hpaired hs) hruns.covered hcarries hglobal hrest hacc hrely
      fun ha => hsp _ _ rfl ⟨hc, ha⟩
  cases hshape with
  | item hplain hacc hgoes hs =>
    exact h.plain hm ⟨hpaired hs, hruns.covered, hruns.carries, hruns.sp⟩ rfl hrest hplain hacc
      hgoes hfollows
  | enter hrg hrl hs =>
    obtain rfl := hfollows.of_quiet rfl
    exact .some (.top h.mem h.world rfl rfl
      ⟨(hpaired hs).withRegs _ _, hruns.covered, hruns.carries.enter hrl, fun _ => hruns.sp nofun⟩
      hrest)
  | load hrg hrl hs =>
    obtain rfl := hfollows.of_quiet rfl
    exact .some (.top h.mem h.world rfl rfl
      ⟨(hpaired hs).withRegs _ _, hruns.covered, hruns.carries.load hrl, fun _ => hruns.sp nofun⟩
      hrest)
  | @store rg rl _ _ hrg hrl hs =>
    obtain rfl := hfollows.of_quiet rfl
    have hregs : (fun r => if rg r then gf.regs r else g.regs r) = g.regs := by simp [hrg]
    refine .some (.top h.mem h.world rfl rfl
      ⟨hpaired hs, hruns.covered, ?_, fun ha => ?_⟩ hrest)
    · show Carries _ _ (fun r => if rg r then gf.regs r else g.regs r) _ _ _
      rw [hregs]
      exact hruns.carries.store hrl
    · have hrlsp := hrl Reg.SP (by decide)
      rw [ha rfl, Bool.and_false] at hrlsp
      show (if rl Reg.SP then lf.regs Reg.SP else l.regs Reg.SP) = sp
      rw [hrlsp]
      exact hruns.sp nofun
  | @leave rg rl _ _ hrg hrl hs =>
    obtain rfl := hfollows.of_quiet rfl
    have hregs : (fun r => if rg r then gf.regs r else g.regs r) = g.regs := by simp [hrg]
    refine .some (.top h.mem h.world rfl rfl
      ⟨hpaired hs, hruns.covered, ?_, fun _ => ?_⟩ hrest)
    · show Carries _ _ (fun r => if rg r then gf.regs r else g.regs r) _ _ _
      rw [hregs]
      exact hruns.carries.leave hrl
    · have hrlsp : rl Reg.SP = false := hrl Reg.SP (by decide)
      show (if rl Reg.SP then lf.regs Reg.SP else l.regs Reg.SP) = sp
      rw [hrlsp]
      exact hruns.sp nofun
  | call hs => exact hcall _ rfl hruns.carries (fun ha => hruns.sp fun _ => ha) hs
  | icall hs =>
    have hw (f : FnId) := hcall f rfl hruns.carries (fun ha => hruns.sp fun _ => ha) hs
    show Option.Rel _ (gf.target >>= _) (lf.target >>= _)
    rw [hruns.paired.target] at hw ⊢
    generalize gf.target = target at hw ⊢
    cases target with
    | none => exact .none
    | some f => exact hw f
  | ret =>
    exact .some (h.ret hruns rfl hrest hfollows)
  | br hne =>
    obtain rfl := hfollows.of_quiet rfl
    exact .some (.top h.mem h.world rfl rfl
      ⟨⟨hruns.paired.funcs, hruns.paired.f, rfl, hruns.paired.target, .next hne⟩,
        hruns.covered, hruns.carries, hruns.sp⟩ hrest)

include hm hf he hin in
/-- One step of both programs. -/
theorem Linked.step (h : P.Linked σ g l) (hg : g.stack = gf :: gs)
    (hfollows : P.Follows g gf.f gf.code σ σ') (hsp : P.PassesSp g σ σ') :
    Option.Rel (P.Linked σ') ((P.withRegs .GLOBALS).step g) (P.step l) := by
  obtain ⟨hmem, hworld, hstack⟩ := h
  unfold Program.step
  generalize hls : l.stack = lst at hstack
  generalize hσ : σ.stack = ts at hstack
  rw [hg] at hstack ⊢
  cases hstack with
  | @cons F phase _ lf _ ls t ts hruns hrest =>
    have h : P.Linked σ g l := ⟨hmem, hworld, hg ▸ hls ▸ hσ ▸ .cons hruns hrest⟩
    obtain ⟨f, addr, gcode, gregs, gtarget⟩ := gf
    obtain ⟨lff, laddr, lcode, lregs, ltarget⟩ := lf
    have hpaired := hruns.paired
    cases hpaired.spot with
    | code hshape =>
      cases gcode with
      | nil => cases hshape
      | cons cg gcode =>
        cases lcode with
        | nil => cases hshape
        | cons cl lcode =>
          refine h.exec hm hf he hin hruns hσ hrest hshape hfollows fun t' ts' ht hc => ?_
          simp only [PassesSp, hg, ht, Frame.calls] at hsp
          exact hsp hc
    | next hne =>
      obtain ⟨hF, hlf, haddr, htarget, -⟩ := hpaired
      obtain rfl : σ' = σ := by
        cases hfollows
        rfl
      dsimp only at hF hlf haddr htarget hne ⊢
      subst hlf haddr htarget
      have hcode := Spot.cleanRegs hm hf he hin hF laddr
      rw [Func.phaseAt, if_neg hne] at hcode
      show Option.Rel _ (P.funcs lff >>= _) (P.funcs lff >>= _)
      simp only [hF, Option.bind_eq_bind, Option.bind_some]
      show Option.Rel _ (F.cleanRegs (P.withRegs .GLOBALS).o P.ofAddr laddr >>= _)
        (F.cleanRegs P.o P.ofAddr laddr >>= _)
      generalize F.cleanRegs (P.withRegs .GLOBALS).o P.ofAddr laddr = cg at hcode
      generalize F.cleanRegs P.o P.ofAddr laddr = cl at hcode
      cases hcode with
      | none => exact .none
      | some hshape =>
        obtain ⟨clean, sp, stack⟩ := σ'
        obtain rfl : stack = t :: ts := hσ
        exact .some (.top hmem hworld rfl rfl
          ⟨⟨hF, rfl, rfl, rfl, .code hshape⟩, hruns.covered, hruns.carries, hruns.sp⟩ hrest)

end Step

/-! ### Whole runs -/

variable {P : Program V A B W} {σ : Shadow V A} {g l : State V A B W}

/-- The `ABI` run is where the `GLOBALS` run is, with the same outside world and memory, but for
cells that are not relied on; and where it is at an item that computes or decides, it has
in each register that the function accesses and relies on what the `GLOBALS` run has. -/
structure Agrees (P : Program V A B W) (σ : Shadow V A) (g l : State V A B W) : Prop where
  world : l.world = g.world
  mem : ∀ a, σ.clean a = true → l.mem a = g.mem a
  stack : List.Forall₂ (fun gf lf => lf.f = gf.f ∧ lf.addr = gf.addr ∧ lf.target = gf.target)
    g.stack l.stack
  regs : ∀ gf gs t ts c code, g.stack = gf :: gs → σ.stack = t :: ts → gf.code = c :: code →
    c.plain = true → ∃ lf ls code', l.stack = lf :: ls ∧ lf.code = c :: code' ∧
      ∀ r, P.isLocal gf.f r = true → t.rely r = true →
        P.getReg l lf r = (P.withRegs .GLOBALS).getReg g gf r

theorem Suspended.places {entry : Reg → V} {gs ls : List (Frame V A B W)} {ts : List (Trust V)}
    (h : P.Suspended entry gs ls ts) :
    List.Forall₂ (fun gf lf => lf.f = gf.f ∧ lf.addr = gf.addr ∧ lf.target = gf.target) gs ls := by
  induction h with
  | nil => exact .nil
  | cons hw _ ih => exact .cons ⟨hw.paired.f, hw.paired.addr, hw.paired.target⟩ ih

theorem Linked.agrees (hm : P.o.regs = .ABI) (h : P.Linked σ g l) : P.Agrees σ g l := by
  obtain ⟨hmem, hworld, hstack⟩ := h
  refine ⟨hworld, hmem, ?_, fun gf gs t ts c code hg hσ hcode hplain => ?_⟩
  · generalize g.stack = gst at hstack ⊢
    generalize l.stack = lst at hstack ⊢
    generalize σ.stack = ts at hstack
    cases hstack with
    | nil => exact .nil
    | cons hruns hrest =>
      exact .cons ⟨hruns.paired.f, hruns.paired.addr, hruns.paired.target⟩ hrest.places
  · generalize hls : l.stack = lst at hstack ⊢
    rw [hg, hσ] at hstack
    cases hstack with
    | @cons F phase _ lf _ ls _ _ hruns hrest =>
      have hspot := hruns.paired.spot
      rw [hcode] at hspot
      generalize hl : lf.code = lcode at hspot
      cases hspot with
      | code hshape =>
        cases hshape with
        | item =>
          refine ⟨lf, ls, _, rfl, hl, fun r hacc hr => ?_⟩
          rw [P.getReg_globals, hruns.getReg_eq hm hacc (.inr hr)]
        | _ => cases hplain

variable [DecidableEq A]

theorem run_succ (P : Program V A B W) (regs : Reg → V) (mem : A → B) (world : W) (f : FnId)
    (n : Nat) : P.run regs mem world f (n + 1) = P.run regs mem world f n >>= P.step := by
  unfold run
  cases P.enter ⟨regs, mem, world, [], []⟩ f with
  | none => rfl
  | some s =>
    show steps P.step (n + 1) s = steps P.step n s >>= P.step
    rw [steps_add]
    congr 1
    funext t
    show P.step t >>= some = P.step t
    cases P.step t <;> rfl

/-- Only a call can fail. -/
theorem isSome_exec (P : Program V A B W) (s : State V A B W) (fr : Frame V A B W)
    (rest : List (Frame V A B W)) {c : Code V A B W} (hc : c.calls = false) :
    (P.exec s fr rest c).isSome = true := by
  cases c with
  | call | icall => cases hc
  | condBr reads cond addr =>
    simp only [exec]
    split <;> rfl
  | _ => rfl

omit [DecidableEq A] in
/-- A function can be entered in both modes or in neither. -/
theorem isSome_enter (hm : P.o.regs = .ABI) (hf : P.o.syncFRegs = true)
    (he : P.o.syncOnExternalCalls = false) (hin : ∀ f F, P.funcs f = some F → F.Inside)
    (g l : State V A B W) (f : FnId) :
    (P.enter l f).isSome = ((P.withRegs .GLOBALS).enter g f).isSome := by
  unfold Program.enter
  show (P.funcs f >>= _).isSome = (P.funcs f >>= _).isSome
  cases hF : P.funcs f with
  | none => rfl
  | some F =>
    have hcode := Spot.cleanRegs hm hf he hin hF F.start
    show (F.cleanRegs P.o P.ofAddr F.start >>= _).isSome =
      (F.cleanRegs (P.withRegs .GLOBALS).o P.ofAddr F.start >>= _).isSome
    generalize F.cleanRegs (P.withRegs .GLOBALS).o P.ofAddr F.start = cg at hcode
    generalize F.cleanRegs P.o P.ofAddr F.start = cl at hcode
    cases hcode <;> rfl

/-- Both runs go on, or neither does. -/
theorem Linked.isSome_step (hm : P.o.regs = .ABI) (hf : P.o.syncFRegs = true)
    (he : P.o.syncOnExternalCalls = false) (hin : ∀ f F, P.funcs f = some F → F.Inside)
    (h : P.Linked σ g l) : (P.step l).isSome = ((P.withRegs .GLOBALS).step g).isSome := by
  obtain ⟨-, -, hstack⟩ := h
  unfold Program.step
  generalize g.stack = gst at hstack ⊢
  generalize l.stack = lst at hstack ⊢
  generalize σ.stack = ts at hstack
  cases hstack with
  | nil => rfl
  | @cons F phase gf lf gs ls t ts hruns hrest =>
    obtain ⟨f, addr, gcode, gregs, gtarget⟩ := gf
    obtain ⟨lff, laddr, lcode, lregs, ltarget⟩ := lf
    obtain ⟨hF, hlf, haddr, htarget, hspot⟩ := hruns.paired
    dsimp only at hF hlf haddr htarget hspot ⊢
    cases hspot with
    | code hshape =>
      cases hshape with
      | @item c _ _ hplain =>
        have hc : c.calls = false := by
          cases c with
          | call | icall => cases hplain
          | _ => rfl
        dsimp only
        rw [isSome_exec _ _ _ _ hc, isSome_exec _ _ _ _ hc]
      | call => exact isSome_enter hm hf he hin _ _ _
      | icall =>
        subst htarget
        cases ltarget with
        | none => rfl
        | some f => exact isSome_enter hm hf he hin _ _ _
      | _ => rfl
    | next hne =>
      subst hlf haddr
      have hcode := Spot.cleanRegs hm hf he hin hF laddr
      show (P.funcs lff >>= _).isSome = (P.funcs lff >>= _).isSome
      simp only [hF, Option.bind_eq_bind, Option.bind_some]
      show (F.cleanRegs P.o P.ofAddr laddr >>= _).isSome =
        (F.cleanRegs (P.withRegs .GLOBALS).o P.ofAddr laddr >>= _).isSome
      generalize F.cleanRegs (P.withRegs .GLOBALS).o P.ofAddr laddr = cg at hcode
      generalize F.cleanRegs P.o P.ofAddr laddr = cl at hcode
      cases hcode <;> rfl

/-- A run that abides by the convention and passes `sp`, in both modes. -/
theorem Abides.linked (hm : P.o.regs = .ABI) (hf : P.o.syncFRegs = true)
    (he : P.o.syncOnExternalCalls = false) (hin : ∀ f F, P.funcs f = some F → F.Inside)
    {regs : Reg → V} {mem : A → B} {world : W} {f : FnId} {n : Nat}
    (h : P.Abides P.PassesSp regs mem world f n g σ) :
    ∃ l, P.run regs mem world f n = some l ∧ P.Linked σ g l := by
  induction h with
  | @start g hg =>
    have hnil : P.Suspended regs [] [] [] := .nil
    have henter := Linked.enter hm hf he hin (fun _ => true) (regs Reg.SP) (t := ⟨syncCall, regs⟩)
      (g := ⟨regs, mem, world, [], []⟩) (l := ⟨regs, mem, world, [], []⟩) (fun _ _ => rfl) rfl
      (fun _ hr => hr) (fun _ _ r _ hr => ⟨hr, rfl⟩) rfl hnil f
    rw [hg] at henter
    generalize hl : P.enter ⟨regs, mem, world, [], []⟩ f = l at henter
    cases henter with
    | some hlinked => exact ⟨_, by rw [run, hl]; rfl, hlinked⟩
  | @step n g g' gf gs σ σ' _ hg hfollows hok hstep ih =>
    obtain ⟨l, hl, hlinked⟩ := ih
    have hrel := hlinked.step hm hf he hin hg hfollows hok
    rw [hstep] at hrel
    generalize hl' : P.step l = l' at hrel
    cases hrel with
    | some hlinked' =>
      refine ⟨_, ?_, hlinked'⟩
      rw [run_succ, hl]
      exact hl'

/-- **`ABI` mode agrees with `GLOBALS` mode** in a run that abides by the convention, where no
function that does not access `sp` calls one that relies on it with another `sp` than the last
that was passed. -/
theorem abi_agrees (P : Program V A B W) (hm : P.o.regs = .ABI) (hf : P.o.syncFRegs = true)
    (he : P.o.syncOnExternalCalls = false) (hin : ∀ f F, P.funcs f = some F → F.Inside)
    (regs : Reg → V) (mem : A → B) (world : W) (f : FnId) (n : Nat) (g : State V A B W)
    (σ : Shadow V A) (h : P.Abides P.PassesSp regs mem world f n g σ) :
    ∃ l, P.run regs mem world f n = some l ∧ P.Agrees σ g l ∧
      (P.step l).isSome = ((P.withRegs .GLOBALS).step g).isSome := by
  obtain ⟨l, hl, hlinked⟩ := h.linked hm hf he hin
  exact ⟨l, hl, hlinked.agrees hm, hlinked.isSome_step hm hf he hin⟩

/-- A register is the same in both runs, where `Agrees` says so. -/
def sameAt [DecidableEq V] (P : Program V A B W) (r : Reg) (σ : Shadow V A)
    (g l : State V A B W) : Bool :=
  match g.stack, σ.stack, l.stack with
  | gf :: _, t :: _, lf :: _ =>
    match gf.code with
    | c :: _ => !(c.plain && P.isLocal gf.f r && t.rely r) ||
        P.getReg l lf r = (P.withRegs .GLOBALS).getReg g gf r
    | [] => true
  | _, _, _ => true

omit [DecidableEq A] in
theorem Agrees.sameAt [DecidableEq V] (h : P.Agrees σ g l) (r : Reg) :
    P.sameAt r σ g l = true := by
  unfold Program.sameAt
  split
  next gf gs t ts lf ls hg hσ hl =>
    split
    next c code hcode =>
      by_cases hc : c.plain && P.isLocal gf.f r && t.rely r
      · obtain ⟨hc, hr⟩ := Bool.and_eq_true_iff.mp hc
        obtain ⟨hplain, hacc⟩ := Bool.and_eq_true_iff.mp hc
        obtain ⟨lf', ls', code', hl', -, heq⟩ := h.regs gf gs t ts c code hg hσ hcode hplain
        obtain ⟨rfl, rfl⟩ := List.cons.inj (hl.symm.trans hl')
        simp [heq r hacc hr]
      · simp [hc]
    next => rfl
  next => rfl

/-! ### Functions with a frame -/

/-- A function that saves `ra` on the stack, calls functions and returns. -/
def framed (start : Nat) (callees : List FnId) : Func Nat Nat Nat Unit where
  start := start
  body :=
    [.op ⟨[Reg.SP], [Reg.SP], fun _ => [], fun _ => [], fun vs _ => (vs.map (· - 1), [])⟩,
      .op ⟨[Reg.SP, Reg.RA], [], fun _ => [], fun vs => vs.take 1, fun vs _ => ([], vs.drop 1)⟩] ++
    callees.map (.call [] · Reg.RA) ++
    [.op ⟨[Reg.SP], [Reg.RA], id, fun _ => [], fun _ cells => (cells, [])⟩,
      .op ⟨[Reg.SP], [Reg.SP], fun _ => [], fun _ => [], fun vs _ => (vs.map (· + 1), [])⟩,
      .ret]

/-- A function that saves `ra` in a cell of its own, and does not access `sp`. -/
def frameless (start : Nat) (callees : List FnId) : Func Nat Nat Nat Unit where
  start := start
  body :=
    [.op ⟨[Reg.RA], [], fun _ => [], fun _ => [0], fun vs _ => ([], vs)⟩] ++
    callees.map (.call [] · Reg.RA) ++
    [.op ⟨[], [Reg.RA], fun _ => [0], fun _ => [], fun _ cells => (cells, [])⟩, .ret]

/-- A function that calls one with a frame, that makes a call of its own, and then one that
returns its `sp`. -/
def nested (caller : Func Nat Nat Nat Unit) : Program Nat Nat Nat Unit where
  o := {regs := .ABI}
  funcs
    | 0 => some caller
    | 1 => some (framed 100 [3])
    | 2 => some ⟨200, [
        .op ⟨[Reg.SP], [Reg.A0], fun _ => [], fun _ => [], fun vs _ => (vs, [])⟩,
        .ret]⟩
    | 3 => some ⟨300, [.ret]⟩
    | _ => none
  undef _ _ := 77
  ofAddr a := a
  zero := 0

/-- There are no branches. -/
theorem framed_inside (start : Nat) (callees : List FnId) : (framed start callees).Inside := by
  intro inst hinst t ht
  simp only [framed, List.mem_append, List.mem_map, List.mem_cons, List.not_mem_nil,
    or_false] at hinst
  rcases hinst with ((rfl | rfl) | ⟨f, -, rfl⟩) | rfl | rfl | rfl <;> simp at ht

theorem nested_inside {caller : Func Nat Nat Nat Unit} (h : caller.Inside) :
    ∀ f F, (nested caller).funcs f = some F → F.Inside := by
  intro f F hF
  match f, hF with
  | 0, hF => exact Option.some.inj hF ▸ h
  | 1, hF => exact Option.some.inj hF ▸ framed_inside 100 [3]
  | 2, hF =>
    obtain rfl := Option.some.inj hF
    intro inst hinst t ht
    simp only [List.mem_cons, List.not_mem_nil, or_false] at hinst
    rcases hinst with rfl | rfl <;> simp at ht
  | 3, hF =>
    obtain rfl := Option.some.inj hF
    intro inst hinst t ht
    simp only [List.mem_cons, List.not_mem_nil, or_false] at hinst
    subst hinst
    simp at ht
  | n + 4, hF => cases hF

/-- All functions have a frame, and the first one finds what it relies on behind both calls. -/
theorem nested_agrees : ∃ g σ,
    (nested (framed 0 [1, 2])).Abides (nested (framed 0 [1, 2])).PassesSp (fun _ => 50)
      (fun _ => 0) () 0 66 g σ ∧
    ∃ l, (nested (framed 0 [1, 2])).run (fun _ => 50) (fun _ => 0) () 0 66 = some l ∧
      (nested (framed 0 [1, 2])).Agrees σ g l ∧
      ((nested (framed 0 [1, 2])).step l).isSome =
        (((nested (framed 0 [1, 2])).withRegs .GLOBALS).step g).isSome := by
  have hsome : ((nested (framed 0 [1, 2])).checked (nested (framed 0 [1, 2])).PassesSp
      (fun _ => 50) (fun _ => 0) () 0 66).isSome = true := by decide +kernel
  obtain ⟨x, hx⟩ := Option.isSome_iff_exists.mp hsome
  have habides := abides_of_checked _ hx
  exact ⟨x.1, x.2, habides, abi_agrees _ rfl rfl rfl (nested_inside (framed_inside 0 [1, 2])) _ _ _
    _ _ _ _ habides⟩

/-- The function without a frame does not pass its `sp` to the second function it calls, that
finds the one that the first function passed. -/
theorem frameless_loses_sp : ∃ g σ l,
    (nested (frameless 0 [1, 2])).Abides (fun _ _ _ => True) (fun _ => 50) (fun _ => 0) () 0 54
      g σ ∧
    (nested (frameless 0 [1, 2])).run (fun _ => 50) (fun _ => 0) () 0 54 = some l ∧
    ¬ (nested (frameless 0 [1, 2])).Agrees σ g l := by
  have hsame : (((nested (frameless 0 [1, 2])).checked (fun _ _ _ => True) (fun _ => 50)
      (fun _ => 0) () 0 54).bind fun x =>
        ((nested (frameless 0 [1, 2])).run (fun _ => 50) (fun _ => 0) () 0 54).map fun l =>
          (nested (frameless 0 [1, 2])).sameAt Reg.SP x.2 x.1 l) = some false := by decide +kernel
  obtain ⟨x, hx, hsame⟩ := Option.bind_eq_some_iff.mp hsame
  obtain ⟨l, hl, hsame⟩ := Option.map_eq_some_iff.mp hsame
  refine ⟨x.1, x.2, l, abides_of_checked _ hx, hl, fun h => ?_⟩
  rw [h.sameAt Reg.SP] at hsame
  cases hsame

end Program
end RiscvSbt.Registers
