import RiscvSbt.Registers.Shape

/-! `LOCALS` mode agrees with `GLOBALS` mode.

Both programs run in lock step. Where a function runs, its copies and, for what it does not
access, the global registers are the registers of the `GLOBALS` run; where control passes
from one function to another, the global registers alone are. `Sim` follows code from one
of these situations to the other; a suspended function waits for the second. -/
namespace RiscvSbt.Registers
open Library Program

variable {V A B W : Type}

/-- What a run shows: what the guest instructions saw, memory and the outside world. -/
def State.observed (s : State V A B W) : List (Seen V) × (A → B) × W := (s.seen, s.mem, s.world)

/-! ### Code -/

/-- The code of one instruction in both modes, from where the function has its registers
(`false`) or from where they are in the global file (`true`). -/
inductive Sim (start : Nat) (acc : Reg → Bool) :
    Bool → List (Code V A B W) → List (Code V A B W) → Prop where
  | item {c : Code V A B W} {g l : List (Code V A B W)} : c.plain = true →
      (∀ r ∈ c.accesses, acc r = true) → (∀ addr, c.goes = some addr → addr ≠ start) →
      Sim start acc false g l → Sim start acc false (c :: g) (c :: l)
  | load {rg rl : Reg → Bool} {g l : List (Code V A B W)} : (∀ r, rg r = false) →
      (∀ r, r ≠ Reg.ZERO → rl r = acc r) → Sim start acc false g l →
      Sim start acc true (.loadRegs rg :: g) (.loadRegs rl :: l)
  | store {rg rl : Reg → Bool} {g l : List (Code V A B W)} : (∀ r, rg r = false) →
      (∀ r, r ≠ Reg.ZERO → rl r = acc r) → Sim start acc true g l →
      Sim start acc false (.storeRegs rg :: g) (.storeRegs rl :: l)
  | call {f : FnId} {g l : List (Code V A B W)} : Sim start acc true g l →
      Sim start acc true (.call f :: g) (.call f :: l)
  | icall {args : List Reg} {g l : List (Code V A B W)} : Sim start acc true g l →
      Sim start acc true (.icall args :: g) (.icall args :: l)
  | br {addr : Nat} {g l : List (Code V A B W)} : addr ≠ start →
      Sim start acc false (.br addr :: g) (.br addr :: l)
  | ret {g l : List (Code V A B W)} : Sim start acc true (.ret :: g) (.ret :: l)

/-- Whether the registers are in the global file. -/
def Phase.global : Phase → Bool
  | running => false
  | _ => true

section Translate
variable {o : Options} {F : Func V A B W} {acc call ret : Reg → Bool} {start : Nat}

/-- Where all registers are passed, only the place of the registers matters. -/
theorem Shape.sim (hcall : ∀ r, call r = true) (hret : ∀ r, ret r = true) {phase : Phase}
    {g l : List (Code V A B W)} (h : Shape start acc call ret phase g l) :
    Sim start acc phase.global g l := by
  induction h with
  | item hplain hacc hgoes _ ih => exact .item hplain hacc hgoes ih
  | enter hg hl _ ih => exact .load hg (fun r hr => by rw [hl r hr, hcall, Bool.true_and]) ih
  | store hg hl _ ih => exact .store hg (fun r hr => by rw [hl r hr, hcall, Bool.true_and]) ih
  | call _ ih => exact .call ih
  | icall _ ih => exact .icall ih
  | load hg hl _ ih => exact .load hg (fun r hr => by rw [hl r hr, hret, Bool.true_and]) ih
  | leave hg hl _ ih => exact .store hg (fun r hr => by rw [hl r hr, hret, Bool.true_and]) ih
  | ret => exact .ret
  | br haddr => exact .br haddr

theorem called_locals (hm : o.regs = .LOCALS) (r : Reg) : o.called r = true := by
  simp [Options.called, hm, syncReg]

theorem answered_locals (hm : o.regs = .LOCALS) (r : Reg) : o.answered r = true := by
  simp [Options.answered, hm, syncReg]

/-- Code that is translated in both modes, and cleaned. -/
theorem Func.sim_cleanRegs (F : Func V A B W) (ofAddr : Nat → V) (hm : o.regs = .LOCALS)
    (hf : o.syncFRegs = true) (he : o.syncOnExternalCalls = false) (hin : F.Inside) (addr : Nat) :
    Option.Rel (Sim F.start (F.accessed o ofAddr) (decide (addr = F.start)))
      (F.cleanRegs {o with regs := .GLOBALS} ofAddr addr) (F.cleanRegs o ofAddr addr) := by
  have hlocal : o.localRegs = true := by simp [Options.localRegs, hm]
  have hphase : (F.phaseAt addr).global = decide (addr = F.start) := by
    by_cases hs : addr = F.start <;> simp [phaseAt, hs, Phase.global]
  have hcode := F.shape_cleanRegs ofAddr hlocal hf he hin addr
  rw [← hphase]
  generalize F.cleanRegs {o with regs := .GLOBALS} ofAddr addr = g at hcode ⊢
  generalize F.cleanRegs o ofAddr addr = l at hcode ⊢
  cases hcode with
  | none => exact .none
  | some h => exact .some (h.sim (called_locals hm) (answered_locals hm))

end Translate

/-! ### States -/

/-- Where an activation is in its code: in the middle of an instruction, or on its way to the
next one. -/
inductive Place (F : Func V A B W) (acc : Reg → Bool) (addr : Nat) :
    Bool → List (Code V A B W) → List (Code V A B W) → Prop where
  | code {phase : Bool} {g l : List (Code V A B W)} : Sim F.start acc phase g l →
      Place F acc addr phase g l
  | next : addr ≠ F.start → Place F acc addr false [] []

namespace Program
variable (P : Program V A B W)

/-- The activation of a function in both modes. -/
structure Activation (F : Func V A B W) (phase : Bool) (gf lf : Frame V A B W) : Prop where
  funcs : P.funcs gf.f = some F
  f : lf.f = gf.f
  addr : lf.addr = gf.addr
  target : lf.target = gf.target
  place : Place F (F.accessed P.o P.ofAddr) gf.addr phase gf.code lf.code

/-- Where the registers of the `GLOBALS` run are in the `LOCALS` run: in the copies of the
running function and, for what it does not access, in the global file, or all of them in the
global file. -/
def Agree (F : Func V A B W) (phase : Bool) (g l copies : Reg → V) : Prop :=
  ∀ r ≠ Reg.ZERO,
    (if phase = false ∧ F.accessed P.o P.ofAddr r = true then copies r else l r) = g r

/-- The stacks: every suspended activation waits for all registers in the global file. -/
inductive Stacks (g l : Reg → V) : List (Frame V A B W) → List (Frame V A B W) → Prop where
  | nil : Stacks g l [] []
  | cons {F : Func V A B W} {phase : Bool} {gf lf : Frame V A B W}
      {gs ls : List (Frame V A B W)} : P.Activation F phase gf lf →
      P.Agree F phase g l lf.regs →
      List.Forall₂ (fun gf lf => ∃ F, P.Activation F true gf lf) gs ls →
      Stacks g l (gf :: gs) (lf :: ls)

structure Rel (g l : State V A B W) : Prop where
  mem : l.mem = g.mem
  world : l.world = g.world
  seen : l.seen = g.seen
  stack : P.Stacks g.regs l.regs g.stack l.stack

end Program

namespace Program
variable {P : Program V A B W} {F : Func V A B W} {g l : State V A B W}
  {gf lf : Frame V A B W} {gs ls : List (Frame V A B W)}

theorem isLocal_eq (hm : P.o.regs = .LOCALS) {f : FnId} (h : P.funcs f = some F) (r : Reg) :
    P.isLocal f r = F.accessed P.o P.ofAddr r := by
  simp [isLocal, Options.localRegs, hm, h]

theorem isLocal_globals (f : FnId) (r : Reg) : (P.withRegs .GLOBALS).isLocal f r = false := by
  simp [isLocal, withRegs, Options.localRegs]

/-- An instruction finds the same registers in both modes. -/
theorem getReg_eq (hm : P.o.regs = .LOCALS) (hf : lf.f = gf.f) (h : P.funcs gf.f = some F)
    (hag : P.Agree F false g.regs l.regs lf.regs) :
    P.getReg l lf = (P.withRegs .GLOBALS).getReg g gf := by
  funext r
  by_cases hr : r = Reg.ZERO
  · rw [getReg, getReg, if_pos hr, if_pos hr]
    rfl
  · rw [getReg, getReg, if_neg hr, if_neg hr, hf, isLocal_eq hm h r, isLocal_globals]
    simpa using hag r hr

/-- What an instruction writes, that the function accesses. -/
theorem Agree.writeRegs {g l copies : Reg → V} (h : P.Agree F false g l copies) {rs : List Reg}
    (hrs : ∀ r ∈ rs, F.accessed P.o P.ofAddr r = true) (vs : List V) :
    P.Agree F false (writeRegs g rs vs) l (writeRegs copies rs vs) := by
  intro r hr
  have hr' := h r hr
  by_cases hacc : F.accessed P.o P.ofAddr r = true
  · rw [if_pos ⟨rfl, hacc⟩] at hr' ⊢
    exact writeRegs_congr hr' rs vs
  · rw [if_neg (fun h => hacc h.2)] at hr' ⊢
    rw [hr', writeRegs_of_notMem (fun h => hacc (hrs r h))]

theorem Activation.withCopies {phase : Bool} (h : P.Activation F phase gf lf)
    (copies : Reg → V) : P.Activation F phase gf {lf with regs := copies} :=
  ⟨h.funcs, h.f, h.addr, h.target, h.place⟩

section Step
variable [DecidableEq A] (hm : P.o.regs = .LOCALS) (hf : P.o.syncFRegs = true)
  (he : P.o.syncOnExternalCalls = false) (hin : ∀ f F, P.funcs f = some F → F.Inside)

omit [DecidableEq A] in
include hm hf he hin in
/-- Entering a function, with all registers in the global file. -/
theorem Rel.enter {g l : State V A B W} (hmem : l.mem = g.mem) (hworld : l.world = g.world)
    (hseen : l.seen = g.seen) (hregs : ∀ r ≠ Reg.ZERO, l.regs r = g.regs r)
    (hstack : List.Forall₂ (fun gf lf => ∃ F, P.Activation F true gf lf) g.stack l.stack)
    (f : FnId) : Option.Rel P.Rel ((P.withRegs .GLOBALS).enter g f) (P.enter l f) := by
  unfold Program.enter
  show Option.Rel P.Rel (P.funcs f >>= _) (P.funcs f >>= _)
  cases hF : P.funcs f with
  | none => exact .none
  | some F =>
    have hcode := F.sim_cleanRegs P.ofAddr hm hf he (hin f F hF) F.start
    rw [decide_eq_true rfl] at hcode
    simp only [Option.bind_eq_bind, Option.bind_some]
    show Option.Rel P.Rel (F.cleanRegs {P.o with regs := .GLOBALS} P.ofAddr F.start >>= _)
      (F.cleanRegs P.o P.ofAddr F.start >>= _)
    generalize F.cleanRegs {P.o with regs := .GLOBALS} P.ofAddr F.start = cg at hcode
    generalize F.cleanRegs P.o P.ofAddr F.start = cl at hcode
    cases hcode with
    | none => exact .none
    | some hsim =>
      refine .some ⟨hmem, hworld, hseen, .cons ⟨hF, rfl, rfl, rfl, .code hsim⟩
        (fun r hr => ?_) hstack⟩
      rw [if_neg (fun h => Bool.noConfusion h.1)]
      exact hregs r hr

omit [DecidableEq A] in
/-- The activation that ran an item, with the rest of its code. -/
theorem Rel.top {g l : State V A B W} {gf lf : Frame V A B W} {gs ls : List (Frame V A B W)}
    {phase : Bool} (hmem : l.mem = g.mem) (hworld : l.world = g.world) (hseen : l.seen = g.seen)
    (hg : g.stack = gf :: gs) (hl : l.stack = lf :: ls) (hact : P.Activation F phase gf lf)
    (hag : P.Agree F phase g.regs l.regs lf.regs)
    (hrest : List.Forall₂ (fun gf lf => ∃ F, P.Activation F true gf lf) gs ls) : P.Rel g l :=
  ⟨hmem, hworld, hseen, hg ▸ hl ▸ .cons hact hag hrest⟩

include hm in
/-- An item that stays in the instruction, or goes to another one. -/
theorem Rel.exec_plain (h : P.Rel g l) {c : Code V A B W} (hc : c.plain = true)
    (hacc : ∀ r ∈ c.accesses, F.accessed P.o P.ofAddr r = true)
    (hgoes : ∀ addr, c.goes = some addr → addr ≠ F.start) (hact : P.Activation F false gf lf)
    (hag : P.Agree F false g.regs l.regs lf.regs)
    (hrest : List.Forall₂ (fun gf lf => ∃ F, P.Activation F true gf lf) gs ls) :
    Option.Rel P.Rel ((P.withRegs .GLOBALS).exec g gf gs c) (P.exec l lf ls c) := by
  have hget := getReg_eq hm hact.f hact.funcs hag
  have hlocal : P.o.localRegs = true := by simp [Options.localRegs, hm]
  have hglobal : (P.withRegs .GLOBALS).o.localRegs = false := by
    simp [withRegs, Options.localRegs]
  cases c with
  | mark =>
    refine .some (.top h.mem h.world ?_ rfl rfl hact hag hrest)
    simp only [h.seen, hact.f, hact.addr, hget]
  | op o =>
    simp only [exec, setRegs, hlocal, hglobal, if_true, Bool.false_eq_true, if_false, hget, h.mem]
    exact .some (.top rfl h.world h.seen rfl rfl (hact.withCopies _)
      (hag.writeRegs (fun r hr => hacc r (List.mem_append_right _ hr)) _) hrest)
  | ext e =>
    simp only [exec, setRegs, hlocal, hglobal, if_true, Bool.false_eq_true, if_false, hget, h.mem,
      h.world]
    exact .some (.top rfl rfl h.seen rfl rfl (hact.withCopies _)
      (hag.writeRegs (fun r hr => hacc r (List.mem_append_right _ hr)) _) hrest)
  | target reads dest =>
    simp only [exec, hget]
    exact .some (.top h.mem h.world h.seen rfl rfl ⟨hact.funcs, hact.f, hact.addr, rfl, hact.place⟩
      hag hrest)
  | condBr reads cond addr =>
    simp only [exec, hget]
    by_cases hcond : cond (reads.map ((P.withRegs .GLOBALS).getReg g gf)) = true
    · rw [if_pos hcond, if_pos hcond]
      exact .some (.top h.mem h.world h.seen rfl rfl
        ⟨hact.funcs, hact.f, rfl, hact.target, .next (hgoes addr rfl)⟩ hag hrest)
    · rw [if_neg hcond, if_neg hcond]
      exact .some (.top h.mem h.world h.seen rfl rfl hact hag hrest)
  | _ => cases hc

include hm hf he hin in
/-- One item of code of the running function. -/
theorem Rel.exec (h : P.Rel g l) (gf lf : Frame V A B W) {cg cl : Code V A B W}
    {gcode lcode : List (Code V A B W)}
    {phase : Bool} (hF : P.funcs gf.f = some F) (hlf : lf.f = gf.f) (haddr : lf.addr = gf.addr)
    (htarget : lf.target = gf.target)
    (hsim : Sim F.start (F.accessed P.o P.ofAddr) phase (cg :: gcode) (cl :: lcode))
    (hag : P.Agree F phase g.regs l.regs lf.regs)
    (hrest : List.Forall₂ (fun gf lf => ∃ F, P.Activation F true gf lf) gs ls) :
    Option.Rel P.Rel
      ((P.withRegs .GLOBALS).exec g {gf with code := gcode} gs cg)
      (P.exec l {lf with code := lcode} ls cl) := by
  have hact : ∀ {phase}, Sim F.start (F.accessed P.o P.ofAddr) phase gcode lcode →
      P.Activation F phase {gf with code := gcode} {lf with code := lcode} := fun hs =>
    ⟨hF, hlf, haddr, htarget, .code hs⟩
  have hcall (f : FnId) (hw : P.Activation F true {gf with code := gcode} {lf with code := lcode})
      (hag : P.Agree F true g.regs l.regs lf.regs) : Option.Rel P.Rel
      ((P.withRegs .GLOBALS).enter {g with stack := {gf with code := gcode} :: gs} f)
      (P.enter {l with stack := {lf with code := lcode} :: ls} f) := by
    refine Rel.enter hm hf he hin (g := {g with stack := {gf with code := gcode} :: gs})
      (l := {l with stack := {lf with code := lcode} :: ls}) h.mem h.world h.seen (fun r hr => ?_)
      (.cons ⟨F, hw⟩ hrest) f
    simpa using hag r hr
  cases hsim with
  | item hc hacc hgoes hs => exact h.exec_plain hm hc hacc hgoes (hact hs) hag hrest
  | load hrg hrl hs =>
    refine .some (.top h.mem h.world h.seen rfl rfl ⟨hF, hlf, haddr, htarget, .code hs⟩ ?_ hrest)
    intro r hr
    have hr' := hag r hr
    rw [if_neg (fun h => Bool.noConfusion h.1)] at hr'
    by_cases hacc : F.accessed P.o P.ofAddr r = true
    · simp [hacc, hrl r hr, hr']
    · simp [hacc, hr']
  | store hrg hrl hs =>
    refine .some (.top h.mem h.world h.seen rfl rfl (hact hs) ?_ hrest)
    intro r hr
    have hr' := hag r hr
    by_cases hacc : F.accessed P.o P.ofAddr r = true
    · simpa [hacc, hrl r hr, hrg r] using hr'
    · simpa [hacc, hrl r hr, hrg r] using hr'
  | call hs =>
    exact hcall _ (hact hs) hag
  | icall hs =>
    have hw (f : FnId) := hcall f (hact hs) hag
    show Option.Rel P.Rel (gf.target >>= _) (lf.target >>= _)
    rw [htarget] at hw ⊢
    generalize gf.target = target at hw ⊢
    cases target with
    | none => exact .none
    | some f => exact hw f
  | br hne =>
    exact .some (.top h.mem h.world h.seen rfl rfl ⟨hF, hlf, rfl, htarget, .next hne⟩ hag hrest)
  | ret =>
    refine .some ⟨h.mem, h.world, h.seen, ?_⟩
    show P.Stacks g.regs l.regs gs ls
    cases hrest with
    | nil => exact .nil
    | cons hw hrest =>
      obtain ⟨F', hw⟩ := hw
      refine .cons hw (fun r hr => ?_) hrest
      simpa using hag r hr

include hm hf he hin in
/-- One step of both programs. -/
theorem Rel.step (h : P.Rel g l) :
    Option.Rel P.Rel ((P.withRegs .GLOBALS).step g) (P.step l) := by
  obtain ⟨hmem, hworld, hseen, hstack⟩ := h
  unfold Program.step
  generalize hgs : g.stack = gst at hstack
  generalize hls : l.stack = lst at hstack
  cases hstack with
  | nil => exact .none
  | @cons F phase gf lf gs ls hact hag hrest =>
    have h : P.Rel g l := .top hmem hworld hseen hgs hls hact hag hrest
    obtain ⟨hF, hlf, haddr, htarget, hplace⟩ := hact
    obtain ⟨gff, gaddr, gcode, gregs, gtarget⟩ := gf
    obtain ⟨lff, laddr, lcode, lregs, ltarget⟩ := lf
    dsimp only at hF hlf haddr htarget hplace hag ⊢
    cases hplace with
    | code hsim =>
      cases gcode with
      | nil => cases hsim
      | cons cg gcode =>
        cases lcode with
        | nil => cases hsim
        | cons cl lcode =>
          exact h.exec hm hf he hin ⟨gff, gaddr, cg :: gcode, gregs, gtarget⟩
            ⟨lff, laddr, cl :: lcode, lregs, ltarget⟩ hF hlf haddr htarget hsim hag hrest
    | next hne =>
      subst hlf haddr
      have hcode := F.sim_cleanRegs P.ofAddr hm hf he (hin lff F hF) laddr
      rw [decide_eq_false hne] at hcode
      show Option.Rel P.Rel (P.funcs lff >>= _) (P.funcs lff >>= _)
      simp only [hF, Option.bind_eq_bind, Option.bind_some]
      show Option.Rel P.Rel (F.cleanRegs {P.o with regs := .GLOBALS} P.ofAddr laddr >>= _)
        (F.cleanRegs P.o P.ofAddr laddr >>= _)
      generalize F.cleanRegs {P.o with regs := .GLOBALS} P.ofAddr laddr = cg at hcode
      generalize F.cleanRegs P.o P.ofAddr laddr = cl at hcode
      cases hcode with
      | none => exact .none
      | some hsim =>
        exact .some (.top hmem hworld hseen rfl rfl ⟨hF, rfl, rfl, htarget, .code hsim⟩ hag hrest)

end Step

/-! ### Whole runs -/

section Run
variable [DecidableEq A]

/-- **`LOCALS` mode agrees with `GLOBALS` mode**: in every run every guest instruction sees
the same value in every register, and finds the same memory and outside world. -/
theorem locals_agree (P : Program V A B W) (hm : P.o.regs = .LOCALS)
    (hf : P.o.syncFRegs = true) (he : P.o.syncOnExternalCalls = false)
    (hin : ∀ f F, P.funcs f = some F → F.Inside) (regs : Reg → V) (mem : A → B) (world : W)
    (f : FnId) (n : Nat) :
    ((P.withRegs .GLOBALS).run regs mem world f n).map State.observed =
      (P.run regs mem world f n).map State.observed := by
  have hrel : Option.Rel P.Rel ((P.withRegs .GLOBALS).run regs mem world f n)
      (P.run regs mem world f n) := by
    have henter := Rel.enter hm hf he hin (g := ⟨regs, mem, world, [], []⟩)
      (l := ⟨regs, mem, world, [], []⟩) rfl rfl rfl (fun _ _ => rfl) .nil f
    unfold Program.run
    generalize (P.withRegs .GLOBALS).enter ⟨regs, mem, world, [], []⟩ f = g at henter
    generalize P.enter ⟨regs, mem, world, [], []⟩ f = l at henter
    cases henter with
    | none => exact .none
    | some h => exact steps_rel (fun _ _ h => h.step hm hf he hin) n h
  generalize (P.withRegs .GLOBALS).run regs mem world f n = g at hrel
  generalize P.run regs mem world f n = l at hrel
  cases hrel with
  | none => rfl
  | some h => simp only [Option.map_some, State.observed, h.mem, h.world, h.seen]

/-- A function that counts `a0` down to zero and calls another one, that adds it to `a1`. -/
def sumProgram : Program Nat Nat Nat Unit where
  o := {regs := .LOCALS}
  funcs
    | 0 => some ⟨0, [
        .op ⟨[Reg.A1], [Reg.A1], fun _ => [], fun _ => [], fun vs _ => (vs, [])⟩,
        .branch [Reg.A0] (fun vs => vs = [0]) 20,
        .call [] 1 Reg.RA,
        .op ⟨[Reg.A0], [Reg.A0], fun _ => [], fun _ => [], fun vs _ => (vs.map (· - 1), [])⟩,
        .jump 4,
        .ret]⟩
    | 1 => some ⟨40, [
        .op ⟨[Reg.A0, Reg.A1], [Reg.A1], fun _ => [], fun _ => [], fun vs _ => ([vs.sum], [])⟩,
        .ret]⟩
    | _ => none
  undef _ _ := 77
  ofAddr a := a
  zero := 0

theorem sumProgram_inside : ∀ f F, sumProgram.funcs f = some F → F.Inside := by
  intro f F hF
  match f, hF with
  | 0, hF =>
    obtain rfl := Option.some.inj hF
    intro inst hinst t ht
    simp only [List.mem_cons, List.not_mem_nil, or_false] at hinst
    rcases hinst with rfl | rfl | rfl | rfl | rfl | rfl <;> simp [Func.stop] at ht ⊢ <;> omega
  | 1, hF =>
    obtain rfl := Option.some.inj hF
    intro inst hinst t ht
    simp only [List.mem_cons, List.not_mem_nil, or_false] at hinst
    rcases hinst with rfl | rfl <;> simp at ht
  | n + 2, hF => cases hF

theorem sumProgram_agree :
    (sumProgram.run (fun _ => 3) (fun _ => 0) () 0 60).isSome = true ∧
      ((sumProgram.withRegs .GLOBALS).run (fun _ => 3) (fun _ => 0) () 0 60).map State.observed =
        (sumProgram.run (fun _ => 3) (fun _ => 0) () 0 60).map State.observed :=
  ⟨by decide, locals_agree sumProgram rfl rfl rfl sumProgram_inside _ _ _ _ 60⟩

end Run
end Program
end RiscvSbt.Registers
