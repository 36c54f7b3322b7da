import RiscvSbt.Whole.Machine

/-! What the code of a guest instruction does.

Each kind of instruction has one shape of code, and `Does` says of each shape what it computes and
where the guest goes on. `emit_does` is the instruction's step, whatever it is. -/
namespace RiscvSbt.Whole
open Isa (Word Reg Memory Hart)
open Ir (Val)
open Block (Act)
open Library Library.Emit
open Translate
open Syscall (Kernel Service)

/-- From the registers and the memory of `s`, and whatever values there are, the code leaves those
of `s'`, and values with `P`. -/
def Runs (code : List Ir.Instr) (s s' : Isa.State) (P : Ir.State → Prop) : Prop :=
  ∀ env, ∃ t, Ir.run code ⟨env, s.x, s.mem⟩ = some t ∧ (⟨t.x, t.mem⟩ : Isa.State) = s' ∧ P t

/-- The guest goes on without a word to the kernel. -/
structure Goes (g g' : Thread) : Prop where
  ended : g'.ended = g.ended
  trace : g'.trace = g.trace

/-- The code of an instruction, that takes the guest from `g` to `g'`. -/
inductive Does (k : Kernel) (g g' : Thread) : Emitted → Prop where
  | next {code : List Ir.Instr} (run : Runs code g.hart.toState g'.hart.toState fun _ => True)
      (pc : g'.hart.pc = g.hart.pc + 4) (calls : g'.calls = g.calls) (goes : Goes g g') :
      Does k g g' ⟨code.map .ir, .next, none⟩
  | branch {code : List Ir.Instr} {target : Nat} {cond : Ir.Ref} {taken : Bool}
      (run : Runs code g.hart.toState g'.hart.toState fun t =>
        cond.eval t = .i1 (BitVec.ofBool taken))
      (pc : if taken then g'.hart.pc.toNat = target else g'.hart.pc = g.hart.pc + 4)
      (calls : g'.calls = g.calls) (goes : Goes g g') :
      Does k g g' ⟨code.map .ir, .branch target, some cond⟩
  | jump {code : List Ir.Instr} {target : Nat}
      (run : Runs code g.hart.toState g'.hart.toState fun _ => True)
      (pc : g'.hart.pc.toNat = target) (calls : g'.calls = g.calls) (goes : Goes g g') :
      Does k g g' ⟨code.map .ir, .jump target, none⟩
  | ret {code : List Ir.Instr} (run : Runs code g.hart.toState g'.hart.toState fun _ => True)
      (pc : ∀ r, g.calls.head? = some r → g'.hart.pc = r) (calls : g'.calls = g.calls.tail)
      (ended : g'.ended = g.calls.isEmpty) (trace : g'.trace = g.trace) :
      Does k g g' ⟨code.map .ir, .ret, none⟩
  | call {code : List Ir.Instr} {target : Nat}
      (run : Runs code g.hart.toState g'.hart.toState fun _ => True)
      (pc : g'.hart.pc.toNat = target) (calls : g'.calls = (g.hart.pc + 4) :: g.calls)
      (goes : Goes g g') :
      Does k g g' ⟨code.map .ir ++ [.call g.hart.pc.toNat], .call target, none⟩
  | tail {code : List Ir.Instr} {target : Nat} (inMain : Bool)
      (run : Runs code g.hart.toState g'.hart.toState fun _ => True)
      (pc : g'.hart.pc.toNat = target) (calls : g'.calls = g.calls) (goes : Goes g g') :
      Does k g g' ⟨code.map .ir ++ [.call g.hart.pc.toNat] ++ irs (freturn inMain),
        .tail target, none⟩
  /-- A service that there is. -/
  | sys (known : (Service.ofRv (g.hart.get 17)).isSome = true)
      (asks : g' = ({g with hart := g.hart.step .ecall} : Thread).ecall k) :
        Does k g g' ⟨ecall, .next, none⟩

variable {t : Text} {k : Kernel} {g : Thread} {addr : Nat} {e : Emitted}

/-- Code that is specified from its first name on. -/
theorem Runs.of_wp {α : Type} {m : Build α} {s s' : Isa.State} {P : Ir.State → Prop}
    (h : ∀ env, wp Ir.step m 0 ⟨env, s.x, s.mem⟩ fun _ _ t =>
      (⟨t.x, t.mem⟩ : Isa.State) = s' ∧ P t) : Runs m.code s s' P := h

theorem ofNat_pc (h : Hart) : BitVec.ofNat 32 h.pc.toNat = h.pc := by
  rw [BitVec.ofNat_toNat, BitVec.setWidth_eq]

theorem comp_does (i : Isa.Inst) : Does k g (g.calling k (g.hart.step (.comp i)) (.comp i))
    ⟨irs (Instruction.translate ⟨g.hart.pc.toNat, disasm i, none⟩), .next, none⟩ := by
  refine .next (.of_wp fun env => ?_) rfl rfl ⟨rfl, rfl⟩
  refine wp_mono (Instruction.translate_wp g.hart.pc.toNat i) fun _ _ t ht => ⟨ht.trans ?_, trivial⟩
  rw [ofNat_pc]
  rfl

theorem mul_does (f : Isa.MulOp) (rd rs1 rs2 : Reg)
    (h : f.isDivision = true → Defined f (g.hart.get rs1) (g.hart.get rs2)) :
    Does k g (g.calling k (g.hart.step (.mul f rd rs1 rs2)) (.mul f rd rs1 rs2))
      ⟨irs (Instruction.translate ⟨g.hart.pc.toNat, disasmM f rd rs1 rs2, none⟩), .next, none⟩ := by
  refine .next (.of_wp fun env => ?_) rfl rfl ⟨rfl, rfl⟩
  refine wp_mono (Instruction.translateM_wp fun a b n' s' Q ha hb hQ => ?_) fun _ _ t ht =>
    ⟨ht, trivial⟩
  cases hdiv : f.isDivision with
  | false => exact Instruction.wp_multiply hdiv ha hb hQ
  | true =>
    rw [Instruction.mCode_division hdiv]
    exact wp_divide (divOp f) ha hb (divOp_eval hdiv (h hdiv)) hQ

/-- A branch: the condition is in a value. -/
theorem branch_does (f : Isa.BranchOp) (rs1 rs2 : Reg) (offset : BitVec 12) :
    ∃ e, t.dispatch (disasmBranch g.hart.pc.toNat f rs1 rs2 offset) = some e ∧
      Does k g (g.calling k (g.hart.step (.branch f rs1 rs2 offset))
      (.branch f rs1 rs2 offset)) e := by
  generalize hi : disasmBranch g.hart.pc.toNat f rs1 rs2 offset = i
  have hwp : ∀ s, wp Ir.step i.translateBranch 0 s _ := fun s =>
    hi ▸ Branch.translateBranch_wp f rs1 rs2 offset
  obtain ⟨v, hact⟩ : ∃ v, (i.translateBranch 0).1 =
      .JUMP (Branch.target g.hart.pc.toNat offset).toNat (some v) 0 := by
    obtain ⟨-, -, v, hact, -⟩ := hwp ⟨fun _ => .undef, g.hart.x, g.hart.mem⟩
    exact ⟨v, hact⟩
  refine ⟨⟨irs i.translateBranch, .branch (Branch.target g.hart.pc.toNat offset).toNat, some v.ref⟩,
    ?_, ?_⟩
  · unfold Text.dispatch
    rw [hact]
  · refine .branch (show Runs _ _ _ fun t =>
      v.ref.eval t = .i1 (BitVec.ofBool (f.eval (g.hart.get rs1) (g.hart.get rs2)))
        from fun env => ?_)
      ?_ rfl ⟨rfl, rfl⟩
    · obtain ⟨t, ht, v', hact', hguest, hv⟩ := hwp ⟨env, g.hart.x, g.hart.mem⟩
      obtain rfl : v = v' := by
        have := hact.symm.trans hact'
        simp only [Action.JUMP.injEq, Option.some.injEq] at this
        exact this.2.1
      exact ⟨t, ht, hguest, hv⟩
    · have htarget : Branch.target g.hart.pc.toNat offset = g.hart.pc + Isa.distance offset := by
        unfold Branch.target
        rw [ofNat_pc]
      rw [htarget]
      show if _ then (if f.eval (g.hart.get rs1) (g.hart.get rs2) = true then
        g.hart.pc + Isa.distance offset else g.hart.pc + 4).toNat = _ else
          (if f.eval (g.hart.get rs1) (g.hart.get rs2) = true then
            g.hart.pc + Isa.distance offset else g.hart.pc + 4) = _
      cases f.eval (g.hart.get rs1) (g.hart.get rs2) <;> rfl

theorem freturn_wp (inMain : Bool) {n : Nat} {s : Ir.State} :
    wp Ir.step (freturn inMain) n s fun _ _ t => (⟨t.x, t.mem⟩ : Isa.State) = ⟨s.x, s.mem⟩ := by
  cases inMain with
  | false => exact wp_pure rfl
  | true => exact wp_bind (Builder.wp_load 10 fun _ _ _ he _ => wp_pure
      (Instruction.guest_extends he))

/-- The return address is stored, unless it is to go nowhere. -/
theorem link_wp (addr : Nat) (rd : Reg) {n : Nat} {s : Ir.State} :
    wp Ir.step (link addr rd) n s fun _ _ t =>
      (⟨t.x, t.mem⟩ : Isa.State) = (Instruction.guest s).set rd (BitVec.ofNat 32 addr + 4) := by
  have hvalue : BitVec.ofInt 32 ((addr + 4 : Nat) : Int) = BitVec.ofNat 32 addr + 4 := by
    rw [BitVec.ofInt_natCast, BitVec.ofNat_add]
    rfl
  unfold link
  split
  next hrd =>
    subst hrd
    exact wp_pure rfl
  next hrd =>
    refine wp_mono (Instruction.wp_result rd (Translate.Extends.refl n s) (denotes_i32 _ n s))
      fun _ _ t ht => ht.trans ?_
    rw [hvalue]

/-- A jump or a call whose target is known. `m` leaves everything alone, and the call links. -/
theorem call_does {m : Build Action} {g' : Thread} {rd : Reg} {target : Nat}
    (hm : ∀ s, wp Ir.step m 0 s fun _ _ t => (⟨t.x, t.mem⟩ : Isa.State) = ⟨s.x, s.mem⟩)
    (hart : g'.hart.toState = g.hart.toState.set rd (g.hart.pc + 4))
    (pc : g'.hart.pc.toNat = target) (goes : Goes g g')
    (calls : g'.calls = if rd = 0 then g.calls else (g.hart.pc + 4) :: g.calls) :
    ∃ e, (if rd = 0 then some (⟨irs (m >>= fun _ => link g.hart.pc.toNat rd) ++
        [.call g.hart.pc.toNat] ++ irs (freturn (t.inMain g.hart.pc.toNat)),
        .tail target, none⟩ : Emitted)
      else some ⟨irs (m >>= fun _ => link g.hart.pc.toNat rd) ++ [.call g.hart.pc.toNat],
        .call target, none⟩) = some e ∧ Does k g g' e := by
  have hrun : Runs (m >>= fun _ => link g.hart.pc.toNat rd).code g.hart.toState g'.hart.toState
      fun _ => True := by
    refine .of_wp fun env => wp_bind (wp_mono (hm _) fun _ n' s' hs => ?_)
    refine wp_mono (link_wp g.hart.pc.toNat rd) fun _ _ t ht => ⟨ht.trans ?_, trivial⟩
    rw [hart, ofNat_pc]
    exact congrArg (fun s : Isa.State => s.set rd (g.hart.pc + 4)) hs
  by_cases hrd : rd = 0
  · rw [if_pos hrd] at calls ⊢
    exact ⟨_, rfl, .tail _ hrun pc calls goes⟩
  · rw [if_neg hrd] at calls ⊢
    exact ⟨_, rfl, .call hrun pc calls goes⟩

theorem jal_does (rd : Reg) (offset : BitVec 20) :
    ∃ e, t.dispatch (disasmJAL g.hart.pc.toNat rd offset) = some e ∧
      Does k g (g.calling k (g.hart.step (.jal rd offset)) (.jal rd offset)) e := by
  have htarget : Branch.target g.hart.pc.toNat offset = g.hart.pc + Isa.distance offset := by
    unfold Branch.target
    rw [ofNat_pc]
  unfold Text.dispatch
  rw [Branch.translateBranch_jal, htarget]
  by_cases hrd : rd = 0
  · subst hrd
    exact ⟨_, rfl, .jump (fun env => ⟨_, rfl, rfl, trivial⟩) rfl rfl ⟨rfl, rfl⟩⟩
  · rw [if_neg hrd]
    exact call_does (fun s => wp_pure rfl) rfl rfl ⟨rfl, rfl⟩ rfl

theorem jalr_does (rd rs1 : Reg) (offset : BitVec 12) (h : g.Relies t (.jalr rd rs1 offset)) :
    ∃ e, t.dispatch {disasmJALR g.hart.pc.toNat rd rs1 offset with func := t.func g.hart.pc.toNat} =
    some e ∧
      Does k g (g.calling k (g.hart.step (.jalr rd rs1 offset)) (.jalr rd rs1 offset)) e := by
  generalize hi : ({disasmJALR g.hart.pc.toNat rd rs1 offset with
    func := t.func g.hart.pc.toNat} : Branch) = i
  have heq := Branch.translateJALR_eq g.hart.pc.toNat rd rs1 offset (t.func g.hart.pc.toNat)
  have haddr : i.addr = g.hart.pc.toNat := by
    rw [← hi]
    rfl
  rw [hi] at heq
  -- The register is read, whatever is done then.
  have hwp : ∀ (act : Action) s, wp Ir.step (i.getReg 1 >>= fun _ => pure act) 0 s fun _ _ t =>
      (⟨t.x, t.mem⟩ : Isa.State) = ⟨s.x, s.mem⟩ := fun act s =>
    wp_bind (Branch.wp_getReg i 1 fun _ _ _ he _ => wp_pure (Instruction.guest_extends he))
  unfold Thread.Relies at h
  unfold Text.dispatch Thread.calling
  by_cases hret : Branch.IsReturn rd rs1 offset
  · simp only [if_pos hret] at heq h ⊢
    have hact : (i.translateBranch 0).1 = .RETURN := by
      rw [heq]
      rfl
    rw [hact]
    refine ⟨_, rfl, .ret (.of_wp fun env => ?_) h rfl rfl rfl⟩
    rw [heq]
    refine wp_bind (wp_mono (hwp _ _) fun _ _ s hs => ?_)
    refine wp_mono (freturn_wp _) fun _ _ t ht => ⟨(ht.trans hs).trans ?_, trivial⟩
    obtain ⟨rfl, -⟩ := hret
    rfl
  · simp only [if_neg hret] at heq h ⊢
    obtain ⟨hrs1, hfunc⟩ := h
    simp only [if_neg hrs1, hfunc] at heq
    have hact : (i.translateBranch 0).1 =
        .CALL (g.hart.step (.jalr rd rs1 offset)).pc.toNat rd := by
      rw [heq]
      rfl
    rw [hact]
    dsimp only
    rw [haddr, heq]
    exact call_does (hwp _) rfl rfl ⟨rfl, rfl⟩ rfl

/-- **One instruction.** Where the guest does what the translation relies on, there is code for its
next instruction, and that does what the instruction does. -/
theorem emit_does {i : Isa.Instr} (hi : t.inst g.hart.pc.toNat = some i) (h : g.Relies t i) :
    ∃ e, t.emit g.hart.pc.toNat = some e ∧ Does k g (g.calling k (g.hart.step i) i) e := by
  have hemit : t.emit g.hart.pc.toNat = t.translate g.hart.pc.toNat i := by
    unfold Text.emit
    rw [hi]
    rfl
  rw [hemit]
  cases i with
  | comp i => exact ⟨_, rfl, comp_does i⟩
  | mul f rd rs1 rs2 => exact ⟨_, rfl, mul_does f rd rs1 rs2 h⟩
  | branch f rs1 rs2 offset => exact branch_does f rs1 rs2 offset
  | jal rd offset => exact jal_does rd offset
  | jalr rd rs1 offset => exact jalr_does rd rs1 offset h
  | ecall => exact ⟨_, rfl, .sys h rfl⟩

end RiscvSbt.Whole
