import RiscvSbt.Translate.Branch

/-! Branches, jumps, calls and returns do what the ISA says.

The code of a branch leaves registers and memory alone and has the condition in a value; that of
a call links. With what the handler is given to go on at, each of them goes where `Hart.step`
does. -/
namespace RiscvSbt.Translate
open Isa (Word Reg BranchOp distance)
open Ir (Ty Val Value)
open Library Library.Emit
open Builder
open Instruction (guest guest_get guest_extends)

variable {n addr : Nat} {s : Ir.State} {Q : Value → Nat → Ir.State → Prop}

/-- An offset of zero is one in any width. -/
theorem signExtend_eq_zero {w : Nat} (hw : w ≤ 32) {x : BitVec w} :
    (x.signExtend 32 = 0) ↔ x = 0 := by
  constructor
  · intro h
    apply BitVec.eq_of_toInt_eq
    rw [← BitVec.toInt_signExtend_of_le hw, h]
    simp
  · rintro rfl
    show BitVec.ofInt 32 (0#w).toInt = 0
    rw [BitVec.toInt_zero]
    rfl

namespace Branch

theorem wp_getReg (i : Branch) (op : Nat)
    (h : ∀ v n' s', Extends n s n' s' →
      Denotes v .i32 (.i32 ((guest s).get (i.getRegNum op))) n' s' → Q v n' s') :
    wp Ir.step (i.getReg op) n s Q := by
  have hget : (guest s).get (i.getRegNum op) =
      if i.getRegNum op = 0 then 0 else s.x (i.getRegNum op) :=
    rfl
  rw [hget] at h
  unfold getReg
  split
  next hr =>
    rw [if_pos hr] at h
    exact wp_pure (h _ _ _ (Extends.refl n s) (denotes_i32 0 n s))
  next hr =>
    rw [if_neg hr] at h
    exact wp_load _ h

/-- A comparison that answers a condition. -/
theorem wp_some {m : Build Value} {Q : Option Value → Nat → Ir.State → Prop}
    (h : wp Ir.step m n s fun v n' s' => Q (some v) n' s') : wp Ir.step (some <$> m) n s Q :=
  wp_bind (wp_mono h fun _ _ _ hv => wp_pure hv)

/-- **The condition is the ISA's.** -/
theorem wp_condition {a b : Value} {x y : Word} {Q : Option Value → Nat → Ir.State → Prop}
    (f : BranchOp) (rs1 rs2 : Reg) (offset : BitVec 12) (ha : Denotes a .i32 (.i32 x) n s)
    (hb : Denotes b .i32 (.i32 y) n s)
    (h : ∀ v n' s', Extends n s n' s' → Denotes v .i1 (.i1 (BitVec.ofBool (f.eval x y))) n' s' →
      Q (some v) n' s') :
    wp Ir.step ((disasmBranch addr f rs1 rs2 offset).condition a b) n s Q := by
  cases f with
  | beq => exact wp_some (wp_icmp .eq ha hb h)
  | bne => exact wp_some (wp_icmp .ne ha hb h)
  | blt => exact wp_some (wp_icmp .slt ha hb h)
  | bge => exact wp_some (wp_icmp .sge ha hb h)
  | bltu => exact wp_some (wp_icmp .ult ha hb h)
  | bgeu => exact wp_some (wp_icmp .uge ha hb h)

/-- Where a direct branch or jump goes, as the ISA has it. -/
def target {w : Nat} (addr : Nat) (offset : BitVec w) : Word :=
    BitVec.ofNat 32 addr + distance offset

theorem direct_eq {w : Nat} (i : Branch) (offset : BitVec w) :
    i.direct (distance offset) = (target i.addr offset).toNat :=
  congrArg BitVec.toNat (BitVec.add_comm _ _)

/-- A conditional branch. -/
theorem translateBranch_wp (f : BranchOp) (rs1 rs2 : Reg) (offset : BitVec 12) :
    wp Ir.step (disasmBranch addr f rs1 rs2 offset).translateBranch n s fun act _ t =>
      ∃ v, act = .JUMP (target addr offset).toNat (some v) 0 ∧ guest t = guest s ∧
        v.ref.eval t = .i1 (BitVec.ofBool (f.eval ((guest s).get rs1) ((guest s).get rs2))) := by
  obtain ⟨i, hi⟩ : ∃ i, i = disasmBranch addr f rs1 rs2 offset := ⟨_, rfl⟩
  have heq : i.translateBranch = i.getReg 0 >>= fun o0 => i.getReg 1 >>= fun o1 =>
      i.condition o0 o1 >>= fun cond => pure (.JUMP (i.direct (i.getImm 2)) cond 0) := by
    rw [hi]
    cases f <;> rfl
  have htarget : i.direct (i.getImm 2) = (target addr offset).toNat := by
    rw [hi]
    exact direct_eq _ offset
  have h0 : i.getRegNum 0 = rs1 := by rw [hi]; rfl
  have h1 : i.getRegNum 1 = rs2 := by rw [hi]; rfl
  rw [← hi, heq, htarget]
  refine wp_bind (wp_getReg i 0 fun o0 n₁ s₁ he₁ ho0 => ?_)
  refine wp_bind (wp_getReg i 1 fun o1 n₂ s₂ he₂ ho1 => ?_)
  rw [h0] at ho0
  rw [h1, guest_extends he₁] at ho1
  rw [hi]
  refine wp_bind (wp_condition f rs1 rs2 offset (ho0.extend he₂) ho1 fun v n₃ s₃ he₃ hv => ?_)
  exact wp_pure ⟨v, rfl, guest_extends (he₁.trans (he₂.trans he₃)), hv.eval⟩

theorem translateBranch_jal (rd : Reg) (offset : BitVec 20) :
    (disasmJAL addr rd offset).translateBranch =
      pure (if rd = 0 then .JUMP (target addr offset).toNat none rd
        else .CALL (target addr offset).toNat rd) := by
  have htarget := direct_eq (disasmJAL addr rd offset) offset
  show pure (if rd = 0 then Action.JUMP ((disasmJAL addr rd offset).direct
    (distance offset)) none rd
    else Action.CALL ((disasmJAL addr rd offset).direct (distance offset)) rd) = _
  rw [htarget]
  rfl

/-! ### Indirect jumps -/

/-- `jalr` as a return, which it is by its fields alone. -/
def IsReturn (rd rs1 : Reg) (offset : BitVec 12) : Prop := rd = 0 ∧ rs1 = Isa.ra ∧ offset = 0

instance (rd rs1 : Reg) (offset : BitVec 12) : Decidable (IsReturn rd rs1 offset) :=
  inferInstanceAs (Decidable (_ ∧ _ ∧ _))

section Jalr
variable (addr : Nat) (rd rs1 : Reg) (offset : BitVec 12) (func : Option Nat)

/-- The register is read, and then it is decided what is done. -/
theorem translateJALR_eq :
    ({disasmJALR addr rd rs1 offset with func := func} : Branch).translateBranch =
      ({disasmJALR addr rd rs1 offset with func := func} : Branch).getReg 1 >>= fun jreg =>
        if IsReturn rd rs1 offset then pure .RETURN
        else if rs1 = 0 then pure (.unreachable "unexpected JALR with base register equal to zero!")
        else match func with
          | some target => pure (.CALL target rd)
          | none =>
            if offset = 0 then pure (if rd = 0 then .IJUMP jreg else .ICALL jreg rd)
            else add jreg (Instruction.constant (offset.signExtend 32)) >>= fun v =>
              pure (if rd = 0 then .IJUMP v else .ICALL v rd) := by
  have himm : (offset.signExtend 32 = 0) ↔ offset = 0 := signExtend_eq_zero (by decide)
  refine congrArg (bind _) (funext fun jreg => ?_)
  unfold IsReturn
  simp only [← himm]
  cases func <;> rfl

end Jalr
end Branch
end RiscvSbt.Translate
