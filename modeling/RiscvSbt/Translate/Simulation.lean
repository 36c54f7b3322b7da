import RiscvSbt.Translate.BuilderProofs
import RiscvSbt.Translate.Instruction
import Mathlib.Tactic.Common

/-! Translated instructions do what the ISA says.

`aluEval` is what an ALU operation of the translator computes, whatever shortcut it
takes; loads and stores reach the same bytes through a typed pointer.
`translate_simulates` puts the opcodes together: running the emitted code leaves
exactly the registers and the memory of one RV32I step. -/
namespace RiscvSbt.Translate
open Isa (Word Reg)
open Ir (Ty Val Value)
open Library Library.Emit
open Builder

/-! ### Operations on words -/

/-- Masking with `0x1F` keeps the low five bits. -/
theorem toNat_mask (y : Word) : (y &&& 0x1F#32).toNat = y.toNat % 32 := by
  rw [BitVec.toNat_and]
  exact Nat.and_two_pow_sub_one_eq_mod y.toNat 5

theorem mask_lt (y : Word) : (y &&& 0x1F#32).toNat < 32 := by
  rw [toNat_mask]
  exact Nat.mod_lt _ (by decide)

theorem zext_ofBool (b : Bool) : (BitVec.ofBool b).setWidth 32 = Isa.ofTest b := by
  cases b <;> rfl

/-- An upper immediate, shifted into place. -/
theorem upper_immediate (imm : BitVec 20) :
    BitVec.ofInt 32 (imm.toNat : Int) <<< 12 = imm ++ (0 : BitVec 12) := by
  have := imm.isLt
  apply BitVec.eq_of_toNat_eq
  rw [BitVec.toNat_shiftLeft, BitVec.ofInt_natCast, BitVec.toNat_ofNat, BitVec.toNat_append,
    Nat.mod_eq_of_lt (by omega), Nat.shiftLeft_eq, Nat.shiftLeft_eq]
  simp
  omega

theorem shift_amount (shamt : BitVec 5) :
    (BitVec.ofInt 32 (shamt.toNat : Int)).toNat % 32 = shamt.toNat := by
  have := shamt.isLt
  rw [BitVec.ofInt_natCast, BitVec.toNat_ofNat]
  omega

/-- What an ALU operation leaves in its destination. -/
def aluEval (unsigned : Bool) (a b : Word) : Instruction.ALUOp → Word
  | .ADD => a + b
  | .AND => a &&& b
  | .OR => a ||| b
  | .SLL => a <<< (b.toNat % 32)
  | .SLT => Isa.ofTest (if unsigned then a.ult b else a.slt b)
  | .SRA => a.sshiftRight (b.toNat % 32)
  | .SRL => a >>> (b.toNat % 32)
  | .SUB => a - b
  | .XOR => a ^^^ b

namespace Instruction

section Values
variable {n : Nat} {s : Ir.State} {Q : Value → Nat → Ir.State → Prop}

/-- A register operand: `x0` is the constant zero, any other register is loaded. -/
theorem wp_getReg (i : Instruction) (op : Nat)
    (h : ∀ v n' s', Extends n s n' s' →
      Denotes v .i32 (.i32 (if i.inst.reg op = 0 then 0 else s.x (i.inst.reg op))) n' s' →
      Q v n' s') :
    wp Ir.step (i.getReg op) n s Q := by
  unfold getReg
  by_cases hr : i.inst.reg op = 0
  · rw [if_pos hr]
    refine wp_pure (h _ _ _ (Extends.refl n s) ?_)
    rw [if_pos hr]
    exact denotes_i32 0 n s
  · rw [if_neg hr]
    refine wp_load _ fun v n' s' he hv => h v n' s' he ?_
    rw [if_neg hr]
    exact hv

/-- A shift of a masked amount: never poison. -/
theorem wp_masked {a b : Value} {x y z : Word} (op : Ir.BinOp) (ha : Denotes a .i32 (.i32 x) n s)
    (hb : Denotes b .i32 (.i32 y) n s) (hz : op.eval x (y &&& 0x1F#32) = some z)
    (h : ∀ v n' s', Extends n s n' s' → Denotes v .i32 (.i32 z) n' s' → Q v n' s') :
    wp Ir.step (do
      let m ← and_ b (i32 0x1F)
      Builder.define a.ty (.bin · op a.ref m.ref)) n s Q := by
  refine wp_bind (wp_bin .and hb (denotes_i32 0x1F n s) rfl fun m n₁ s₁ he hm => ?_)
  exact wp_bin op (ha.extend he) hm hz fun v n' s' he' hv => h v n' s' (he.trans he') hv

theorem wp_aluCode {a b : Value} {x y : Word} (op : ALUOp) (unsigned : Bool)
    (ha : Denotes a .i32 (.i32 x) n s) (hb : Denotes b .i32 (.i32 y) n s)
    (h : ∀ v n' s', Extends n s n' s' →
      Denotes v .i32 (.i32 (aluEval unsigned x y op)) n' s' → Q v n' s') :
    wp Ir.step (aluCode op unsigned a b) n s Q := by
  cases op with
  | ADD => exact wp_bin .add ha hb rfl h
  | AND => exact wp_bin .and ha hb rfl h
  | OR => exact wp_bin .or ha hb rfl h
  | SUB => exact wp_bin .sub ha hb rfl h
  | XOR => exact wp_bin .xor ha hb rfl h
  | SLL =>
    refine wp_masked .shl ha hb ?_ h
    rw [Ir.BinOp.eval, if_pos (mask_lt y), toNat_mask]
    rfl
  | SRA =>
    refine wp_masked .ashr ha hb ?_ h
    rw [Ir.BinOp.eval, if_pos (mask_lt y), toNat_mask]
    rfl
  | SRL =>
    refine wp_masked .lshr ha hb ?_ h
    rw [Ir.BinOp.eval, if_pos (mask_lt y), toNat_mask]
    rfl
  | SLT =>
    have hext : ∀ {c : Value} {t : Bool} {n₁ : Nat} {s₁ : Ir.State}, Extends n s n₁ s₁ →
        Denotes c .i1 (.i1 (BitVec.ofBool t)) n₁ s₁ →
        Isa.ofTest t = aluEval unsigned x y .SLT → wp Ir.step (zext c) n₁ s₁ Q := by
      intro c t n₁ s₁ he hc ht
      refine wp_cast .zext hc rfl fun v n' s' he' hv => h v n' s' (he.trans he') ?_
      rw [← ht, ← zext_ofBool]
      exact hv
    cases unsigned with
    | true => exact wp_bind (wp_icmp .ult ha hb fun c n₁ s₁ he hc => hext he hc rfl)
    | false => exact wp_bind (wp_icmp .slt ha hb fun c n₁ s₁ he hc => hext he hc rfl)

/-- Whichever alias is taken, the value is the operation's. -/
theorem wp_aluValue {a b : Value} {x y : Word} (op : ALUOp) (unsigned : Bool) (o1n : Reg)
    (o2 : Option Word) (ha : Denotes a .i32 (.i32 x) n s) (hb : Denotes b .i32 (.i32 y) n s)
    (hx : o1n = 0 → x = 0) (hy : ∀ c, o2 = some c → y = c)
    (h : ∀ v n' s', Extends n s n' s' →
      Denotes v .i32 (.i32 (aluEval unsigned x y op)) n' s' → Q v n' s') :
    wp Ir.step (aluValue (aluAlias op o1n o2) op unsigned a b) n s Q := by
  have hcode := wp_aluCode op unsigned ha hb h
  cases op with
  | ADD =>
    by_cases hz : o2 = some 0
    · -- mv
      simp only [aluAlias, aluValue, hz, if_true]
      refine wp_pure (h a n s (Extends.refl n s) ?_)
      rw [hy 0 hz, show aluEval unsigned x 0 .ADD = x from BitVec.add_zero x]
      exact ha
    · simpa only [aluAlias, aluValue, hz, if_false] using hcode
  | SUB =>
    by_cases hz : o1n = 0
    · -- neg
      simp only [aluAlias, aluValue, hz, if_true]
      rw [hx hz] at h
      exact wp_bin .sub (denotes_i32 0 n s) hb rfl h
    · simpa only [aluAlias, aluValue, hz, if_false] using hcode
  | XOR =>
    by_cases hz : o2.map BitVec.toInt = some (-1)
    · -- not
      simp only [aluAlias, aluValue, hz, if_true]
      obtain ⟨c, hc, hneg⟩ := Option.map_eq_some_iff.mp hz
      have hy' : y = BitVec.ofInt 32 (-1) := by
        rw [hy c hc, ← hneg, BitVec.ofInt_toInt]
      rw [hy'] at h
      exact wp_bin .xor ha (denotes_i32 (-1) n s) rfl h
    · simpa only [aluAlias, aluValue, hz, if_false] using hcode
  | _ => exact hcode

/-- The address of a load or a store. -/
theorem wp_pointer {a : Value} {x : Word} (imm : Word) (ty : Ty)
    (ha : Denotes a .i32 (.i32 x) n s)
    (h : ∀ v n' s', Extends n s n' s' → Denotes v (.ptr ty) (.ptr (x + imm)) n' s' → Q v n' s') :
    wp Ir.step (pointer a imm ty) n s Q := by
  refine wp_bind (wp_intToPtr .i8 ha fun p n₁ s₁ he₁ hp => ?_)
  refine wp_bind (wp_gep hp ⟨rfl, rfl, trivial⟩ fun q n₂ s₂ he₂ hq => ?_)
  exact wp_pointerCast ty hq fun v n' s' he₃ hv => h v n' s' (he₁.trans (he₂.trans he₃)) hv

end Values

/-! ### Instructions -/

section Effects
variable {n : Nat} {s : Ir.State}

/-- Registers and memory, as the ISA sees them. -/
def guest (s : Ir.State) : Isa.State := ⟨s.x, s.mem⟩

theorem guest_get {n n' : Nat} {s s' : Ir.State} (h : Extends n s n' s') (r : Reg) :
    (if r = 0 then 0 else s'.x r) = (guest s).get r := by
  rw [h.x]
  rfl

theorem guest_extends {n n' : Nat} {s s' : Ir.State} (h : Extends n s n' s') :
    guest s' = guest s := by
  simp only [guest, h.x, h.mem]

/-- A value stored in the destination register ends the instruction. -/
theorem wp_result {n' : Nat} {s' : Ir.State} {v : Value} {w : Word} (rd : Reg)
    (he : Extends n s n' s') (hv : Denotes v .i32 (.i32 w) n' s') :
    wp Ir.step (store v rd) n' s' fun _ _ t => guest t = (guest s).set rd w := by
  refine wp_store rd hv ?_
  rw [← guest_extends he]
  unfold Isa.State.set
  split <;> rfl

theorem translateALUOp_wp (i : Instruction) (op : ALUOp) (flags : ALUFlags) :
    wp Ir.step (i.translateALUOp op flags) n s fun _ _ t =>
      guest t = (guest s).set i.getRD (aluEval flags.unsigned ((guest s).get (i.inst.reg 1))
        (if flags.imm then i.getImm 2 else (guest s).get (i.inst.reg 2)) op) := by
  refine wp_bind (wp_getReg i 1 fun o1 n₁ s₁ he₁ h1 => ?_)
  rw [guest_get (Extends.refl n s)] at h1
  have hzero : i.inst.reg 1 = 0 → (guest s).get (i.inst.reg 1) = 0 := fun h => if_pos h
  cases himm : flags.imm with
  | true =>
    refine wp_bind (wp_pure (wp_bind ?_))
    refine wp_aluValue op flags.unsigned _ _ h1 (b := constant (i.getImm 2)) (y := i.getImm 2)
      ⟨rfl, rfl, trivial⟩ hzero (fun c hc => Option.some.inj hc) fun v n' s' he hv => ?_
    exact wp_result _ (he₁.trans he) hv
  | false =>
    refine wp_bind (wp_getReg i 2 fun o2 n₂ s₂ he₂ h2 => wp_bind ?_)
    rw [guest_get he₁] at h2
    refine wp_aluValue op flags.unsigned _ _ (h1.extend he₂) h2 hzero (fun c hc => nomatch hc)
      fun v n' s' he hv => ?_
    exact wp_result _ (he₁.trans (he₂.trans he)) hv

theorem translateUI_wp (i : Instruction) (op : UIOp) :
    wp Ir.step (i.translateUI op) n s fun _ _ t =>
      guest t = (guest s).set i.getRD
        (if op = .AUIPC then i.getImm 1 <<< 12 + BitVec.ofNat 32 i.addr else i.getImm 1 <<< 12) :=
  wp_result _ (Extends.refl n s) ⟨rfl, rfl, trivial⟩

/-- What a load of each type leaves in its destination. -/
def loadEval (m : Isa.Memory) (a : Word) : IntType → Word
  | .S8 => (m a).signExtend 32
  | .U8 => (m a).setWidth 32
  | .S16 => (m.read16 a).signExtend 32
  | .U16 => (m.read16 a).setWidth 32
  | .U32 => m.read32 a

theorem translateLoad_wp (i : Instruction) (it : IntType) :
    wp Ir.step (i.translateLoad it) n s fun _ _ t =>
      guest t = (guest s).set i.getRD
        (loadEval s.mem ((guest s).get (i.inst.reg 1) + i.getImm 2) it) := by
  refine wp_bind (wp_getReg i 1 fun rs1 n₁ s₁ he₁ h1 => ?_)
  refine wp_bind (wp_pointer _ _ h1 fun p n₂ s₂ he₂ hp => ?_)
  have he := he₁.trans he₂
  have hext : ∀ {op : Ir.CastOp} {ty : Ty} {x : Val} {w : Word},
      Ir.loadVal s₂.mem ((guest s).get (i.inst.reg 1) + i.getImm 2) ty = some x →
      Denotes p (.ptr ty) (.ptr ((guest s).get (i.inst.reg 1) + i.getImm 2)) n₂ s₂ →
      op.eval x .i32 = some (.i32 w) →
      wp Ir.step (do
        let v ← loadPtr p
        let v ← Builder.define .i32 (.cast · op v.ref .i32)
        store v i.getRD) n₂ s₂ fun _ _ t => guest t = (guest s).set i.getRD w := by
    intro op ty x w hx hp hw
    refine wp_bind (wp_loadPtr hp hx fun v n₃ s₃ he₃ hv => ?_)
    refine wp_bind (wp_cast op hv hw fun v n₄ s₄ he₄ hv => ?_)
    exact wp_result _ (he.trans (he₃.trans he₄)) hv
  cases it with
  | S8 => exact hext rfl hp (by rw [he.mem]; rfl)
  | U8 => exact hext rfl hp (by rw [he.mem]; rfl)
  | S16 => exact hext rfl hp (by rw [he.mem]; rfl)
  | U16 => exact hext rfl hp (by rw [he.mem]; rfl)
  | U32 =>
    refine wp_bind (wp_loadPtr hp rfl fun v n₃ s₃ he₃ hv => wp_bind (wp_pure ?_))
    rw [he.mem] at hv
    exact wp_result _ (he.trans he₃) hv

/-- What a store of each type leaves in memory; `translateStore` is called with the
unsigned types. -/
def storeEval (m : Isa.Memory) (a v : Word) : IntType → Isa.Memory
  | .S8 | .U8 => m.write8 a (v.setWidth 8)
  | .S16 | .U16 => m.write16 a (v.setWidth 16)
  | .U32 => m.write32 a v

theorem wp_truncated {n' : Nat} {s' : Ir.State} {v p : Value} {x a : Word} (it : IntType)
    (he : Extends n s n' s') (hv : Denotes v .i32 (.i32 x) n' s')
    (hp : Denotes p (.ptr (getLLVMTy it)) (.ptr a) n' s') :
    wp Ir.step (do storePtr (← truncOrBitCast v (getLLVMTy it)) p) n' s' fun _ _ t =>
      guest t = {guest s with mem := storeEval s.mem a x it} := by
  have hguest : ∀ {t : Ir.State} {m : Isa.Memory}, Extends n s n' t →
      guest {t with mem := m} = {guest s with mem := m} := by
    intro t m h
    simp only [guest, h.x]
  have hcast : ∀ {ty : Ty} {z : Val} {m : Isa.Memory}, Ty.i32 ≠ ty → getLLVMTy it = ty →
      Ir.CastOp.eval .trunc (.i32 x) ty = some z → Ir.storeVal s.mem a z = some m →
      wp Ir.step (do storePtr (← truncOrBitCast v ty) p) n' s' fun _ _ t =>
        guest t = {guest s with mem := m} := by
    intro ty z m hne hty hz hm
    unfold truncOrBitCast
    rw [hv.ty, if_neg hne]
    refine wp_bind (wp_cast .trunc hv hz fun w n₁ s₁ he₁ hw => ?_)
    have hmem := (he.trans he₁).mem
    refine wp_storePtr hw (hp.extend he₁) (by rw [hmem]; exact hm) ?_
    simp only [guest, (he.trans he₁).x]
  cases it with
  | S8 => exact hcast (by decide) rfl rfl rfl
  | U8 => exact hcast (by decide) rfl rfl rfl
  | S16 => exact hcast (by decide) rfl rfl rfl
  | U16 => exact hcast (by decide) rfl rfl rfl
  | U32 =>
    unfold truncOrBitCast
    rw [hv.ty, if_pos (show Ty.i32 = getLLVMTy .U32 from rfl)]
    exact wp_bind (wp_pure (wp_storePtr hv hp (by rw [he.mem]; rfl) (hguest he)))

theorem translateStore_wp (i : Instruction) (it : IntType) :
    wp Ir.step (i.translateStore it) n s fun _ _ t =>
      guest t = {guest s with mem := (storeEval s.mem
        ((guest s).get (i.inst.reg 1) + i.getImm 2) ((guest s).get (i.inst.reg 0)) it)} := by
  refine wp_bind (wp_getReg i 0 fun rs2 n₁ s₁ he₁ h2 => ?_)
  refine wp_bind (wp_getReg i 1 fun rs1 n₂ s₂ he₂ h1 => ?_)
  rw [guest_get he₁] at h1
  refine wp_bind (wp_pointer _ _ h1 fun p n₃ s₃ he₃ hp => ?_)
  exact wp_truncated it (he₁.trans (he₂.trans he₃)) ((h2.extend he₂).extend he₃) hp

/-- One instruction, whatever it is. -/
theorem translate_wp (addr : Nat) (inst : Isa.Inst) :
    wp Ir.step (translate ⟨addr, disasm inst, none⟩) n s fun _ _ t =>
      guest t = Isa.step (BitVec.ofNat 32 addr) (guest s) inst := by
  cases inst with
  | op f rd rs1 rs2 => cases f <;> exact translateALUOp_wp _ _ _
  | opImm f rd rs1 imm => cases f <;> exact translateALUOp_wp _ _ _
  | shift f rd rs1 shamt =>
    have hs := shift_amount shamt
    cases f with
    | slli =>
      refine wp_mono (translateALUOp_wp _ _ _) fun _ _ t ht => ht.trans ?_
      exact congrArg (fun k => (guest s).set rd ((guest s).get rs1 <<< k)) hs
    | srli =>
      refine wp_mono (translateALUOp_wp _ _ _) fun _ _ t ht => ht.trans ?_
      exact congrArg (fun k => (guest s).set rd ((guest s).get rs1 >>> k)) hs
    | srai =>
      refine wp_mono (translateALUOp_wp _ _ _) fun _ _ t ht => ht.trans ?_
      exact congrArg (fun k => (guest s).set rd (((guest s).get rs1).sshiftRight k)) hs
  | lui rd imm =>
    refine wp_mono (translateUI_wp _ .LUI) fun _ _ t ht => ht.trans ?_
    exact congrArg ((guest s).set rd) (upper_immediate imm)
  | auipc rd imm =>
    refine wp_mono (translateUI_wp _ .AUIPC) fun _ _ t ht => ht.trans ?_
    refine congrArg ((guest s).set rd) ((BitVec.add_comm _ _).trans ?_)
    exact congrArg _ (upper_immediate imm)
  | load f rd rs1 offset => cases f <;> exact translateLoad_wp _ _
  | store f rs2 rs1 offset => cases f <;> exact translateStore_wp _ _

end Effects
end Instruction

/-- **Per-instruction simulation.** At every address, for every computation or memory
instruction and from every state, the emitted code runs and leaves the registers and
the memory of the ISA's step. -/
theorem translate_simulates (addr : Nat) (inst : Isa.Inst) (s : Isa.State) (env : Nat → Val) :
    ∃ t, Ir.run (Instruction.translate ⟨addr, disasm inst, none⟩).code ⟨env, s.x, s.mem⟩ = some t ∧
      (⟨t.x, t.mem⟩ : Isa.State) = Isa.step (BitVec.ofNat 32 addr) s inst :=
  Instruction.translate_wp addr inst

end RiscvSbt.Translate
