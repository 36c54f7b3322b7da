import RiscvSbt.Relocation.Machine
import RiscvSbt.Translate.Simulation

/-! Addresses that two instructions build from the halves of a relocated value.

The upper half is rounded, so that the lower one, that is what is missing, is a signed
number of twelve bits. Whatever carries and wraps around cancels. -/
namespace RiscvSbt.Relocation
open Translate (Instruction disasm)
open Translate.Instruction (guest)
open Isa (Word Reg)

/-! ### Halves -/

theorem mask_bits : ∀ i < 32, (0xFFFFF000#32).getLsbD i = decide (12 ≤ i) := by decide

/-- What is shifted out and back in is masked. -/
theorem shifted_eq_masked (w : Word) : w >>> 12 <<< 12 = w &&& 0xFFFFF000#32 := by
  apply BitVec.eq_of_getLsbD_eq
  intro i hi
  rw [BitVec.getLsbD_shiftLeft, BitVec.getLsbD_ushiftRight, BitVec.getLsbD_and, mask_bits i hi]
  by_cases h : i < 12
  · simp [h]
  · have hle : 12 ≤ i := by omega
    simp [hi, h, hle, Nat.add_sub_cancel' hle]

/-- The upper half of a value, and the lower one. -/
def hi20 (v : Word) : Word := (v + 0x800#32) >>> 12

def lo12 (v : Word) : Word := v - ((v + 0x800#32) &&& 0xFFFFF000#32)

/-- **The halves of a value make it up again.** -/
theorem hi20_lo12 (v : Word) : hi20 v <<< 12 + lo12 v = v := by
  rw [hi20, lo12, shifted_eq_masked, BitVec.add_comm, BitVec.sub_add_cancel]

/-- The lower half is what twelve bits hold, less the rounding. -/
theorem lo12_eq (v : Word) :
    lo12 v = BitVec.ofInt 32 (((v + 0x800#32).toNat % 4096 : Nat) - 2048) := by
  have hmask : ((v + 0x800#32) >>> 12 <<< 12).toNat = (v + 0x800#32).toNat / 4096 * 4096 := by
    have := (v + 0x800#32).isLt
    rw [BitVec.toNat_shiftLeft, BitVec.toNat_ushiftRight, Nat.shiftRight_eq_div_pow,
      Nat.shiftLeft_eq]
    omega
  have hv : v = v + 0x800#32 - 0x800#32 := (BitVec.add_sub_cancel v _).symm
  rw [lo12, ← shifted_eq_masked]
  generalize v + 0x800#32 = w at hmask hv
  subst hv
  have hlt := w.isLt
  apply BitVec.eq_of_toNat_eq
  simp only [BitVec.toNat_sub, hmask, BitVec.toNat_ofInt, BitVec.toNat_ofNat]
  omega

theorem lo12_bounds (v : Word) : -2048 ≤ (lo12 v).toInt ∧ (lo12 v).toInt ≤ 2047 := by
  rw [lo12_eq, BitVec.toInt_ofInt, Int.bmod_eq_of_le (by omega) (by omega)]
  omega

/-! ### Formulas -/

@[simp] theorem formula_HI20 (pc v : Word) : formula .HI20 pc v = hi20 v := rfl

@[simp] theorem formula_LO12_I (pc v : Word) : formula .LO12_I pc v = lo12 v := rfl

@[simp] theorem formula_LO12_S (pc v : Word) : formula .LO12_S pc v = lo12 v := rfl

@[simp] theorem formula_PCREL_HI20 (pc v : Word) : formula .PCREL_HI20 pc v = hi20 (v - pc) := rfl

@[simp] theorem formula_PROXY_CALL_HI (pc v : Word) : formula .PROXY_CALL_HI pc v = hi20 (v - pc) :=
  rfl

@[simp] theorem formula_PROXY_CALL_LO (pc v : Word) : formula .PROXY_CALL_LO pc v = lo12 (v - pc) :=
  rfl

/-- The types of relocations that are lower halves. -/
def RType.isLow : RType → Bool
  | .LO12_I | .LO12_S | .PROXY_CALL_LO => true
  | _ => false

theorem low_bounds {type : RType} (h : type.isLow = true) (pc v : Word) :
    -2048 ≤ (formula type pc v).toInt ∧ (formula type pc v).toInt ≤ 2047 := by
  cases type with
  | LO12_I => exact lo12_bounds v
  | LO12_S => exact lo12_bounds v
  | PROXY_CALL_LO => exact lo12_bounds (v - pc)
  | _ => cases h

/-! ### Instructions -/

/-- The relocated constant takes the place of the immediate. -/
theorem run_lui (addr : Nat) (rd : Reg) (imm : BitVec 20) (c : Word) (s : Isa.State)
    (env : Nat → Ir.Val) :
    ∃ t, Ir.run (Instruction.translate ⟨addr, disasm (.lui rd imm), some c⟩).code
        ⟨env, s.x, s.mem⟩ = some t ∧ guest t = s.set rd (c <<< 12) :=
  Instruction.translateUI_wp ⟨addr, disasm (.lui rd imm), some c⟩ .LUI

theorem run_auipc (addr : Nat) (rd : Reg) (imm : BitVec 20) (c : Word) (s : Isa.State)
    (env : Nat → Ir.Val) :
    ∃ t, Ir.run (Instruction.translate ⟨addr, disasm (.auipc rd imm), some c⟩).code
        ⟨env, s.x, s.mem⟩ = some t ∧ guest t = s.set rd (c <<< 12 + BitVec.ofNat 32 addr) :=
  Instruction.translateUI_wp ⟨addr, disasm (.auipc rd imm), some c⟩ .AUIPC

/-- The instructions that add a lower half to a register. -/
inductive Low where
  | add (rd : Reg)
  | load (f : Isa.LoadOp) (rd : Reg)
  | store (f : Isa.StoreOp) (rs2 : Reg)
  deriving DecidableEq, Repr

namespace Low

def inst (base : Reg) (imm : BitVec 12) : Low → Isa.Inst
  | add rd => .opImm .addi rd base imm
  | load f rd => .load f rd base imm
  | store f rs2 => .store f rs2 base imm

/-- What is to happen at an address. -/
def effect (a : Word) (s : Isa.State) : Low → Isa.State
  | add rd => s.set rd a
  | load f rd => s.set rd (f.eval s.mem a)
  | store f rs2 => {s with mem := f.eval s.mem a (s.get rs2)}

theorem run_translate (addr : Nat) (low : Low) (base : Reg) (imm : BitVec 12) (c : Word)
    (s : Isa.State) (env : Nat → Ir.Val) :
    ∃ t, Ir.run (Instruction.translate ⟨addr, disasm (low.inst base imm), some c⟩).code
        ⟨env, s.x, s.mem⟩ = some t ∧ guest t = low.effect (s.get base + c) s := by
  cases low with
  | add rd => exact Instruction.translateALUOp_wp _ _ _
  | load f rd => cases f <;> exact Instruction.translateLoad_wp _ _
  | store f rs2 => cases f <;> exact Instruction.translateStore_wp _ _

end Low

/-- An instruction leaves the upper half of an address in a register, so that any other one
with the lower half gets at the address. -/
def Builds (a : Word) (upper : Instruction) (rd : Reg) (addr : Nat) (c : Word) : Prop :=
  ∀ (s : Isa.State) env, ∃ t, Ir.run upper.translate.code ⟨env, s.x, s.mem⟩ = some t ∧
    (guest t).get rd + c = a ∧
    ∀ (low : Low) (imm : BitVec 12) env', ∃ u,
      Ir.run (Instruction.translate ⟨addr, disasm (low.inst rd imm), some c⟩).code
        ⟨env', t.x, t.mem⟩ = some u ∧ guest u = low.effect a (guest t)

/-- An upper half that is left in a register. -/
theorem builds_of_upper {a x c : Word} {upper : Instruction} {rd : Reg} (hrd : rd ≠ 0)
    (hupper : ∀ (s : Isa.State) env, ∃ t, Ir.run upper.translate.code ⟨env, s.x, s.mem⟩ = some t ∧
      guest t = s.set rd x) (hsum : x + c = a) (addr : Nat) : Builds a upper rd addr c := by
  intro s env
  obtain ⟨t, ht, hguest⟩ := hupper s env
  have hget : (guest t).get rd = x := by
    rw [hguest]
    simp [Isa.State.set, Isa.State.get, hrd]
  refine ⟨t, ht, hget ▸ hsum, fun low imm env' => ?_⟩
  obtain ⟨u, hu, heffect⟩ := low.run_translate addr rd imm c (guest t) env'
  exact ⟨u, hu, by rw [heffect, hget, hsum]⟩

theorem lui_builds {rd : Reg} (hrd : rd ≠ 0) (addr addr' : Nat) (imm : BitVec 20) (v : Word) :
    Builds v ⟨addr, disasm (.lui rd imm), some (hi20 v)⟩ rd addr' (lo12 v) :=
  builds_of_upper hrd (run_lui addr rd imm (hi20 v)) (hi20_lo12 v) addr'

theorem auipc_builds {rd : Reg} (hrd : rd ≠ 0) (addr addr' : Nat) (imm : BitVec 20) (v : Word) :
    Builds v ⟨addr, disasm (.auipc rd imm), some (hi20 (v - BitVec.ofNat 32 addr))⟩ rd addr'
      (lo12 (v - BitVec.ofNat 32 addr)) := by
  have hsum := hi20_lo12 (v - BitVec.ofNat 32 addr)
  refine builds_of_upper hrd (run_auipc addr rd imm _) ?_ addr'
  calc hi20 (v - BitVec.ofNat 32 addr) <<< 12 + BitVec.ofNat 32 addr +
        lo12 (v - BitVec.ofNat 32 addr)
      = hi20 (v - BitVec.ofNat 32 addr) <<< 12 + lo12 (v - BitVec.ofNat 32 addr) +
          BitVec.ofNat 32 addr := by ac_rfl
    _ = v := by rw [hsum, BitVec.sub_add_cancel]

/-- **Address materialisation**: `lui` and a lower half, and `auipc` with the instruction
behind it by the proxies of one call, get at the relocated value, and each lower half is a
signed number of twelve bits. -/
theorem address_materialised (v : Word) (rd : Reg) (hrd : rd ≠ 0) :
    (∀ (type : RType) (addr addr' : Nat) (imm : BitVec 20), type = .LO12_I ∨ type = .LO12_S →
      Builds v
        ⟨addr, disasm (.lui rd imm), some (formula .HI20 (BitVec.ofNat 32 addr) v)⟩ rd addr'
        (formula type (BitVec.ofNat 32 addr') v)) ∧
    (∀ (rel : SBTRelocation) (r : Reloc) (imm : BitVec 20), ∃ hi lo,
      (rel.addProxyReloc r).proxyRelocs = rel.proxyRelocs ++ [hi, lo] ∧
      hi.offset = r.offset ∧ lo.offset = r.offset + 4 ∧
      Builds v
        ⟨r.offset, disasm (.auipc rd imm), some (formula hi.type (pcOf hi r.offset) v)⟩ rd
        (r.offset + 4) (formula lo.type (pcOf lo (r.offset + 4)) v)) ∧
    ∀ (type : RType) (pc : Word), type.isLow = true →
      -2048 ≤ (formula type pc v).toInt ∧ (formula type pc v).toInt ≤ 2047 := by
  refine ⟨?_, fun rel r imm => ?_, fun type pc h => low_bounds h pc v⟩
  · rintro type addr addr' imm (rfl | rfl)
    · exact lui_builds hrd addr addr' imm v
    · exact lui_builds hrd addr addr' imm v
  · exact ⟨_, _, rfl, rfl, rfl, auipc_builds hrd r.offset (r.offset + 4) imm v⟩

/-- The value whose bit 11 is set. -/
theorem materialised_800 :
    (∀ (type : RType) (addr addr' : Nat) (imm : BitVec 20), type = .LO12_I ∨ type = .LO12_S →
      Builds 0x800
        ⟨addr, disasm (.lui 10 imm), some (formula .HI20 (BitVec.ofNat 32 addr) 0x800)⟩ 10 addr'
        (formula type (BitVec.ofNat 32 addr') 0x800)) ∧
    formula .LO12_I 0 0x800 = BitVec.ofInt 32 (-2048) :=
  ⟨(address_materialised 0x800 10 (by decide)).1, by decide⟩

end RiscvSbt.Relocation
