import RiscvSbt.Relocation.Machine

/-! What `symValue` finds.

The symbol and the addend of a relocation give a place. Where its section is text, the addend is
dropped if there is a symbol, and a function that is known, or that a symbol names, is looked up at
the bare address. -/
namespace RiscvSbt.Relocation
open Library Context

variable {e : Env} {s t : State} {r : Reloc} {v : Const} {last : Option Const}

/-- The value of the symbol; a relocation without one counts from the start of its section. -/
def Reloc.value (r : Reloc) : BitVec 32 :=
  match r.sym with
  | some sym => sym.addr
  | none => 0

/-! ### Addresses -/

theorem ofNat_symPlus (r : Reloc) : BitVec.ofNat 32 r.symPlus = r.value + r.addend := by
  have hofNat (n : Int) : BitVec.ofNat 32 ((n % 2 ^ 64).toNat) = BitVec.ofInt 32 n := by
    apply BitVec.eq_of_toNat_eq
    rw [BitVec.toNat_ofNat, BitVec.toNat_ofInt]
    omega
  unfold Reloc.symPlus Reloc.value
  rw [hofNat, BitVec.ofInt_add, BitVec.ofInt_toInt]
  cases r.sym with
  | some sym => simp
  | none => simp

/-! ### What `symValue` finds -/

/-- Where an internal text symbol is looked for: its addend does not matter. -/
def Reloc.saddr (r : Reloc) : Nat :=
  match r.sym with
  | some sym => sym.addr.toNat
  | none => r.symPlus

/-- Calls get the symbol of a function, and not its guest address. -/
def BySymbol (e : Env) (r : Reloc) : Prop := e.useICallerForIIntFuncs = false ∧ r.type ≠ .JAL

theorem funcAt_ok (hm : Maps s) {saddr o : Nat} (h : funcAt e s saddr = .ok (o, t)) :
    Maps t ∧ t.funcByAddr.get? saddr = some o := by
  unfold funcAt at h
  cases hget : s.funcByAddr.get? saddr with
  | some o' =>
    rw [hget] at h
    obtain ⟨rfl, rfl⟩ := Prod.mk.inj (Except.ok.inj h)
    exact ⟨hm, hget⟩
  | none =>
    rw [hget] at h
    dsimp only at h
    split at h
    next => exact nomatch h
    next => exact ⟨(hm.getByAddr h).1, (hm.getByAddr h).2.1⟩

theorem funcValue_ok {type : RType} {saddr : Nat} {name : String}
    (h : funcValue e s type saddr name = .ok (v, last)) :
    v = .int (BitVec.ofNat 32 saddr) ∨
      ∃ f, s.module.get? name = some f ∧ v = .addr (.func f) 0 := by
  unfold funcValue at h
  split at h
  next => exact .inl (congrArg Prod.fst (Except.ok.inj h)).symm
  next =>
    split at h
    next => exact nomatch h
    next f hf =>
      split at h
      next => exact .inl (congrArg Prod.fst (Except.ok.inj h)).symm
      next => exact .inr ⟨f, hf, (congrArg Prod.fst (Except.ok.inj h)).symm⟩

theorem add_eq_self {a b : BitVec 32} (h : a = a + b) : b = 0 := by
  simpa using h.symm

theorem symPlus_of_exact (h : r.sym = none ∨ r.addend = 0) : r.symPlus = r.saddr := by
  unfold Reloc.saddr
  cases hsym : r.sym with
  | none => rfl
  | some sym =>
    rw [hsym] at h
    have hlt := sym.addr.isLt
    have hzero : r.addend.toInt = 0 := by rw [h.resolve_left nofun]; rfl
    simp only [Reloc.symPlus, hsym, hzero]
    omega

theorem saddr_of_exact (h : r.sym = none ∨ r.addend = 0) :
    BitVec.ofNat 32 r.saddr = r.value + r.addend := by
  rw [← symPlus_of_exact h, ofNat_symPlus]

/-- A text symbol that is looked for where it should be has no addend. -/
theorem exact_of_saddr (h : BitVec.ofNat 32 r.saddr = r.value + r.addend) :
    r.sym = none ∨ r.addend = 0 := by
  cases hsym : r.sym with
  | none => exact .inl rfl
  | some sym =>
    have hv : BitVec.ofNat 32 r.saddr = r.value := by simp [Reloc.saddr, Reloc.value, hsym]
    exact .inr (add_eq_self (hv ▸ h))

/-! ### Data -/

namespace Const

end Const

/-- A section that has nothing in it, translated with a library of data only. -/
def dataEnv : Env where
  secName := ".text"
  sec := {size := 0, symbols := [], inst := fun _ => .straight 0}
  import_ _ := .ok .data

def noFunctions : State := (Config.init Map.empty fun _ => []).s

theorem noFunctions_maps : Maps noFunctions :=
  ⟨fun _ _ h => (nomatch h), fun _ _ h => (nomatch h), fun _ _ _ h => (nomatch h),
    fun _ _ h => (nomatch h), fun _ _ h => (nomatch h), fun _ _ _ h => (nomatch h)⟩

end RiscvSbt.Relocation
