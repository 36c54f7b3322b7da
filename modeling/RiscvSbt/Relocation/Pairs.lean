import RiscvSbt.Relocation.Addresses
import RiscvSbt.Relocation.Calls

/-! Pairs of pc-relative relocations.

The lower half of such a pair names the label of the upper one. It is handled as if it were
a proxy: what it counts from is read where a proxy has the address of the upper half, and
what it relocates is the label. -/
namespace RiscvSbt.Relocation
open Library Context
open Isa (Reg)
open Translate (disasm)

/-- A constant, once the bases are placed. -/
def Const.eval (place : Base → BitVec 32) : Const → BitVec 32
  | .int v => v
  | .addr b offs => place b + offs
  | .formula type pc b offs => Relocation.formula type pc (place b + offs)

/-- What a symbol's value can be: not a formula yet. -/
def Const.isPlain : Const → Bool
  | .formula .. => false
  | _ => true

variable {e : Env} {s s' t : State} {r r' : Reloc} {rel rel' : SBTRelocation} {p q : Nat}
  {v c : Const} {last : Option Const} {place : Base → BitVec 32}

theorem relfn_eval (h : c.isPlain = true) (type : RType) (pc : BitVec 32) :
    (relfn type pc c).eval place = formula type pc (c.eval place) := by
  cases c with
  | formula => cases h
  | _ => rfl

theorem funcValue_plain {type : RType} {saddr : Nat} {name : String}
    (h : funcValue e s type saddr name = .ok (v, last)) : v.isPlain = true := by
  rcases funcValue_ok h with rfl | ⟨f, -, rfl⟩ <;> rfl

/-- The value of a symbol is plain, whatever the functions known so far. -/
theorem symValue_plain (h : symValue e s r = .ok (v, last, t)) : v.isPlain = true := by
  obtain ⟨-, -, h⟩ := bind_ok h
  dsimp only at h
  split at h
  next =>
    split at h
    next => cases h
    next sym =>
      obtain ⟨i, -, h⟩ := bind_ok h
      cases i with
      | data =>
        obtain ⟨rfl, -⟩ := Prod.mk.inj (Except.ok.inj h)
        rfl
      | func a =>
        obtain ⟨rfl, -⟩ := Prod.mk.inj (Except.ok.inj h)
        rfl
  next =>
    split at h
    next =>
      change (if isFunction e s r.saddr then _ else _) = _ at h
      split at h
      next =>
        obtain ⟨⟨o, u⟩, -, h⟩ := bind_ok h
        obtain ⟨obj, -, h⟩ := bind_ok h
        obtain ⟨⟨c, l⟩, hc, h⟩ := bind_ok h
        obtain ⟨rfl, -⟩ := Prod.mk.inj (Except.ok.inj h)
        exact funcValue_plain hc
      next =>
        obtain ⟨rfl, -⟩ := Prod.mk.inj (Except.ok.inj h)
        rfl
    next =>
      split at h
      next => cases h
      next sec =>
        obtain ⟨rfl, -⟩ := Prod.mk.inj (Except.ok.inj h)
        rfl

/-- What a relocation is handled to, once the bases are placed. -/
theorem handleRelocation_eval (place : Base → BitVec 32)
    {res : Option Const × State × SBTRelocation} (hn : rel.next p = .ok (some r, rel'))
    (hk : known r.type = true)
    (h : handleRelocation e s rel p = .ok res) :
    ∃ v last t c, symValue e s r = .ok (v, last, t) ∧ res.1 = some c ∧
      c.eval place = formula r.type (pcOf r p) (v.eval place) := by
  rw [handleRelocation_eq hn hk] at h
  obtain ⟨⟨v, last, t⟩, hv, h⟩ := bind_ok h
  obtain rfl := Except.ok.inj h
  exact ⟨v, last, t, _, hv, rfl, relfn_eval (symValue_plain hv) _ _⟩

/-! ### Lower halves -/

theorem lo12_inj {a b : BitVec 32} : lo12 a = lo12 b ↔ a.toNat % 4096 = b.toNat % 4096 := by
  rw [lo12_eq, lo12_eq]
  have ha := a.isLt
  have hb := b.isLt
  constructor
  · intro h
    have h := congrArg BitVec.toInt h
    rw [BitVec.toInt_ofInt, BitVec.toInt_ofInt, Int.bmod_eq_of_le (by omega) (by omega),
      Int.bmod_eq_of_le (by omega) (by omega)] at h
    simp only [BitVec.toNat_add, BitVec.toNat_ofNat] at h
    omega
  · intro h
    have heq : (a + 0x800#32).toNat % 4096 = (b + 0x800#32).toNat % 4096 := by
      simp only [BitVec.toNat_add, BitVec.toNat_ofNat]
      omega
    rw [heq]

/-- Of two neighbours one has another lower half. -/
theorem lo12_pred (a : BitVec 32) :
    lo12 (a - BitVec.ofNat 32 0) ≠ lo12 (a - BitVec.ofNat 32 1) := by
  rw [Ne, lo12_inj]
  have := a.isLt
  simp only [BitVec.toNat_sub, BitVec.toNat_ofNat]
  omega

/-- The upper half of the distance from `pc`, with any lower half. -/
theorem upper_add_iff (v pc c : BitVec 32) :
    hi20 (v - pc) <<< 12 + pc + c = v ↔ c = lo12 (v - pc) := by
  have hv : hi20 (v - pc) <<< 12 + pc + lo12 (v - pc) = v := by
    calc hi20 (v - pc) <<< 12 + pc + lo12 (v - pc)
        = hi20 (v - pc) <<< 12 + lo12 (v - pc) + pc := by ac_rfl
      _ = v := by rw [hi20_lo12, BitVec.sub_add_cancel]
  constructor
  · intro h
    exact (BitVec.add_right_inj _).mp (h.trans hv.symm)
  · rintro rfl
    exact hv

/-! ### Pairs -/

/-- The translated `auipc` at `p`, and an instruction with the lower half at `q` in any later
state, get at an address. -/
def PairBuilds (e : Env) (place : Base → BitVec 32) (s : State) (rel : SBTRelocation) (p : Nat)
    (s' : State) (rel' : SBTRelocation) (q : Nat) (rd : Reg) (imm : BitVec 20) (a : BitVec 32) :
    Prop :=
  ∃ c t u c' t' u', handleRelocation e s rel p = .ok (some c, t, u) ∧
    handleRelocation e s' rel' q = .ok (some c', t', u') ∧
    Builds a ⟨p, disasm (.auipc rd imm), some (c.eval place)⟩ rd q (c'.eval place)

/-- The types of the lower halves that name a label. -/
def RType.isPcrelLow : RType → Bool
  | .PCREL_LO12_I | .PCREL_LO12_S => true
  | _ => false

theorem Builds.sum {a x c : BitVec 32} {p q : Nat} {rd : Reg} {imm : BitVec 20} (hrd : rd ≠ 0)
    (h : Builds a ⟨p, disasm (.auipc rd imm), some x⟩ rd q c) :
    x <<< 12 + BitVec.ofNat 32 p + c = a := by
  have hrun := run_auipc p rd imm x
  generalize (⟨p, disasm (.auipc rd imm), some x⟩ : Translate.Instruction) = upper at h hrun
  obtain ⟨t, ht, hsum, -⟩ := h ⟨fun _ => 0, fun _ => 0⟩ fun _ => .undef
  obtain ⟨t', ht', hguest⟩ := hrun ⟨fun _ => 0, fun _ => 0⟩ fun _ => .undef
  obtain rfl := Option.some.inj (ht.symm.trans ht')
  rw [hguest] at hsum
  simpa [Isa.State.set, Isa.State.get, hrd] using hsum

theorem builds_auipc_iff {a x c : BitVec 32} {p q : Nat} {rd : Reg} {imm : BitVec 20}
    (hrd : rd ≠ 0) : Builds a ⟨p, disasm (.auipc rd imm), some x⟩ rd q c ↔
      x <<< 12 + BitVec.ofNat 32 p + c = a :=
  ⟨fun h => h.sum hrd, fun h => builds_of_upper hrd (run_auipc p rd imm x) h q⟩

section Pair
variable {r₁ r₂ : Reloc} {rel₁ rel₂ : SBTRelocation} {rd : Reg} {imm : BitVec 20}

theorem known_of_pcrelLow {type : RType} (h : type.isPcrelLow = true) : known type = true := by
  cases type with
  | PCREL_LO12_I | PCREL_LO12_S => rfl
  | _ => cases h

theorem formula_of_pcrelLow {type : RType} (h : type.isPcrelLow = true) (pc v : BitVec 32) :
    formula type pc v = lo12 (v - pc) := by
  cases type with
  | PCREL_LO12_I | PCREL_LO12_S => rfl
  | _ => cases h

theorem pcOf_of_pcrelLow (h : r₂.type.isPcrelLow = true) (addr : Nat) :
    pcOf r₂ addr = BitVec.ofNat 32 r₂.hiPC := by
  have hreads : r₂.type.readsHiPC = true := by
    generalize r₂.type = type at h
    cases type with
    | PCREL_LO12_I | PCREL_LO12_S => rfl
    | _ => cases h
  unfold pcOf
  rw [if_pos hreads]

/-- A pair that is handled, by the values of its symbols. -/
theorem pairBuilds_iff {a : BitVec 32} (hn₁ : rel.next p = .ok (some r₁, rel₁))
    (hn₂ : rel'.next q = .ok (some r₂, rel₂)) (ht₁ : r₁.type = .PCREL_HI20)
    (ht₂ : r₂.type.isPcrelLow = true) (hrd : rd ≠ 0) :
    PairBuilds e place s rel p s' rel' q rd imm a ↔
      ∃ v₁ l₁ t₁ v₂ l₂ t₂, symValue e s r₁ = .ok (v₁, l₁, t₁) ∧
        symValue e s' r₂ = .ok (v₂, l₂, t₂) ∧
        hi20 (v₁.eval place - BitVec.ofNat 32 p) <<< 12 + BitVec.ofNat 32 p +
          lo12 (v₂.eval place - BitVec.ofNat 32 r₂.hiPC) = a := by
  have hk₁ : known r₁.type = true := by rw [ht₁]; rfl
  have hpc₁ : pcOf r₁ p = BitVec.ofNat 32 p := by simp [pcOf, ht₁, RType.readsHiPC]
  constructor
  · rintro ⟨c, t, u, c', t', u', h, h', hb⟩
    obtain ⟨v₁, l₁, t₁, c₁, hv₁, hc₁, heval₁⟩ := handleRelocation_eval place hn₁ hk₁ h
    obtain ⟨v₂, l₂, t₂, c₂, hv₂, hc₂, heval₂⟩ :=
      handleRelocation_eval place hn₂ (known_of_pcrelLow ht₂) h'
    obtain rfl := Option.some.inj hc₁
    obtain rfl := Option.some.inj hc₂
    refine ⟨v₁, l₁, t₁, v₂, l₂, t₂, hv₁, hv₂, ?_⟩
    have hsum := hb.sum hrd
    rwa [heval₁, heval₂, ht₁, hpc₁, formula_of_pcrelLow ht₂, pcOf_of_pcrelLow ht₂,
      formula_PCREL_HI20] at hsum
  · rintro ⟨v₁, l₁, t₁, v₂, l₂, t₂, hv₁, hv₂, hsum⟩
    refine ⟨relfn r₁.type (pcOf r₁ p) v₁, t₁,
      {rel₁ with last := some r₁, lastSymVal := some (l₁.getD v₁)},
      relfn r₂.type (pcOf r₂ q) v₂, t₂,
      {rel₂ with last := some r₂, lastSymVal := some (l₂.getD v₂)}, ?_, ?_, ?_⟩
    · rw [handleRelocation_eq hn₁ hk₁, hv₁]
      rfl
    · rw [handleRelocation_eq hn₂ (known_of_pcrelLow ht₂), hv₂]
      rfl
    · rw [builds_auipc_iff hrd, relfn_eval (symValue_plain hv₁),
        relfn_eval (symValue_plain hv₂), ht₁,
        hpc₁, formula_of_pcrelLow ht₂, pcOf_of_pcrelLow ht₂, formula_PCREL_HI20]
      exact hsum

/-- **When a pair gets at its address**: if what is relocated at the lower half, less what is
read there, happens to have the low bits that are missing. -/
theorem pcrel_exact (hn₁ : rel.next p = .ok (some r₁, rel₁))
    (hn₂ : rel'.next q = .ok (some r₂, rel₂))
    (ht₁ : r₁.type = .PCREL_HI20) (ht₂ : r₂.type.isPcrelLow = true) (hrd : rd ≠ 0)
    {v₁ v₂ : Const} {l₁ l₂ : Option Const} {t₁ t₂ : State}
    (hv₁ : symValue e s r₁ = .ok (v₁, l₁, t₁)) (hv₂ : symValue e s' r₂ = .ok (v₂, l₂, t₂)) :
    PairBuilds e place s rel p s' rel' q rd imm (v₁.eval place) ↔
      (v₂.eval place - BitVec.ofNat 32 r₂.hiPC).toNat % 4096 =
        (v₁.eval place - BitVec.ofNat 32 p).toNat % 4096 := by
  rw [pairBuilds_iff hn₁ hn₂ ht₁ ht₂ hrd, ← lo12_inj]
  constructor
  · rintro ⟨v, l, t, v', l', t', hv, hv', hsum⟩
    obtain ⟨rfl, -⟩ := Prod.mk.inj (Except.ok.inj (hv.symm.trans hv₁))
    obtain ⟨rfl, -⟩ := Prod.mk.inj (Except.ok.inj (hv'.symm.trans hv₂))
    exact (upper_add_iff _ _ _).mp hsum
  · intro h
    exact ⟨v₁, l₁, t₁, v₂, l₂, t₂, hv₁, hv₂, (upper_add_iff _ _ _).mpr h⟩

/-- **A pair by way of its label does not get at any address for sure**: whatever the states
and the relocations, what it gets at depends on what lies in memory behind the relocation of
its lower half. -/
theorem pcrel_never (e : Env) (place : Base → BitVec 32) (s s' : State) (rel rel₁ : SBTRelocation)
    (rel' rel₂ : Nat → SBTRelocation) (r₁ r₂ : Reloc) (p q : Nat) (rd : Reg) (imm : BitVec 20)
    (a : BitVec 32) (hn₁ : rel.next p = .ok (some r₁, rel₁))
    (hn₂ : ∀ h, (rel' h).next q = .ok (some {r₂ with hiPC := h}, rel₂ h))
    (ht₁ : r₁.type = .PCREL_HI20) (ht₂ : r₂.type.isPcrelLow = true) (hrd : rd ≠ 0) :
    ¬ ∀ h, PairBuilds e place s rel p s' (rel' h) q rd imm a := by
  intro hall
  obtain ⟨v₁, l₁, t₁, v₂, l₂, t₂, hv₁, hv₂, hsum⟩ :=
    (pairBuilds_iff hn₁ (hn₂ 0) ht₁ ht₂ hrd).mp (hall 0)
  obtain ⟨v₁', l₁', t₁', v₂', l₂', t₂', hv₁', hv₂', hsum'⟩ :=
    (pairBuilds_iff hn₁ (hn₂ 1) ht₁ ht₂ hrd).mp (hall 1)
  obtain ⟨rfl, -⟩ := Prod.mk.inj (Except.ok.inj (hv₁.symm.trans hv₁'))
  -- The value of the label is the same, whatever lies behind its relocation.
  have heq : symValue e s' {r₂ with hiPC := 0} = symValue e s' {r₂ with hiPC := 1} := rfl
  obtain ⟨rfl, -⟩ := Prod.mk.inj (Except.ok.inj (hv₂.symm.trans (heq.trans hv₂')))
  exact lo12_pred _ ((BitVec.add_right_inj _).mp (hsum.trans hsum'.symm))

end Pair

/-- An `auipc` of a symbol at 16, and the instruction behind it, that names its label. -/
def upperPart : Reloc :=
  ⟨16, .PCREL_HI20, 0, some ⟨"far", 0x1804, false⟩, some ⟨".text", true, 0x2000⟩, 0⟩

def lowerPart : Reloc :=
  ⟨20, .PCREL_LO12_I, 0, some ⟨".L0", 16, false⟩, some ⟨".text", true, 0x2000⟩, 0⟩

theorem lowerPart_next (h : Nat) :
    SBTRelocation.next {relocs := [{lowerPart with hiPC := h}]} 20 =
      .ok (some {lowerPart with hiPC := h}, {relocs := []}) := rfl

theorem pair_undefined :
    ¬ ∀ h, PairBuilds dataEnv (fun _ => 0) noFunctions {relocs := [upperPart]} 16 noFunctions
      {relocs := [{lowerPart with hiPC := h}]} 20 10 0 0x1804 :=
  pcrel_never dataEnv (fun _ => 0) noFunctions noFunctions {relocs := [upperPart]} {relocs := []}
    (fun h => {relocs := [{lowerPart with hiPC := h}]}) (fun _ => {relocs := []}) upperPart
    lowerPart 16 20 10 0 0x1804 rfl lowerPart_next rfl rfl (by decide)

/-- Even if memory holds a zero there, the pair gets at 0x1020 and not at `far`. -/
theorem far_missed :
    PairBuilds dataEnv (fun _ => 0) noFunctions {relocs := [upperPart]} 16 noFunctions
        {relocs := [lowerPart]} 20 10 0 0x1020 ∧
      ¬ PairBuilds dataEnv (fun _ => 0) noFunctions {relocs := [upperPart]} 16 noFunctions
        {relocs := [lowerPart]} 20 10 0 0x1804 := by
  have hn₁ : SBTRelocation.next {relocs := [upperPart]} 16 = .ok (some upperPart, {relocs := []}) :=
    rfl
  have hn₂ := lowerPart_next 0
  have hv₁ : symValue dataEnv noFunctions upperPart = .ok (.int 0x1804, none, noFunctions) := rfl
  have hv₂ : symValue dataEnv noFunctions lowerPart = .ok (.int 16, none, noFunctions) := rfl
  constructor
  · refine (pairBuilds_iff hn₁ hn₂ rfl rfl (by decide)).mpr ⟨_, _, _, _, _, _, hv₁, hv₂, ?_⟩
    decide
  · intro h
    exact absurd ((pcrel_exact hn₁ hn₂ rfl rfl (by decide) hv₁ hv₂).mp h) (by decide)

end RiscvSbt.Relocation
