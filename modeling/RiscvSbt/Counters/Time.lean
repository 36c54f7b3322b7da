import RiscvSbt.Counters.X86
import RiscvSbt.Library.Division

/-! The time: the cycles, divided in two steps.

The high word of the cycles is divided first. Its remainder is below the divisor, so that the
second division does not overflow. -/
namespace RiscvSbt.Counters
open Library

/-- A quotient fits if the high part is below the divisor. -/
theorem div_eq (edx eax ebx : BitVec 32) (hlt : edx.toNat < ebx.toNat) :
    ∃ q r, div edx eax ebx = some (q, r) ∧
      q.toNat = (edx.toNat * 2 ^ 32 + eax.toNat) / ebx.toNat ∧
      r.toNat = (edx.toNat * 2 ^ 32 + eax.toNat) % ebx.toNat := by
  have hpos : 0 < ebx.toNat := Nat.zero_lt_of_lt hlt
  have hne : ebx ≠ 0 := fun h => Nat.ne_of_gt hpos (congrArg BitVec.toNat h)
  have hq := Division.digit_lt hlt eax.isLt
  have hr := Nat.mod_lt (edx.toNat * 2 ^ 32 + eax.toNat) hpos
  refine ⟨_, _, ?_, (BitVec.toNat_ofNat _ 32).trans (Nat.mod_eq_of_lt hq),
    (BitVec.toNat_ofNat _ 32).trans (Nat.mod_eq_of_lt (Nat.lt_trans hr ebx.isLt))⟩
  exact if_neg (not_or.2 ⟨hne, Nat.not_le.2 hq⟩)

/-- `get_time` divides the cycles: by a frequency in MHz, that makes microseconds. -/
theorem get_time_eq {freq : BitVec 32} (hfreq : 0 < freq.toNat) (edx eax : BitVec 32) :
    ∃ hi lo, get_time freq edx eax = some (hi, lo) ∧
      hi.toNat * 2 ^ 32 + lo.toNat = (edx.toNat * 2 ^ 32 + eax.toNat) / freq.toNat := by
  obtain ⟨hi, rem, hfirst, hhi, hrem⟩ := div_eq 0 edx freq hfreq
  have hzero : (0 : BitVec 32).toNat = 0 := rfl
  rw [hzero, Nat.zero_mul, Nat.zero_add] at hhi hrem
  -- The remainder of the high part is below the divisor: the second division does not overflow.
  have hlt : rem.toNat < freq.toNat := hrem ▸ Nat.mod_lt _ hfreq
  obtain ⟨lo, rest, hsecond, hlo, -⟩ := div_eq rem eax freq hlt
  refine ⟨hi, lo, ?_, ?_⟩
  · simp only [get_time, hfirst, Option.bind_eq_bind, Option.bind_some, hsecond]
    rfl
  · rw [hlo, hhi, hrem]
    exact Division.quotient_two hfreq (2 ^ 32) edx.toNat eax.toNat

namespace X86
variable (cpu : Cpu) (regs : Registers) (k f : BitVec 32) (stack : List (BitVec 32))

def Cpu.high : BitVec 32 := cpu.cycles.extractLsb' 32 32

def Cpu.low : BitVec 32 := cpu.cycles.extractLsb' 0 32

theorem high_low : cpu.high.toNat * 2 ^ 32 + cpu.low.toNat = cpu.cycles.toNat := by
  have hlt := cpu.cycles.isLt
  simp only [Cpu.high, Cpu.low, BitVec.extractLsb'_toNat, Nat.shiftRight_eq_div_pow]
  omega

/-- `get_cycles` returns the cycles in `edx:eax`, and `ebx` as it was. -/
theorem get_cycles_run : iterate (step cpu) 6 ⟨Label.get_cycles, regs, k :: stack, f⟩ =
    .ok ⟨k, ⟨cpu.low, regs.ebx, (cpu.cpuid (regs.eax ^^^ regs.eax) regs.ecx).ecx, cpu.high⟩,
      stack, f⟩ := rfl

/-- Up to the call of `get_cycles`. -/
theorem call_run : iterate (step cpu) 3 ⟨Label.get_time, regs, stack, f⟩ =
    .ok ⟨Label.get_cycles, {regs with ebx := f}, 9 :: regs.ebx :: stack, f⟩ := rfl

/-- From its return on: the high word is divided, and the low one is on the stack. -/
theorem time_hi_run (lo ebx ecx hi : BitVec 32) :
    iterate (step cpu) 4 ⟨9, ⟨lo, ebx, ecx, hi⟩, stack, f⟩ =
      (div 0 hi ebx).elim (.error .divide) fun t => .ok ⟨13, ⟨t.1, ebx, ecx, t.2⟩,
      lo :: stack, f⟩ := by
  have hxor : iterate (step cpu) 3 ⟨9, ⟨lo, ebx, ecx, hi⟩, stack, f⟩ =
      .ok ⟨12, ⟨hi, ebx, ecx, hi ^^^ hi⟩, lo :: stack, f⟩ := rfl
  rw [iterate_append hxor 1, BitVec.xor_self]
  show (exec cpu ⟨13, ⟨hi, ebx, ecx, 0⟩, lo :: stack, f⟩ (.div .ebx) >>= pure) = _
  unfold exec
  cases h : div 0 hi ebx <;> simp only [Registers.get, h] <;> rfl

/-- The low word behind the remainder is divided. -/
theorem time_lo_run (hi ebx ecx rem lo b : BitVec 32) :
    iterate (step cpu) 6 ⟨13, ⟨hi, ebx, ecx, rem⟩, lo :: b :: k :: stack, f⟩ =
      (div rem lo ebx).elim (.error .divide) fun t => .ok ⟨k, ⟨t.1, b, hi, hi⟩, stack, f⟩ := by
  have hpop : iterate (step cpu) 2 ⟨13, ⟨hi, ebx, ecx, rem⟩, lo :: b :: k :: stack, f⟩ =
      .ok ⟨15, ⟨lo, ebx, hi, rem⟩, b :: k :: stack, f⟩ := rfl
  rw [iterate_append hpop 4]
  show (exec cpu ⟨16, ⟨lo, ebx, hi, rem⟩, b :: k :: stack, f⟩ (.div .ebx) >>=
    iterate (step cpu) 3) = _
  unfold exec
  cases h : div rem lo ebx <;> simp only [Registers.get, h] <;> rfl

/-- **The code refines the function**, and its divide error is that this fails. -/
theorem get_time_run : iterate (step cpu) 19 ⟨Label.get_time, regs, k :: stack, f⟩ =
    (get_time f cpu.high cpu.low).elim (.error .divide) fun t =>
      .ok ⟨k, ⟨t.2, regs.ebx, t.1, t.1⟩, stack, f⟩ := by
  have hparts : 19 = 3 + (6 + (4 + 6)) := rfl
  have hhi := time_hi_run cpu f (regs.ebx :: k :: stack) cpu.low f
    (cpu.cpuid (regs.eax ^^^ regs.eax) regs.ecx).ecx cpu.high
  rw [hparts, iterate_append (call_run cpu regs f (k :: stack)), iterate_append (get_cycles_run ..)]
  unfold get_time
  cases hfirst : div 0 cpu.high f with
  | none =>
    rw [hfirst] at hhi
    rw [iterate_add, hhi]
    rfl
  | some t =>
    rw [hfirst] at hhi
    rw [iterate_append hhi, time_lo_run]
    simp only [Option.bind_eq_bind, Option.bind_some]
    cases div t.2 cpu.low f <;> rfl

/-- **The time division.** Called with a frequency, `get_time` runs to its end: neither division
fails, and it returns the quotient of the cycles in `edx:eax`, with `ebx` as it was. -/
theorem get_time_divides (cpu : Cpu) (s : State) (hpc : s.pc = Label.get_time)
    (hstack : s.stack ≠ []) (hfreq : s.freq ≠ 0) :
    (∀ n ≤ 19, ∃ u, iterate (step cpu) n s = .ok u) ∧
      ∃ t, iterate (step cpu) 19 s = .ok t ∧ Returned s t ∧
        t.regs.wide = cpu.cycles.toNat / s.freq.toNat := by
  obtain ⟨pc, regs, stack, freq⟩ := s
  obtain rfl : pc = Label.get_time := hpc
  obtain ⟨k, stack, rfl⟩ := List.exists_cons_of_ne_nil hstack
  have hpos : 0 < freq.toNat := Nat.pos_of_ne_zero fun h => hfreq (BitVec.eq_of_toNat_eq h)
  obtain ⟨hi, lo, htime, hquotient⟩ := get_time_eq hpos cpu.high cpu.low
  have hrun := get_time_run cpu regs k freq stack
  rw [htime] at hrun
  rw [high_low] at hquotient
  exact ⟨fun n hn => iterate_le hrun hn, _, hrun, ⟨rfl, rfl, rfl⟩, hquotient⟩

/-- The most cycles, at 3 MHz. -/
theorem get_time_of_three : ∃ t, iterate (step ⟨fun _ _ => ⟨0, 0, 0, 0⟩, -1⟩) 19
      ⟨Label.get_time, ⟨1, 2, 3, 4⟩, [5], 3⟩ = .ok t ∧
    t.pc = 5 ∧ t.regs.ebx = 2 ∧ t.regs.wide = 0x5555555555555555 := by
  obtain ⟨-, t, hrun, hret, hwide⟩ := get_time_divides ⟨fun _ _ => ⟨0, 0, 0, 0⟩, -1⟩
    ⟨Label.get_time, ⟨1, 2, 3, 4⟩, [5], 3⟩ rfl (by decide) (by decide)
  exact ⟨t, hrun, (List.cons.inj hret.stack).1.symm, hret.ebx, hwide⟩

end X86
end RiscvSbt.Counters
