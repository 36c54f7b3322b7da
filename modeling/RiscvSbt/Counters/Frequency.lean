import RiscvSbt.Counters.Brand
import Mathlib.Tactic.NormNum
import Mathlib.Data.List.Induction

/-! The frequency that is found in a brand string that ends in one.

The number to the right of the point is added as it stands: it is taken for thousandths, whatever
the number of its digits. -/
namespace RiscvSbt.Counters

/-- A frequency in GHz, by the digits on both sides of its point. -/
structure Frequency where
  ls : List Char
  rs : List Char
  ls_digits : ∀ c ∈ ls, c.isDigit = true
  rs_digits : ∀ c ∈ rs, c.isDigit = true
  ls_ne : ls ≠ []
  rs_ne : rs ≠ []
  rs_length : rs.length ≤ 3

namespace Frequency
variable (f : Frequency)

def text : List Char := f.ls ++ '.' :: (f.rs ++ ['G', 'H', 'z'])

/-- The decimal number times 1000. -/
def mhz : Nat := decimal f.ls * 1000 + decimal f.rs * 10 ^ (3 - f.rs.length)

end Frequency

/-- The brand string ends in a frequency, behind a space. -/
def EndsIn (cpuid : BitVec 32 → Cpuid) (f : Frequency) : Prop :=
  ∃ pre n, loop cpuid = pre ++ ' ' :: (f.text ++ List.replicate n '\x00')

variable {cpuid : BitVec 32 → Cpuid} {f : Frequency} {s : List Char}

/-! ### Numbers -/

theorem takeWhile_digits {ds : List Char} (hds : ∀ c ∈ ds, c.isDigit = true) {c : Char}
    (hc : c.isDigit = false) (rest : List Char) :
    (ds ++ c :: rest).takeWhile Char.isDigit = ds ∧
      (ds ++ c :: rest).dropWhile Char.isDigit = c :: rest := by
  induction ds with
  | nil => simp [hc]
  | cons d ds ih =>
    have hd := hds d List.mem_cons_self
    have ih := ih fun d' hd' => hds d' (List.mem_cons_of_mem _ hd')
    simp [hd, ih.1, ih.2]

/-- A digit is neither a space nor a sign. -/
theorem digit_ne {c d : Char} (hc : c.isDigit = true) (hd : d.isDigit = false) : c ≠ d := by
  rintro rfl
  rw [hc] at hd
  cases hd

theorem isSpace_digit {c : Char} (hc : c.isDigit = true) : isSpace c = false := by
  have hspaces : [' ', '\t', '\n', '\x0b', '\x0c', '\r'].all (fun d => !d.isDigit) = true := rfl
  refine decide_eq_false fun hmem => ?_
  have hnot := List.all_eq_true.1 hspaces c hmem
  rw [hc] at hnot
  cases hnot

theorem scanInt_digits {ds : List Char} (hds : ∀ c ∈ ds, c.isDigit = true) (hne : ds ≠ [])
    {c : Char} (hc : c.isDigit = false) (rest : List Char) :
    scanInt (ds ++ c :: rest) = some ((decimal ds : ℤ), c :: rest) := by
  obtain ⟨htake, hdrop⟩ := takeWhile_digits hds hc rest
  cases ds with
  | nil => exact absurd rfl hne
  | cons d ds =>
    have hd := hds d List.mem_cons_self
    have hspace : (d :: ds ++ c :: rest).dropWhile isSpace = d :: (ds ++ c :: rest) := by
      rw [List.cons_append, List.dropWhile_cons_of_neg (by simp [isSpace_digit hd])]
    have hsign : sign (d :: (ds ++ c :: rest)) = (false, d :: ds ++ c :: rest) := by
      have hminus : d ≠ '-' := digit_ne hd (by decide)
      have hplus : d ≠ '+' := digit_ne hd (by decide)
      unfold sign
      split
      next heq => exact absurd (List.cons.inj heq).1 hminus
      next heq => exact absurd (List.cons.inj heq).1 hplus
      next => rfl
    simp only [scanInt, hspace, hsign, htake, hdrop]
    rfl

theorem sscanf_text (f : Frequency) :
    sscanf f.text = some ((decimal f.ls : ℤ), (decimal f.rs : ℤ), 'G') := by
  have hl := scanInt_digits f.ls_digits f.ls_ne (c := '.') (by decide) (f.rs ++ ['G', 'H', 'z'])
  have hr := scanInt_digits f.rs_digits f.rs_ne (c := 'G') (by decide) ['H', 'z']
  simp only [sscanf, Frequency.text, hl, hr]

/-- Digits left of the point. -/
theorem decimal_lt {ds : List Char} (hds : ∀ c ∈ ds, c.isDigit = true) :
    decimal ds < 10 ^ ds.length := by
  induction ds using List.reverseRecOn with
  | nil => decide
  | append_singleton ds c ih =>
    have hc := hds c (List.mem_append_right _ List.mem_cons_self)
    have ih := ih fun d hd => hds d (List.mem_append_left _ hd)
    have hval : c.toNat - 48 < 10 := by
      have hle : c.val ≤ 57 := (of_decide_eq_true (Bool.and_eq_true _ _ ▸ hc).2)
      have hle : c.toNat ≤ 57 := hle
      omega
    rw [decimal, List.foldl_append, List.length_append, List.length_singleton, Nat.pow_succ]
    show 10 * decimal ds + (c.toNat - 48) < _
    omega

/-! ### The scan -/

theorem loop_length (cpuid : BitVec 32 → Cpuid) : (loop cpuid).length = 48 := rfl

/-- The backward scan stops behind the last space. -/
theorem loop2_eq {pre suf : List Char} (hsuf : ' ' ∉ suf) {esi : Nat} (hlt : pre.length < esi) :
    loop2 (pre ++ ' ' :: suf) esi = some (pre.length + 1) := by
  induction esi with
  | zero => cases hlt
  | succ esi ih =>
    rw [loop2]
    rcases Nat.lt_or_eq_of_le (Nat.le_of_lt_succ hlt) with hlt | rfl
    · have hget : (pre ++ ' ' :: suf)[esi]? ≠ some ' ' := by
        obtain ⟨k, hk⟩ : ∃ k, esi - pre.length = k + 1 := ⟨esi - pre.length - 1, by omega⟩
        rw [List.getElem?_append_right (Nat.le_of_lt hlt), hk, List.getElem?_cons_succ]
        exact fun hget => hsuf (List.mem_of_getElem? hget)
      rw [if_neg hget, ih hlt]
    · rw [List.getElem?_append_right (Nat.le_refl _), Nat.sub_self, List.getElem?_cons_zero,
        if_pos rfl]

theorem space_notMem_digits {ds : List Char} (hds : ∀ c ∈ ds, c.isDigit = true) : ' ' ∉ ds :=
  fun hmem => digit_ne (hds _ hmem) (d := ' ') (by decide) rfl

theorem nul_notMem_digits {ds : List Char} (hds : ∀ c ∈ ds, c.isDigit = true) : '\x00' ∉ ds :=
  fun hmem => digit_ne (hds _ hmem) (d := '\x00') (by decide) rfl

theorem space_notMem_text (f : Frequency) : ' ' ∉ f.text := by
  have hls := space_notMem_digits f.ls_digits
  have hrs := space_notMem_digits f.rs_digits
  simp [Frequency.text, hls, hrs]

theorem nul_notMem_text (f : Frequency) : '\x00' ∉ f.text := by
  have hls := nul_notMem_digits f.ls_digits
  have hrs := nul_notMem_digits f.rs_digits
  simp [Frequency.text, hls, hrs]

/-- A C string in a buffer. -/
theorem takeWhile_nul {s : List Char} (hs : '\x00' ∉ s) (n : Nat) :
    (s ++ List.replicate n '\x00').takeWhile (· ≠ '\x00') = s := by
  have hall : ∀ c ∈ s, decide (c ≠ '\x00') = true := by
    rintro c hc
    exact decide_eq_true fun heq => hs (heq ▸ hc)
  rw [List.takeWhile_append_of_pos hall]
  cases n with
  | zero => rw [List.replicate_zero, List.takeWhile_nil, List.append_nil]
  | succ n =>
    rw [List.replicate_succ, List.takeWhile_cons_of_neg (by decide), List.append_nil]

/-- The number of GHz, that is stored as an `int`, and the digits on the right. -/
theorem counters_init_eq (h : EndsIn cpuid f) (out : ℤ → BitVec 32) :
    counters_init cpuid out =
      .freq (toInt out (decimal f.ls) * 1000 + toInt out (decimal f.rs)) := by
  obtain ⟨pre, n, hloop⟩ := h
  have hbuf : loop cpuid ++ List.replicate 16 '\x00' =
      pre ++ ' ' :: (f.text ++ List.replicate (n + 16) '\x00') := by
    rw [hloop, List.append_assoc, List.cons_append, List.append_assoc,
      List.replicate_append_replicate]
  have hlength := congrArg List.length hloop
  have htext : 4 ≤ f.text.length := by
    simp only [Frequency.text, List.length_append, List.length_cons, List.length_nil]
    omega
  rw [loop_length, List.length_append, List.length_cons, List.length_append] at hlength
  have hsuf : ' ' ∉ f.text ++ List.replicate (n + 16) '\x00' := by
    have htext := space_notMem_text f
    simp [htext]
  have hlt : pre.length < 47 := by omega
  have hscan := loop2_eq hsuf hlt
  have hdrop : (pre ++ ' ' :: (f.text ++ List.replicate (n + 16) '\x00')).drop (pre.length + 1) =
      f.text ++ List.replicate (n + 16) '\x00' := by
    rw [List.drop_append, List.drop_of_length_le (Nat.le_succ _), Nat.add_sub_cancel_left]
    rfl
  simp only [counters_init, hbuf, hscan, hdrop, takeWhile_nul (nul_notMem_text f), sscanf_text,
    if_true]

/-! ### The frequency -/

theorem toInt_of_lt (out : ℤ → BitVec 32) {n : Nat} (hn : n < 2 ^ 31) :
    toInt out n = BitVec.ofNat 32 n := by
  rw [toInt, if_pos (by omega)]
  exact BitVec.ofInt_natCast 32 n

theorem decimal_rs_lt (f : Frequency) : decimal f.rs < 1000 :=
  Nat.lt_of_lt_of_le (decimal_lt f.rs_digits) (Nat.pow_le_pow_right (by decide) f.rs_length)

/-- What the sum is, where it fits. -/
theorem freq_toNat (out : ℤ → BitVec 32) {l r : Nat} (hl : l < 2 ^ 31) (hr : r < 1000) :
    (toInt out l * 1000 + toInt out r).toNat = (l * 1000 + r) % 2 ^ 32 := by
  rw [toInt_of_lt out hl, toInt_of_lt out (Nat.lt_trans hr (by decide))]
  simp [BitVec.toNat_add, BitVec.toNat_mul]

/-- Fewer than three digits are taken for too little. -/
theorem mhz_eq_iff (f : Frequency) :
    f.mhz = decimal f.ls * 1000 + decimal f.rs ↔ f.rs.length = 3 ∨ decimal f.rs = 0 := by
  have hlength := f.rs_length
  rw [Frequency.mhz, Nat.add_left_cancel_iff]
  constructor
  · intro heq
    by_contra hnot
    obtain ⟨hne, hzero⟩ := not_or.1 hnot
    have hpow : 10 ^ 1 ≤ 10 ^ (3 - f.rs.length) := Nat.pow_le_pow_right (by decide) (by omega)
    have hmul := Nat.mul_le_mul_left (decimal f.rs) hpow
    omega
  · rintro (hthree | hzero)
    · rw [hthree, Nat.sub_self, Nat.pow_zero, Nat.mul_one]
    · rw [hzero, Nat.zero_mul]

theorem le_mhz (f : Frequency) : decimal f.ls * 1000 + decimal f.rs ≤ f.mhz := by
  have hpow : 0 < 10 ^ (3 - f.rs.length) := Nat.pow_pos (by decide)
  exact Nat.add_le_add_left (Nat.le_mul_of_pos_right _ hpow) _

/-- `freq` is the decimal number times 1000 exactly if there are three digits to the right of the
point, or nothing but zeros, and the number is one of 32 bits. -/
theorem freq_iff (h : EndsIn cpuid f) (out : ℤ → BitVec 32) :
    (∃ w, counters_init cpuid out = .freq w ∧ w.toNat = f.mhz) ↔
      (f.rs.length = 3 ∨ decimal f.rs = 0) ∧ f.mhz < 2 ^ 32 := by
  rw [counters_init_eq h out]
  have hle := le_mhz f
  have hrs := decimal_rs_lt f
  constructor
  · rintro ⟨w, heq, hw⟩
    obtain rfl := Outcome.freq.inj heq
    have hfits : f.mhz < 2 ^ 32 := hw ▸ BitVec.isLt _
    rw [freq_toNat out (by omega) hrs, Nat.mod_eq_of_lt (by omega)] at hw
    exact ⟨(mhz_eq_iff f).1 hw.symm, hfits⟩
  · rintro ⟨hdigits, hfits⟩
    refine ⟨_, rfl, ?_⟩
    rw [freq_toNat out (by omega) hrs, Nat.mod_eq_of_lt (by omega)]
    exact ((mhz_eq_iff f).2 hdigits).symm

/-- CPUs whose brand strings, `Intel(R) Core(TM) i7-4790 CPU @ 3.60GHz` and the like, differ in
their last part only. -/
def core (eax ebx : BitVec 32) : BitVec 32 → Cpuid
  | 0x80000002 => ⟨0x65746e49, 0x2952286c, 0x726f4320, 0x4d542865⟩
  | 0x80000003 => ⟨0x37692029, 0x3937342d, 0x50432030, 0x20402055⟩
  | _ => ⟨eax, ebx, 0, 0⟩

theorem freq_of_three_digits :
    ∃ w, counters_init (core 0x30362e33 0x7a484730) (fun _ => 0) = .freq w ∧ w.toNat = 3600 := by
  let f : Frequency :=
    ⟨['3'], ['6', '0', '0'], List.all_eq_true.1 rfl, List.all_eq_true.1 rfl, by decide, by decide,
      by decide⟩
  have h : EndsIn (core 0x30362e33 0x7a484730) f :=
    ⟨"Intel(R) Core(TM) i7-4790 CPU @".toList, 8, by decide⟩
  have hmhz : f.mhz = 3600 := by decide
  exact hmhz ▸ (freq_iff h fun _ => 0).2 ⟨.inl rfl, by decide⟩

/-- 3.60 GHz is 3060. -/
theorem freq_of_two_digits :
    ∃ f : Frequency, f.mhz = 3600 ∧ EndsIn (core 0x30362e33 0x7a4847) f ∧
      counters_init (core 0x30362e33 0x7a4847) (fun _ => 0) = .freq 3060 := by
  let f : Frequency :=
    ⟨['3'], ['6', '0'], List.all_eq_true.1 rfl, List.all_eq_true.1 rfl, by decide, by decide,
      by decide⟩
  have h : EndsIn (core 0x30362e33 0x7a4847) f :=
    ⟨"Intel(R) Core(TM) i7-4790 CPU @".toList, 9, by decide⟩
  refine ⟨f, by decide, h, ?_⟩
  rw [counters_init_eq h]
  decide

end RiscvSbt.Counters
