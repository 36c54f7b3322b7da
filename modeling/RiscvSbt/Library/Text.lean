import Mathlib.Data.List.Basic
import Mathlib.Algebra.GroupWithZero.Nat

/-! Characters in lists: searching, lines and hexadecimal numbers. -/
namespace RiscvSbt.Library

variable {s l rest : List Char} {c : Char}

/-! ### Searching -/

/-- The index of the first `c` from `i` on. -/
def find (s : List Char) (c : Char) (i : Nat) : Option Nat :=
  ((s.drop i).findIdx? (· == c)).map (· + i)

/-- At most `n` characters from `start` on, or all. -/
def substr (s : List Char) (start : Nat) : Option Nat → List Char
  | none => s.drop start
  | some n => (s.drop start).take n

theorem find_append (hl : c ∉ l) (rest : List Char) :
    find (l ++ c :: rest) c 0 = some l.length := by
  have hidx : (l ++ c :: rest).findIdx? (· == c) = some l.length := by
    rw [List.findIdx?_append]
    have hnone : l.findIdx? (· == c) = none := List.findIdx?_eq_none_iff.2 fun a ha => by
      simpa using fun heq : a = c => hl (heq ▸ ha)
    simp [hnone, List.findIdx?_cons]
  simp [find, hidx]

theorem find_none {i : Nat} (h : find s c i = none) : c ∉ s.drop i := by
  intro hmem
  have hnone := List.findIdx?_eq_none_iff.1 (Option.map_eq_none_iff.1 h) c hmem
  simp at hnone

theorem find_some {i pos : Nat} (h : find s c i = some pos) :
    ∃ l rest, s.drop i = l ++ c :: rest ∧ c ∉ l ∧ pos = i + l.length := by
  obtain ⟨k, hk, rfl⟩ := Option.map_eq_some_iff.1 h
  obtain ⟨hlt, hget, hbefore⟩ := List.findIdx?_eq_some_iff_getElem.1 hk
  have hc : (s.drop i)[k] = c := by simpa using hget
  refine ⟨(s.drop i).take k, (s.drop i).drop (k + 1), ?_, fun hmem => ?_, ?_⟩
  · rw [← hc, List.getElem_cons_drop, List.take_append_drop]
  · obtain ⟨j, hj, heq⟩ := List.mem_iff_getElem.1 hmem
    rw [List.length_take] at hj
    rw [List.getElem_take] at heq
    have hne := hbefore j (by omega)
    simp [heq] at hne
  · rw [List.length_take, Nat.min_eq_left (Nat.le_of_lt hlt), Nat.add_comm]

/-! ### Lines -/

/-- The lines of a text with their newlines, and what is behind the last newline. -/
def lines : List Char → List (List Char)
  | [] => [[]]
  | c :: cs =>
    if c = '\n' then ['\n'] :: lines cs
    else match lines cs with
      | [] => [[c]]
      | l :: ls => (c :: l) :: ls

theorem lines_line (hl : '\n' ∉ l) (rest : List Char) :
    lines (l ++ '\n' :: rest) = (l ++ ['\n']) :: lines rest := by
  induction l with
  | nil => simp [lines]
  | cons c l ih =>
    have hc : c ≠ '\n' := fun heq => hl (heq ▸ List.mem_cons_self)
    rw [List.cons_append, lines, if_neg hc, ih fun hmem => hl (List.mem_cons_of_mem _ hmem)]
    rfl

/-- A text that is made of lines falls into these. -/
theorem lines_flatMap {ls : List (List Char)} (h : ∀ l ∈ ls, '\n' ∉ l) (rest : List Char) :
    lines (ls.flatMap (· ++ ['\n']) ++ rest) = ls.map (· ++ ['\n']) ++ lines rest := by
  induction ls with
  | nil => rfl
  | cons l ls ih =>
    rw [List.flatMap_cons, List.append_assoc, List.append_assoc, List.singleton_append,
      lines_line (h l List.mem_cons_self), ih fun l' hl' => h l' (List.mem_cons_of_mem _ hl')]
    rfl

theorem lines_tail (hl : '\n' ∉ l) : lines l = [l] := by
  induction l with
  | nil => rfl
  | cons c l ih =>
    have hc : c ≠ '\n' := fun heq => hl (heq ▸ List.mem_cons_self)
    rw [lines, if_neg hc, ih fun hmem => hl (List.mem_cons_of_mem _ hmem)]

/-! ### Hexadecimal numbers -/

def hexDigit (d : Nat) : Char := if d < 10 then Char.ofNat (48 + d) else Char.ofNat (55 + d)

/-- The value of a digit, upper or lower case. -/
def digitValue (c : Char) : Option Nat :=
  let n := c.toNat
  if 48 ≤ n ∧ n ≤ 57 then some (n - 48)
  else if 65 ≤ n ∧ n ≤ 70 then some (n - 55)
  else if 97 ≤ n ∧ n ≤ 102 then some (n - 87)
  else none

theorem digitValue_hexDigit {d : Nat} (h : d < 16) : digitValue (hexDigit d) = some d := by
  have hall : ∀ d : Fin 16, digitValue (hexDigit d.val) = some d.val := by decide
  exact hall ⟨d, h⟩

def hexDigits (n : Nat) : List Char :=
  if n < 16 then [hexDigit n] else hexDigits (n / 16) ++ [hexDigit (n % 16)]
termination_by n

/-- At least four digits, in upper case. -/
def hex4 (n : Nat) : List Char := List.replicate (4 - (hexDigits n).length) '0' ++ hexDigits n

/-- The digits' value from `n` on. -/
def hexFrom : Nat → List Char → Option Nat
  | n, [] => some n
  | n, c :: cs => (digitValue c).bind fun d => hexFrom (16 * n + d) cs

/-- A number of at least one digit. -/
def hexValue : List Char → Option Nat
  | [] => none
  | cs => hexFrom 0 cs

theorem hexFrom_append (n : Nat) (cs ds : List Char) :
    hexFrom n (cs ++ ds) = (hexFrom n cs).bind fun m => hexFrom m ds := by
  induction cs generalizing n with
  | nil => rfl
  | cons c cs ih =>
    cases hc : digitValue c with
    | none => simp [hexFrom, hc]
    | some d => simp [hexFrom, hc, ih]

theorem hexFrom_hexDigits (n : Nat) : hexFrom 0 (hexDigits n) = some n := by
  induction n using Nat.strongRecOn with
  | ind n ih =>
    rw [hexDigits]
    split
    next h => simp [hexFrom, digitValue_hexDigit h]
    next h =>
      rw [hexFrom_append, ih (n / 16) (by omega), Option.bind_some]
      simp only [hexFrom, digitValue_hexDigit (Nat.mod_lt n (by decide)), Option.bind_some]
      rw [Nat.div_add_mod]

theorem hexFrom_zeros (k : Nat) (cs : List Char) :
    hexFrom 0 (List.replicate k '0' ++ cs) = hexFrom 0 cs := by
  induction k with
  | zero => rfl
  | succ k ih =>
    rw [List.replicate_succ, List.cons_append]
    exact ih

theorem hexDigits_ne_nil (n : Nat) : hexDigits n ≠ [] := by
  rw [hexDigits]
  split <;> simp

/-- A number is read back. -/
theorem hexValue_hex4 (n : Nat) : hexValue (hex4 n) = some n := by
  have hne : hex4 n ≠ [] := fun h => hexDigits_ne_nil n (List.append_eq_nil_iff.1 h).2
  unfold hexValue
  split
  next h => exact absurd h hne
  next => rw [hex4, hexFrom_zeros, hexFrom_hexDigits]

theorem hexDigits_length {n k : Nat} (h : n < 16 ^ (k + 1)) : (hexDigits n).length ≤ k + 1 := by
  induction k generalizing n with
  | zero =>
    have h16 : n < 16 := h
    rw [hexDigits, if_pos h16]
    exact Nat.le_refl _
  | succ k ih =>
    rw [hexDigits]
    split
    next => simp
    next =>
      have hdiv : n / 16 < 16 ^ (k + 1) := Nat.div_lt_of_lt_mul (by rwa [Nat.pow_succ'] at h)
      rw [List.length_append, List.length_singleton]
      exact Nat.succ_le_succ (ih hdiv)

theorem mem_hexDigits {n : Nat} (h : c ∈ hexDigits n) : ∃ d < 16, c = hexDigit d := by
  induction n using Nat.strongRecOn with
  | ind n ih =>
    rw [hexDigits] at h
    split at h
    next hlt => exact ⟨n, hlt, List.mem_singleton.1 h⟩
    next hge =>
      rcases List.mem_append.1 h with h | h
      · exact ih (n / 16) (by omega) h
      · exact ⟨n % 16, Nat.mod_lt n (by decide), List.mem_singleton.1 h⟩

/-- All characters of a printed number are digits. -/
theorem digitValue_of_mem_hex4 {n : Nat} (h : c ∈ hex4 n) : digitValue c ≠ none := by
  rcases List.mem_append.1 h with h | h
  · rw [(List.mem_replicate.1 h).2]
    decide
  · obtain ⟨d, hd, rfl⟩ := mem_hexDigits h
    rw [digitValue_hexDigit hd]
    exact nofun

theorem hex4_length {n : Nat} (h : n < 2 ^ 32) : (hex4 n).length ≤ 8 := by
  have hlen : (hexDigits n).length ≤ 8 := hexDigits_length (k := 7) h
  rw [hex4, List.length_append, List.length_replicate]
  omega

end RiscvSbt.Library
