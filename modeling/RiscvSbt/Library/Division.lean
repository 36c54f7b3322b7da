import Mathlib.Data.List.Basic

/-! Long division.

A number is divided digit by digit, the highest one first: each step divides the remainder so
far, followed by the next digit. The remainder stays below the divisor, and so each quotient is
one digit. -/
namespace RiscvSbt.Library.Division

variable {b d r : Nat} {xs : List Nat}

/-- The number that `n` becomes, when it is followed by digits. -/
def value (b n : Nat) (xs : List Nat) : Nat := xs.foldl (fun n x => n * b + x) n

/-- The digits of the quotient, and the remainder. -/
def divide (b d : Nat) : Nat → List Nat → List Nat × Nat
  | r, [] => ([], r)
  | r, x :: xs =>
    let rest := divide b d ((r * b + x) % d) xs
    ((r * b + x) / d :: rest.1, rest.2)

theorem digit_lt {x : Nat} (hr : r < d) (hx : x < b) : (r * b + x) / d < b := by
  refine Nat.div_lt_of_lt_mul ?_
  have hmul := Nat.mul_le_mul_right b (Nat.succ_le_of_lt hr)
  rw [Nat.succ_mul] at hmul
  omega

/-- Behind the digits `q` that the quotient has already. -/
theorem divide_spec (hr : r < d) (q : Nat) (xs : List Nat) :
    (divide b d r xs).2 < d ∧
      value b q (divide b d r xs).1 * d + (divide b d r xs).2 = value b (q * d + r) xs := by
  induction xs generalizing q r with
  | nil => exact ⟨hr, rfl⟩
  | cons x xs ih =>
    have hrest := Nat.mod_lt (r * b + x) (Nat.zero_lt_of_lt hr)
    obtain ⟨hlt, heq⟩ := ih hrest (q * b + (r * b + x) / d)
    refine ⟨hlt, heq.trans (congrArg (fun n => value b n xs) ?_)⟩
    calc
      (q * b + (r * b + x) / d) * d + (r * b + x) % d
        = q * b * d + ((r * b + x) / d * d + (r * b + x) % d) := by rw [Nat.add_mul, Nat.add_assoc]
      _ = q * b * d + (r * b + x) := by rw [Nat.div_add_mod']
      _ = (q * d + r) * b + x := by rw [Nat.add_mul, Nat.mul_right_comm, Nat.add_assoc]

/-- **Long division.** -/
theorem divide_quotient (hd : 0 < d) (b : Nat) (xs : List Nat) :
    value b 0 (divide b d 0 xs).1 = value b 0 xs / d := by
  obtain ⟨hlt, heq⟩ := divide_spec (b := b) hd 0 xs
  rw [Nat.zero_mul] at heq
  rw [← heq, Nat.mul_comm, Nat.mul_add_div hd, Nat.div_eq_of_lt hlt, Nat.add_zero]

/-- The two steps of a number of two digits. -/
theorem quotient_two (hd : 0 < d) (b hi lo : Nat) :
    hi / d * b + (hi % d * b + lo) / d = (hi * b + lo) / d := by
  have hlong := divide_quotient hd b [hi, lo]
  simpa only [divide, value, List.foldl_cons, List.foldl_nil, Nat.zero_mul,
    Nat.zero_add] using hlong

end RiscvSbt.Library.Division
