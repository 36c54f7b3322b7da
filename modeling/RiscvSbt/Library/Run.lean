/-! Runs of a machine whose steps may fail.

A run may be held to a condition on the states it steps from. What one step preserves
holds of every state of a run (`Run.invariant`). Two machines run in lock step if one step
of both keeps them related (`steps_rel`). -/
namespace RiscvSbt.Library
variable {C E α β : Type}

theorem bind_ok {x : Except E α} {f : α → Except E β} {b : β} (h : x >>= f = .ok b) :
    ∃ a, x = .ok a ∧ f a = .ok b := by
  cases x with
  | error e => exact nomatch h
  | ok a => exact ⟨a, rfl, h⟩

variable (step : C → Except E C) (good : C → Prop) (init : C)

/-- The states reached from `init` by steps from good states. -/
inductive Run : C → Prop where
  | start : Run init
  | step {c c' : C} : Run c → good c → step c = .ok c' → Run c'

/-- `n` steps. -/
def iterate : Nat → C → Except E C
  | 0, c => pure c
  | n + 1, c => do iterate n (← step c)

theorem iterate_add (step : C → Except E C) (m n : Nat) (c : C) :
    iterate step (m + n) c = iterate step m c >>= iterate step n := by
  induction m generalizing c with
  | zero =>
    rw [Nat.zero_add]
    rfl
  | succ m ih =>
    rw [Nat.succ_add]
    show step c >>= iterate step (m + n) = (step c >>= iterate step m) >>= iterate step n
    cases step c with
    | error e => rfl
    | ok d => exact ih d

theorem iterate_append {step : C → Except E C} {m : Nat} {c d : C} (h : iterate step m c = .ok d)
    (n : Nat) : iterate step (m + n) c = iterate step n d := by
  rw [iterate_add, h]
  rfl

/-- A run that comes to its end has not failed before. -/
theorem iterate_le {step : C → Except E C} {m n : Nat} {c d : C} (h : iterate step n c = .ok d)
    (hle : m ≤ n) : ∃ e, iterate step m c = .ok e := by
  obtain ⟨k, rfl⟩ := Nat.exists_eq_add_of_le hle
  rw [iterate_add] at h
  obtain ⟨e, he, -⟩ := bind_ok h
  exact ⟨e, he⟩

theorem iterate_succ (step : C → Except E C) (n : Nat) (c : C) :
    iterate step (n + 1) c = iterate step n c >>= step := by
  have hone : iterate step 1 = step := by
    funext d
    show step d >>= pure = step d
    cases step d <;> rfl
  rw [iterate_add, hone]

namespace Run
variable {step good init}

/-- What holds at the start and survives every step holds throughout. -/
theorem invariant {Inv : C → Prop} {c : C} (h : Run step good init c) (h0 : Inv init)
    (hs : ∀ c c', Inv c → good c → step c = .ok c' → Inv c') : Inv c := by
  induction h with
  | start => exact h0
  | step _ hgood hstep ih => exact hs _ _ ih hgood hstep

/-- A run from a state has stayed there, or it has a first step. -/
theorem head {c c' : C} (h : Run step good c c') :
    c' = c ∨ ∃ d, good c ∧ step c = .ok d ∧ Run step good d c' := by
  induction h with
  | start => exact .inl rfl
  | step _ hgood hstep ih =>
    rcases ih with rfl | ⟨d, hg, hs, hd⟩
    · exact .inr ⟨_, hgood, hstep, .start⟩
    · exact .inr ⟨d, hg, hs, .step hd hgood hstep⟩

theorem mono {good' : C → Prop} {c : C} (h : Run step good init c)
    (hgood : ∀ c, good c → good' c) : Run step good' init c := by
  induction h with
  | start => exact .start
  | step _ hc hstep ih => exact .step ih (hgood _ hc) hstep

theorem iterate {c c' : C} (h : Run step good init c) (n : Nat)
    (hgood : ∀ m < n, ∀ d, Library.iterate step m c = .ok d → good d)
    (hn : Library.iterate step n c = .ok c') : Run step good init c' := by
  induction n generalizing c with
  | zero => exact Except.ok.inj hn ▸ h
  | succ n ih =>
    obtain ⟨d, hd, hn⟩ := bind_ok hn
    refine ih (.step h (hgood 0 (Nat.zero_lt_succ n) c rfl) hd) (fun m hm e he => ?_) hn
    refine hgood (m + 1) (Nat.succ_lt_succ hm) e ?_
    show (step c >>= _) = _
    rw [hd]
    exact he

end Run

/-! ### Lock step -/

section Steps
variable {S T : Type}

/-- `n` steps of a machine that may stop. -/
def steps (step : S → Option S) : Nat → S → Option S
  | 0, s => some s
  | n + 1, s => step s >>= steps step n

theorem steps_add (step : S → Option S) (m n : Nat) (s : S) :
    steps step (m + n) s = steps step m s >>= steps step n := by
  induction m generalizing s with
  | zero =>
    rw [Nat.zero_add]
    rfl
  | succ m ih =>
    rw [Nat.succ_add]
    show step s >>= steps step (m + n) = (step s >>= steps step m) >>= steps step n
    cases step s with
    | none => rfl
    | some t => exact ih t

theorem steps_rel {step₁ : S → Option S} {step₂ : T → Option T} {R : S → T → Prop}
    (hstep : ∀ s t, R s t → Option.Rel R (step₁ s) (step₂ t)) (n : Nat) {s : S} {t : T}
    (h : R s t) : Option.Rel R (steps step₁ n s) (steps step₂ n t) := by
  induction n generalizing s t with
  | zero => exact .some h
  | succ n ih =>
    have hrel := hstep s t h
    show Option.Rel R (step₁ s >>= steps step₁ n) (step₂ t >>= steps step₂ n)
    generalize step₁ s = a at hrel
    generalize step₂ t = b at hrel
    cases hrel with
    | none => exact .none
    | some h' => exact ih h'

end Steps
end RiscvSbt.Library
