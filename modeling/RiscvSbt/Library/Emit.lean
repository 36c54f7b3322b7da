/-! Programs that emit straight-line code.

A code generator hands out fresh names and appends instructions; what it means is
what the emitted list does when it runs. `Emit` is such a generator and `wp` its
weakest precondition: the emitted instructions run from `s`, and the generator's
answer, its next name and the state reached satisfy `Q`. The rules below take a
generator apart at its binds, so that each of its operations is specified once. -/
namespace RiscvSbt.Library

/-- Runs instructions one after the other; a stuck one stops the run. -/
def exec {I S : Type} (step : I → S → Option S) : List I → S → Option S
  | [], s => some s
  | i :: rest, s => (step i s).bind (exec step rest)

theorem exec_append {I S : Type} (step : I → S → Option S) (a b : List I) (s : S) :
    exec step (a ++ b) s = (exec step a s).bind (exec step b) := by
  induction a generalizing s with
  | nil => rfl
  | cons i rest ih =>
    simp only [List.cons_append, exec, Option.bind_assoc]
    congr
    funext t
    exact ih t

/-- From the next fresh name: an answer, the next fresh name and the code. -/
def Emit (I α : Type) : Type := Nat → α × Nat × List I

namespace Emit
variable {I S α β : Type}

instance : Monad (Emit I) where
  pure a := fun n => (a, n, [])
  bind m f := fun n =>
    let (a, n', code) := m n
    let (b, n'', code') := f a n'
    (b, n'', code ++ code')

/-- Emits one instruction, built from a fresh name, and answers that name. -/
def fresh (i : Nat → I) : Emit I Nat := fun n => (n, n + 1, [i n])

/-- Emits one instruction that names nothing. -/
def plain (i : I) : Emit I Unit := fun n => ((), n, [i])

/-- The code of a generator, with names from `0`. -/
def code (m : Emit I α) : List I := (m 0).2.2

variable (step : I → S → Option S)

/-- The emitted code runs from `s` and ends in `Q`. -/
def wp (m : Emit I α) (n : Nat) (s : S) (Q : α → Nat → S → Prop) : Prop :=
  ∃ s', exec step (m n).2.2 s = some s' ∧ Q (m n).1 (m n).2.1 s'

variable {step}

theorem wp_pure {a : α} {n : Nat} {s : S} {Q : α → Nat → S → Prop} (h : Q a n s) :
    wp step (pure a : Emit I α) n s Q := ⟨s, rfl, h⟩

theorem wp_bind {m : Emit I α} {f : α → Emit I β} {n : Nat} {s : S} {Q : β → Nat → S → Prop}
    (h : wp step m n s fun a n' s' => wp step (f a) n' s' Q) : wp step (m >>= f) n s Q := by
  obtain ⟨s', hm, s'', hf, hq⟩ := h
  refine ⟨s'', ?_, hq⟩
  show exec step ((m n).2.2 ++ (f (m n).1 (m n).2.1).2.2) s = some s''
  rw [exec_append, hm]
  exact hf

theorem wp_mono {m : Emit I α} {n : Nat} {s : S} {P Q : α → Nat → S → Prop}
    (h : wp step m n s P) (hpq : ∀ a n' s', P a n' s' → Q a n' s') : wp step m n s Q := by
  obtain ⟨s', hrun, hp⟩ := h
  exact ⟨s', hrun, hpq _ _ _ hp⟩

theorem wp_and {m : Emit I α} {n : Nat} {s : S} {P Q : α → Nat → S → Prop}
    (hp : wp step m n s P) (hq : wp step m n s Q) :
    wp step m n s fun a n' s' => P a n' s' ∧ Q a n' s' := by
  obtain ⟨s', hrun, hp⟩ := hp
  obtain ⟨t, hrun', hq⟩ := hq
  obtain rfl := Option.some.inj (hrun.symm.trans hrun')
  exact ⟨s', hrun, hp, hq⟩

theorem wp_fresh {i : Nat → I} {n : Nat} {s s' : S} {Q : Nat → Nat → S → Prop}
    (hs : step (i n) s = some s') (h : Q n (n + 1) s') : wp step (fresh i) n s Q :=
  ⟨s', by simp [fresh, exec, hs], h⟩

theorem wp_plain {i : I} {n : Nat} {s s' : S} {Q : Unit → Nat → S → Prop}
    (hs : step i s = some s') (h : Q () n s') : wp step (plain i) n s Q :=
  ⟨s', by simp [plain, exec, hs], h⟩

/-! ### Code that is stuck -/

/-- The emitted code does not run from `s`. -/
def Stuck (step : I → S → Option S) (m : Emit I α) (n : Nat) (s : S) : Prop :=
  exec step (m n).2.2 s = none

theorem stuck_head {m : Emit I α} {f : α → Emit I β} {n : Nat} {s : S} (h : Stuck step m n s) :
    Stuck step (m >>= f) n s := by
  show exec step ((m n).2.2 ++ (f (m n).1 (m n).2.1).2.2) s = none
  rw [exec_append, h]
  rfl

theorem stuck_bind {m : Emit I α} {f : α → Emit I β} {n : Nat} {s : S}
    (h : wp step m n s fun a n' s' => Stuck step (f a) n' s') : Stuck step (m >>= f) n s := by
  obtain ⟨s', hm, hf⟩ := h
  show exec step ((m n).2.2 ++ (f (m n).1 (m n).2.1).2.2) s = none
  rw [exec_append, hm]
  exact hf

theorem stuck_fresh {i : Nat → I} {n : Nat} {s : S} (h : step (i n) s = none) :
    Stuck step (fresh i) n s := by
  simp [Stuck, fresh, exec, h]

theorem stuck_plain {i : I} {n : Nat} {s : S} (h : step i s = none) :
    Stuck step (plain i) n s := by
  simp [Stuck, plain, exec, h]

end Emit
end RiscvSbt.Library
