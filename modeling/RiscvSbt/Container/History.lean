import RiscvSbt.Container.Map
import Mathlib.Logic.Function.Basic

/-! Maps over their whole history.

Maps are objects, all empty at first. What a key is mapped to is known from the history: the last
upsert of it in the map, or in the map that was moved there, unless it was erased since. The
vector of a map is, after any history, the sorted list of just these items. -/
namespace RiscvSbt.Container

variable {K V : Type}

/-- An operation on the objects. An erasure is from a lower bound on. -/
inductive Op (K V : Type) where
  | upsert (m : Nat) (key : K) (val : V)
  | erase (m : Nat) (key : K)
  | move (dst src : Nat)

section
variable [LinearOrder K]

/-- One operation. A vector that is moved from is left empty. -/
def Op.step (s : Nat → Map K V) : Op K V → Nat → Map K V
  | upsert m key val => Function.update s m ((s m).upsert key val)
  | erase m key => Function.update s m ((s m).erase ((s m).lower_bound key))
  | move dst src => Function.update (Function.update s dst (s src)) src {}

/-- The objects after a history, the last operation first. -/
def run : List (Op K V) → Nat → Map K V
  | [] => fun _ => {}
  | op :: past => op.step (run past)

/-- The value of a key's most recent upsert that was not erased. -/
def latest : List (Op K V) → Nat → K → Option V
  | [], _, _ => none
  | .upsert m key val :: past, n, k => if n = m ∧ k = key then some val else latest past n k
  | .erase m key :: past, n, k => if n = m ∧ key ≤ k then none else latest past n k
  | .move dst src :: past, n, k =>
    if n = src then none else if n = dst then latest past src k else latest past n k

/-- A map's vector and operations are those of a finite map. -/
structure Refines (d : Map K V) (f : K → Option V) : Prop where
  /-- Keys are in increasing order, each once. -/
  sorted : d.data.Pairwise fun i j => i.1 < j.1
  /-- Iteration visits just the keys that are present, with their values. -/
  items : ∀ k v, (k, v) ∈ d.data ↔ f k = some v
  lookup : ∀ key, d.lookupVal key = f key
  /-- The items before a lower bound are those of lesser keys. -/
  lower_bound : ∀ (key : K) (it : Nat) (i : K × V), d.data[it]? = some i →
    (it < d.lower_bound key ↔ i.1 < key)
  lower_bound_le : ∀ key, d.lower_bound key ≤ d.data.length
  erase : ∀ it j : Nat, (d.erase it).data[j]? = if j < it then d.data[j]? else none

/-- The vector of a sorted map refines what its keys are looked up as. -/
theorem refines_get? (a : Library.Map K V) : Refines ⟨a.data⟩ a.get? where
  sorted := a.sorted
  items _ _ := Library.Map.get?_eq_some.symm
  lookup := Map.lookupVal_eq a
  lower_bound key it i hi := by rw [Map.lower_bound_eq, Map.lt_below_length a key hi]
  lower_bound_le key := by
    rw [Map.lower_bound_eq]
    exact Map.below_length_le a key
  erase it j := List.getElem?_take

/-- The objects as sorted maps. -/
def Represents (s : Nat → Map K V) (f : Nat → K → Option V) : Prop :=
  ∀ n, ∃ a : Library.Map K V, s n = ⟨a.data⟩ ∧ a.get? = f n

/-- One operation on the objects is one on what their keys are mapped to. -/
theorem Represents.step {past : List (Op K V)} (h : Represents (run past) (latest past))
    (op : Op K V) : Represents (run (op :: past)) (latest (op :: past)) := by
  intro n
  cases op with
  | upsert m key val =>
    by_cases hn : n = m
    · subst hn
      obtain ⟨a, ha, hget⟩ := h n
      refine ⟨a.upsert key val, ?_, funext fun k => ?_⟩
      · rw [run, Op.step, Function.update_self, ha, Map.upsert_eq]
      · simp [Library.Map.get?_upsert, latest, hget]
    · obtain ⟨a, ha, hget⟩ := h n
      refine ⟨a, ?_, funext fun k => ?_⟩
      · rw [run, Op.step, Function.update_of_ne hn, ha]
      · simp [latest, hn, hget]
  | erase m key =>
    by_cases hn : n = m
    · subst hn
      obtain ⟨a, ha, hget⟩ := h n
      refine ⟨a.erase key, ?_, funext fun k => ?_⟩
      · rw [run, Op.step, Function.update_self, ha, Map.erase_eq]
      · by_cases hk : k < key
        · simp [Library.Map.get?_erase, latest, hget, hk, not_le.2 hk]
        · simp [Library.Map.get?_erase, latest, hk, not_lt.1 hk]
    · obtain ⟨a, ha, hget⟩ := h n
      refine ⟨a, ?_, funext fun k => ?_⟩
      · rw [run, Op.step, Function.update_of_ne hn, ha]
      · simp [latest, hn, hget]
  | move dst src =>
    by_cases hsrc : n = src
    · subst hsrc
      refine ⟨Library.Map.empty, ?_, funext fun k => ?_⟩
      · rw [run, Op.step, Function.update_self]
        rfl
      · simp [latest]
    · by_cases hdst : n = dst
      · subst hdst
        obtain ⟨a, ha, hget⟩ := h src
        refine ⟨a, ?_, funext fun k => ?_⟩
        · rw [run, Op.step, Function.update_of_ne hsrc, Function.update_self, ha]
        · simp [latest, hsrc, hget]
      · obtain ⟨a, ha, hget⟩ := h n
        refine ⟨a, ?_, funext fun k => ?_⟩
        · rw [run, Op.step, Function.update_of_ne hsrc, Function.update_of_ne hdst, ha]
        · simp [latest, hsrc, hdst, hget]

theorem run_represents (past : List (Op K V)) : Represents (run past) (latest past) := by
  induction past with
  | nil => exact fun _ => ⟨Library.Map.empty, rfl, rfl⟩
  | cons op past ih => exact ih.step op

/-- After any history every map refines the finite map of its keys' latest values. -/
theorem run_refines (past : List (Op K V)) (n : Nat) : Refines (run past n) (latest past n) := by
  obtain ⟨a, ha, hget⟩ := run_represents past n
  rw [ha, ← hget]
  exact refines_get? a

end
end RiscvSbt.Container
