import Mathlib.Logic.Function.Basic
import RiscvSbt.Library.SortedMap

/-! An index of a table.

The index finds exactly the rows of the table that are in use, by a key of theirs. A new row
may take the place of the one that has its key. -/
namespace RiscvSbt.Library

variable {K α : Type} [LinearOrder K] {key : α → K} {m : Map K Nat} {t t' : Nat → Option α}
  {v w : α} {k : K} {o o' : Nat}

/-- What the index finds is what the table has. -/
def Indexes (key : α → K) (m : Map K Nat) (t : Nat → Option α) : Prop :=
  ∀ k o, m.get? k = some o ↔ ∃ v, t o = some v ∧ key v = k

namespace Indexes

theorem empty : Indexes key Map.empty (fun _ => none : Nat → Option α) := by
  intro k o
  simp

theorem find (h : Indexes key m t) (ho : t o = some v) : m.get? (key v) = some o :=
  (h _ _).mpr ⟨v, ho, rfl⟩

theorem row (h : Indexes key m t) (hk : m.get? k = some o) : ∃ v, t o = some v ∧ key v = k :=
  (h _ _).mp hk

/-- A key has one row. -/
theorem inj (h : Indexes key m t) (ho : t o = some v) (ho' : t o' = some w)
    (heq : key v = key w) : o = o' :=
  Option.some.inj ((h.find ho).symm.trans (heq ▸ h.find ho'))

/-- Rows may change, but for their keys. -/
theorem congr (h : Indexes key m t) (ht : ∀ o, (t' o).map key = (t o).map key) :
    Indexes key m t' := by
  intro k o
  rw [h k o]
  have := ht o
  simp only [← Option.map_eq_some_iff, this]

/-- A new row takes the place of the one with its key. -/
theorem upsert (h : Indexes key m t) (ho : t o = none)
    (ht : ∀ o', t' o' = if o' = o then some v else if m.get? (key v) = some o'
    then none else t o') :
    Indexes key (m.upsert (key v) o) t' := by
  intro k o'
  rw [Map.get?_upsert, ht]
  by_cases hoo : o' = o
  · subst hoo
    rw [if_pos rfl]
    split
    next hk => simp [hk]
    next hk =>
      have hno : m.get? k ≠ some o' := fun hm => by
        obtain ⟨w, hw, -⟩ := h.row hm
        rw [ho] at hw
        cases hw
      simpa [hno] using Ne.symm hk
  · rw [if_neg hoo]
    by_cases hk : k = key v
    · subst hk
      rw [if_pos rfl]
      constructor
      · exact fun heq => absurd (Option.some.inj heq).symm hoo
      · rintro ⟨w, hw, hkey⟩
        split at hw
        next => cases hw
        next hne => exact absurd (hkey ▸ h.find hw) hne
    · rw [if_neg hk, h k o']
      split
      next hdel =>
        constructor
        · rintro ⟨w, hw, rfl⟩
          obtain ⟨x, hx, hkey⟩ := h.row hdel
          obtain rfl := Option.some.inj (hw.symm.trans hx)
          exact absurd hkey hk
        · rintro ⟨w, hw, -⟩
          cases hw
      next => rfl

end Indexes
end RiscvSbt.Library
