import Mathlib.Algebra.BigOperators.Group.List.Basic
import Mathlib.Algebra.GroupWithZero.Nat

/-! Items that are placed one behind the other.

An item's place is the sum of the sizes before it. Places are disjoint, and they end where the
last item does. -/
namespace RiscvSbt.Library

variable {α : Type} {size : α → Nat} {offs : Nat} {as : List α}

/-- The items with their places, from `offs` on. -/
def place (size : α → Nat) : Nat → List α → List (α × Nat)
  | _, [] => []
  | offs, a :: as => (a, offs) :: place size (offs + size a) as

/-- Items before `a` push it behind them. -/
theorem mem_place {a : α} {n : Nat} :
    (a, n) ∈ place size offs as ↔
      ∃ pre post, as = pre ++ a :: post ∧ n = offs + (pre.map size).sum := by
  induction as generalizing offs with
  | nil => simp [place]
  | cons b as ih =>
    rw [place, List.mem_cons, ih]
    constructor
    · rintro (heq | ⟨pre, post, rfl, rfl⟩)
      · obtain ⟨rfl, rfl⟩ := Prod.mk.inj heq
        exact ⟨[], as, rfl, by simp⟩
      · exact ⟨b :: pre, post, rfl, by simp [Nat.add_assoc]⟩
    · rintro ⟨_ | ⟨c, pre⟩, post, hsplit, rfl⟩
      · obtain ⟨rfl, rfl⟩ := List.cons.inj hsplit
        exact .inl (by simp)
      · obtain ⟨rfl, rfl⟩ := List.cons.inj hsplit
        exact .inr ⟨pre, post, rfl, by simp [Nat.add_assoc]⟩

theorem place_items (size : α → Nat) (offs : Nat) (as : List α) :
    (place size offs as).map (fun p => size p.1) = as.map size := by
  induction as generalizing offs with
  | nil => rfl
  | cons a as ih => rw [place, List.map_cons, List.map_cons, ih]

theorem place_from {p : α × Nat} (h : p ∈ place size offs as) : offs ≤ p.2 := by
  obtain ⟨pre, post, _, hn⟩ := mem_place.1 h
  omega

/-- No item reaches behind the sum of the sizes. -/
theorem place_inside {p : α × Nat} (h : p ∈ place size offs as) :
    p.2 + size p.1 ≤ offs + (as.map size).sum := by
  obtain ⟨pre, post, hsplit, hn⟩ := mem_place.1 h
  rw [hsplit, hn]
  simp
  omega

/-- Each item ends before the ones behind it. -/
theorem place_disjoint (size : α → Nat) (offs : Nat) (as : List α) :
    (place size offs as).Pairwise fun p q => p.2 + size p.1 ≤ q.2 := by
  induction as generalizing offs with
  | nil => exact .nil
  | cons a as ih => exact .cons (fun _ hq => place_from hq) (ih _)

/-- The ends reach the sum of the sizes unless all are zero, so a bound on them bounds it. -/
theorem sum_eq_zero_of_place (offs : Nat) (h : ∀ p ∈ place size offs as, p.2 + size p.1 ≤ offs) :
    (as.map size).sum = 0 := by
  rcases as.eq_nil_or_concat with rfl | ⟨init, a, rfl⟩
  · rfl
  · have hlast := h (a, offs + (init.map size).sum)
      (mem_place.2 ⟨init, [], by simp, rfl⟩)
    simp at hlast ⊢
    omega

end RiscvSbt.Library
