import Mathlib.Data.List.Basic

/-! `std::lower_bound` and `std::inplace_merge` on lists. -/
namespace RiscvSbt.Library

variable {α β : Type}

/-- `std::lower_bound` among the `len` items from `first` on. -/
def lower_bound (comp : α → β → Bool) (l : List α) (value : β) (first len : Nat) : Nat :=
  if 0 < len then
    let half := len / 2
    if l[first + half]?.any (comp · value) then
      lower_bound comp l value (first + half + 1) (len - half - 1)
    else lower_bound comp l value first half
  else first
termination_by len
decreasing_by all_goals omega

/-- It finds the place up to which the comparison holds, if there is one. -/
theorem lower_bound_eq {comp : α → β → Bool} {l : List α} {value : β} {place first len : Nat}
    (hplace : ∀ (i : Nat) (a : α), l[i]? = some a → (comp a value = true ↔ i < place))
    (hfirst : first ≤ place) (hlen : place ≤ first + len) (hend : first + len ≤ l.length) :
    lower_bound comp l value first len = place := by
  induction len using Nat.strongRecOn generalizing first with
  | ind len ih =>
    unfold lower_bound
    split
    next hpos =>
      have hlt : first + len / 2 < l.length := by omega
      have hhalf := hplace (first + len / 2) _ (List.getElem?_eq_getElem hlt)
      simp only [List.getElem?_eq_getElem hlt, Option.any_some]
      split
      next hbelow =>
        have := hhalf.1 hbelow
        exact ih _ (by omega) (by omega) (by omega) (by omega)
      next hbelow =>
        have := mt hhalf.2 hbelow
        exact ih _ (by omega) hfirst (by omega) (by omega)
    next => omega

/-- `std::inplace_merge` of two runs: of equivalent items those of the first run come first. -/
def inplace_merge (comp : α → α → Bool) (l r : List α) : List α := l.merge r fun a b => !comp b a

/-- A single item goes before the first one that it is less than. -/
theorem inplace_merge_singleton {comp : α → α → Bool} {p : α → Bool} {l : List α} {a : α}
    (hp : ∀ b ∈ l, comp a b = !p b) :
    inplace_merge comp l [a] = l.takeWhile p ++ a :: l.dropWhile p := by
  induction l with
  | nil => simp [inplace_merge]
  | cons b l ih =>
    have ih := ih fun c hc => hp c (List.mem_cons_of_mem _ hc)
    have hb := hp b List.mem_cons_self
    unfold inplace_merge at ih ⊢
    rw [List.cons_merge_cons, ih]
    cases hbelow : p b with
    | true => simp [hb, hbelow]
    | false => simp [hb, hbelow]

end RiscvSbt.Library
