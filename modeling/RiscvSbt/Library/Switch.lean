import Mathlib.Data.List.Forall2
import Mathlib.Data.List.Nodup
import RiscvSbt.Library.Run

/-! Switches that are made from tables.

Each row of a table makes a case, under the code of its key. Where no two keys have one code, the
case of a key is the one that its row has made. -/
namespace RiscvSbt.Library
variable {α β E K K' V C : Type}

/-! ### Making the cases -/

/-- Each case is made from its row. -/
theorem mapM_rows {f : α → Except E β} {xs : List α} {ys : List β} (h : xs.mapM f = .ok ys) :
    List.Forall₂ (fun x y => x ∈ xs ∧ f x = .ok y) xs ys := by
  induction xs generalizing ys with
  | nil =>
    obtain rfl := Except.ok.inj h
    exact .nil
  | cons x xs ih =>
    rw [List.mapM_cons] at h
    obtain ⟨y, hy, h⟩ := bind_ok h
    obtain ⟨ys', hys, h⟩ := bind_ok h
    obtain rfl := Except.ok.inj h
    refine .cons ⟨List.mem_cons_self, hy⟩ ((ih hys).imp fun a b hab => ?_)
    exact ⟨List.mem_cons_of_mem x hab.1, hab.2⟩

/-- All cases are made if each is. -/
theorem mapM_ok_iff {f : α → Except E β} {xs : List α} :
    (∃ ys, xs.mapM f = .ok ys) ↔ ∀ x ∈ xs, ∃ y, f x = .ok y := by
  constructor
  · rintro ⟨ys, h⟩ x hx
    obtain ⟨i, hi, rfl⟩ := List.getElem_of_mem hx
    have hrows := mapM_rows h
    exact ⟨_, (hrows.get hi (hrows.length_eq ▸ hi)).2⟩
  · intro h
    induction xs with
    | nil => exact ⟨[], rfl⟩
    | cons x xs ih =>
      obtain ⟨y, hy⟩ := h x List.mem_cons_self
      obtain ⟨ys, hys⟩ := ih fun x hx => h x (List.mem_cons_of_mem _ hx)
      refine ⟨y :: ys, ?_⟩
      rw [List.mapM_cons, hy, hys]
      rfl

/-! ### Looking a case up -/

section Lookup
variable [BEq K'] [LawfulBEq K'] {enc : K → K'} {R : K × V → C → Prop} {xs : List (K × V)}
  {cs : List (K' × C)}

/-- A case has the code of its row's key, and is one for the row. -/
def Cases (enc : K → K') (R : K × V → C → Prop) : List (K × V) → List (K' × C) → Prop :=
  List.Forall₂ fun x c => c.1 = enc x.1 ∧ R x c.2

omit [BEq K'] [LawfulBEq K'] in
theorem Cases.keys (h : Cases enc R xs cs) : cs.map Prod.fst = xs.map fun x => enc x.1 := by
  induction h with
  | nil => rfl
  | cons hx _ ih => rw [List.map_cons, List.map_cons, hx.1, ih]

omit [BEq K'] [LawfulBEq K'] in
theorem Cases.nodup (h : Cases enc R xs cs) (hinj : (xs.map fun x => enc x.1).Nodup) :
    (cs.map Prod.fst).Nodup := by
  rw [h.keys]
  exact hinj

/-- **The case of a key.** -/
theorem Cases.lookup (h : Cases enc R xs cs) (hinj : (xs.map fun x => enc x.1).Nodup) {x : K × V}
    (hx : x ∈ xs) : ∃ c, cs.lookup (enc x.1) = some c ∧ R x c := by
  induction h with
  | nil => cases hx
  | @cons y c xs cs hy _ ih =>
    obtain ⟨k, c⟩ := c
    obtain ⟨rfl, hR⟩ := hy
    rw [List.map_cons, List.nodup_cons] at hinj
    rw [List.lookup_cons]
    rcases List.mem_cons.mp hx with rfl | hx
    · exact ⟨c, by rw [beq_self_eq_true], hR⟩
    · have hne : (enc x.1 == enc y.1) = false := beq_eq_false_iff_ne.mpr fun heq =>
        hinj.1 (heq ▸ List.mem_map_of_mem (f := fun x => enc x.1) hx)
      rw [hne]
      exact ih hinj.2 hx

/-- No case is of a code that no key has. -/
theorem Cases.lookup_none (h : Cases enc R xs cs) {k : K'} (hk : ∀ x ∈ xs, enc x.1 ≠ k) :
    cs.lookup k = none := by
  induction h with
  | nil => rfl
  | @cons y c xs cs hy _ ih =>
    obtain ⟨k', c⟩ := c
    obtain ⟨rfl, -⟩ := hy
    rw [List.lookup_cons, beq_eq_false_iff_ne.mpr (hk y List.mem_cons_self).symm]
    exact ih fun x hx => hk x (List.mem_cons_of_mem _ hx)

end Lookup
end RiscvSbt.Library
