import Mathlib.Data.List.Infix
import Mathlib.Tactic.Common

/-! Lists made of segments.

A segment is a list that is found as a whole or not at all. In a list without duplicates the
segments that it meets lie one behind the other (`Segmented.of_parts`), and cutting it at the head
of a segment cuts none (`infix_cut`). -/
namespace RiscvSbt.Library
variable {α : Type} {S : List α → Prop} {l m top bottom : List α} {x : α}

/-- A list that is cut inside of no part of it but before its head. -/
theorem infix_cut (h : m <:+: top ++ x :: bottom) (hx : x ∉ m.tail) :
    m <:+: top ∨ m <:+: x :: bottom := by
  obtain ⟨a, b, heq⟩ := h
  rcases List.append_eq_append_iff.mp heq with ⟨c, rfl, -⟩ | ⟨c, hc, hb⟩
  · exact .inl ⟨a, c, rfl⟩
  · rcases List.append_eq_append_iff.mp hc with ⟨d, rfl, rfl⟩ | ⟨d, -, rfl⟩
    · -- The cut is inside of `m`, or at one of its ends.
      cases c with
      | nil => exact .inl ⟨a, [], by rw [List.append_nil, List.append_nil]⟩
      | cons y c =>
        obtain rfl : x = y := (List.cons.inj hb).1
        cases d with
        | nil => exact .inr ⟨[], b, hb.symm⟩
        | cons z d => exact absurd (List.mem_append_right d List.mem_cons_self) hx
    · exact .inr ⟨d, b, hb.symm⟩

/-- The list is made of segments and of elements that are in none. -/
inductive Segmented (S : List α → Prop) : List α → Prop where
  | nil : Segmented S []
  | single {x : α} {l : List α} (out : ∀ m, S m → x ∉ m) (rest : Segmented S l) :
      Segmented S (x :: l)
  | segment {m l : List α} (seg : S m) (rest : Segmented S l) : Segmented S (m ++ l)

/-- What such a list begins with. -/
theorem Segmented.cons_cases (h : Segmented S (x :: l)) :
    ((∀ m, S m → x ∉ m) ∧ Segmented S l) ∨ ∃ m l', S (x :: m) ∧ l = m ++ l' ∧ Segmented S l' := by
  generalize hxl : x :: l = l₀ at h
  induction h with
  | nil => cases hxl
  | single out rest =>
    obtain ⟨rfl, rfl⟩ := List.cons.inj hxl
    exact .inl ⟨out, rest⟩
  | @segment m l₁ seg rest ih =>
    cases m with
    | nil => exact ih hxl
    | cons y m =>
      obtain ⟨rfl, rfl⟩ := List.cons.inj hxl
      exact .inr ⟨m, l₁, seg, rfl, rest⟩

/-- Of two parts of a list without a common element, one is behind the other. -/
theorem infix_behind (h : m <:+: top ++ bottom) (hdisj : ∀ x ∈ m, x ∉ top) : m <:+: bottom := by
  obtain ⟨a, b, heq⟩ := h
  rcases List.append_eq_append_iff.mp heq with ⟨c, htop, -⟩ | ⟨c, hc, rfl⟩
  · cases m with
    | nil => exact List.nil_infix
    | cons y m => exact absurd (by rw [htop]; simp) (hdisj y List.mem_cons_self)
  · rcases List.append_eq_append_iff.mp hc with ⟨d, rfl, rfl⟩ | ⟨d, -, rfl⟩
    · cases d with
      | nil => exact ⟨[], b, by rw [List.nil_append, List.nil_append]⟩
      | cons y d =>
        exact absurd (List.mem_append_right a List.mem_cons_self) (hdisj y List.mem_cons_self)
    · exact ⟨d, b, rfl⟩

/-- **A list whose segments are whole is made of them.** -/
theorem Segmented.of_parts (hnodup : l.Nodup)
    (hdisj : ∀ m m', S m → S m' → ∀ x ∈ m, x ∈ m' → m = m')
    (hin : ∀ m, S m → (∃ x ∈ m, x ∈ l) → m <:+: l) : Segmented S l := by
  induction hlen : l.length using Nat.strong_induction_on generalizing l with
  | _ n ih =>
    cases l with
    | nil => exact .nil
    | cons x l =>
      obtain ⟨hx, hl⟩ := List.nodup_cons.mp hnodup
      rw [List.length_cons] at hlen
      by_cases hseg : ∃ m, S m ∧ x ∈ m
      · obtain ⟨m, hm, hxm⟩ := hseg
        obtain ⟨a, b, heq⟩ := hin m hm ⟨x, hxm, List.mem_cons_self⟩
        cases a with
        | cons y a =>
          refine absurd ?_ hx
          rw [← (List.cons.inj heq).2]
          exact List.mem_append_left _ (List.mem_append_right _ hxm)
        | nil =>
          -- The segment is in front, and the others are behind it.
          rw [List.nil_append] at heq
          rw [← heq] at hnodup hin ⊢
          refine .segment hm (ih b.length ?_ (List.nodup_append.mp hnodup).2.1
            (fun m' hm' ⟨y, hy, hyb⟩ => ?_) rfl)
          · have := congrArg List.length heq
            rw [List.length_append, List.length_cons] at this
            have := List.length_pos_of_mem hxm
            omega
          · refine infix_behind (hin m' hm' ⟨y, hy, List.mem_append_right _ hyb⟩) fun z hz hzm => ?_
            obtain rfl := hdisj m' m hm' hm z hz hzm
            exact (List.nodup_append.mp hnodup).2.2 y hy y hyb rfl
      · have hout : ∀ m, S m → x ∉ m := fun m hm hxm => hseg ⟨m, hm, hxm⟩
        refine .single hout (ih l.length (by omega) hl (fun m hm ⟨y, hy, hyl⟩ => ?_) rfl)
        have hmx : m <:+: [x] ++ l := hin m hm ⟨y, hy, List.mem_cons_of_mem _ hyl⟩
        refine infix_behind hmx fun z hz hzx => ?_
        exact hout m hm (List.mem_singleton.mp hzx ▸ hz)

end RiscvSbt.Library
