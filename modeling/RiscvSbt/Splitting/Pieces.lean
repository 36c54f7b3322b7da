import RiscvSbt.Splitting.Machine
import Mathlib.Data.List.TakeDrop
import Mathlib.Tactic.Common

/-! What the pieces of a split do, one after another.

A dummy instruction is created with the insert block saved and the marker of the first instruction
held: `Kept` is what it leaves alone. -/
namespace RiscvSbt.Splitting
open Library

namespace State
variable {s t u : State}

/-- LLVM's builder stands at the end of the insert block. -/
def AtEnd (s : State) : Prop := s.bld.point = s.bld.bb.map fun bb => (bb.bb, none)

/-- What dummy instructions do not touch. -/
structure Kept (s t : State) : Prop where
  nextInstr : s.nextInstr ≤ t.nextInstr
  instrs : ∀ i, i < s.nextInstr → t.instrs i = s.instrs i
  new : ∀ i, s.nextInstr ≤ i → i < t.nextInstr → (t.instrs i).succs = []
  nextBlock : t.nextBlock = s.nextBlock
  bbs : t.bbs = s.bbs
  bb : t.bld.bb = s.bld.bb
  first : t.bld.first = s.bld.first
  updateFirst : s.bld.updateFirst = true → t.bld.updateFirst = true
  atEnd : s.AtEnd → t.AtEnd

theorem Kept.refl (s : State) : Kept s s :=
  ⟨Nat.le_refl _, fun _ _ => rfl, fun _ h g => absurd g (Nat.not_lt.2 h), rfl,
    rfl, rfl, rfl, id, id⟩

theorem Kept.trans (h : Kept s t) (g : Kept t u) : Kept s u where
  nextInstr := Nat.le_trans h.nextInstr g.nextInstr
  instrs i hi := (g.instrs i (Nat.lt_of_lt_of_le hi h.nextInstr)).trans (h.instrs i hi)
  new i hi hu := by
    rcases Nat.lt_or_ge i t.nextInstr with hlt | hge
    · rw [g.instrs i hlt]
      exact h.new i hi hlt
    · exact g.new i hge hu
  nextBlock := g.nextBlock.trans h.nextBlock
  bbs := g.bbs.trans h.bbs
  bb := g.bb.trans h.bb
  first := g.first.trans h.first
  updateFirst hu := g.updateFirst (h.updateFirst hu)
  atEnd ha := g.atEnd (h.atEnd ha)

/-! ### A dummy instruction -/

theorem dummyRet_eq {bb₀ : Ref} (hbb : s.bld.bb = some bb₀) (bb : Ref) :
    ∃ t, s.dummyRet bb = .ok (s.nextInstr, t) ∧ Kept s t ∧ t.nextInstr = s.nextInstr + 1 ∧
      t.instrs s.nextInstr = .retVoid ∧
      t.lists = Function.update s.lists bb.bb (s.lists bb.bb ++ [s.nextInstr]) := by
  simp only [dummyRet, saveInsertBlock, hbb]
  refine ⟨_, rfl, ⟨Nat.le_succ _, fun i hi => ?_, fun i hi hlt => ?_, rfl,
    rfl, ?_, ?_, fun _ => rfl,
    fun _ => rfl⟩, rfl, Function.update_self _ _ _, rfl⟩
  · exact Function.update_of_ne (Nat.ne_of_lt hi) _ _
  · obtain rfl := Nat.le_antisymm (Nat.le_of_lt_succ hlt) hi
    have hop : Function.update s.instrs s.nextInstr .retVoid s.nextInstr = .retVoid :=
      Function.update_self _ _ _
    exact congrArg Opcode.succs hop
  · exact hbb.symm
  · show (if s.bld.first = none ∧ (false : Bool) then _ else s.bld.first) = s.bld.first
    exact if_neg fun h => Bool.false_ne_true h.2

/-! ### Successors -/

theorem deref_congr {it : SuccIterator} (h : t.instrs it.term = s.instrs it.term) :
    t.deref it = s.deref it := by
  unfold deref
  rw [h]

theorem Kept.deref (h : Kept s t) {it : SuccIterator} (hit : it.term < s.nextInstr) :
    t.deref it = s.deref it :=
  deref_congr (h.instrs _ hit)

/-- A successor iterator that can be read. -/
def Valid (s : State) (it : SuccIterator) : Prop :=
  it.term < s.nextInstr ∧ ∃ bb, s.deref it = .ok bb

theorem Kept.valid (h : Kept s t) {it : SuccIterator} (hit : s.Valid it) : t.Valid it :=
  ⟨Nat.lt_of_lt_of_le hit.1 h.nextInstr, by rw [h.deref hit.1]; exact hit.2⟩

/-- A block that one of the iterators stands at. -/
def Points (s : State) (its : List SuccIterator) (bb : Nat) : Prop :=
  ∃ it ∈ its, s.deref it = .ok bb

theorem Kept.points (h : Kept s t) (its : List SuccIterator) (hits : ∀ it ∈ its, s.Valid it)
    (bb : Nat) : t.Points its bb ↔ s.Points its bb := by
  refine exists_congr fun it => and_congr_right fun hit => ?_
  rw [h.deref (hits it hit).1]

theorem points_cons {it : SuccIterator} {rest : List SuccIterator} {bb b : Nat}
    (hit : s.deref it = .ok bb) : s.Points (it :: rest) b ↔ b = bb ∨ s.Points rest b := by
  constructor
  · rintro ⟨it', hmem, hderef⟩
    rcases List.mem_cons.1 hmem with rfl | hmem
    · exact .inl (Except.ok.inj (hderef.symm.trans hit))
    · exact .inr ⟨it', hmem, hderef⟩
  · rintro (rfl | ⟨it', hmem, hderef⟩)
    · exact ⟨it, List.mem_cons_self, hit⟩
    · exact ⟨it', List.mem_cons_of_mem _ hmem, hderef⟩

/-- The dummies of the empty successors: afterwards no successor is empty. -/
structure Filled (s : State) (its empty : List SuccIterator) (t : State) : Prop where
  kept : Kept s t
  sub : ∀ it ∈ empty, it ∈ its
  nil : ∀ bb, s.Points empty bb → s.lists bb = []
  other : ∀ bb, ¬ s.Points empty bb → t.lists bb = s.lists bb
  full : ∀ bb, s.Points its bb → t.lists bb ≠ []

theorem addDummies_eq {its : List SuccIterator} (hits : ∀ it ∈ its, s.Valid it) {bb₀ : Ref}
    (hbb : s.bld.bb = some bb₀) :
    ∃ empty t, s.addDummies its = .ok (empty, t) ∧ Filled s its empty t := by
  induction its generalizing s with
  | nil =>
    refine ⟨[], s, rfl, Kept.refl s, fun _ h => h, ?_, fun _ _ => rfl, ?_⟩
    · rintro bb ⟨it, hit, -⟩
      cases hit
    · rintro bb ⟨it, hit, -⟩
      cases hit
  | cons it rest ih =>
    have hrest : ∀ it ∈ rest, s.Valid it := fun it h => hits it (List.mem_cons_of_mem _ h)
    obtain ⟨hlt, bb, hderef⟩ := hits it List.mem_cons_self
    by_cases hempty : s.lists bb = []
    · obtain ⟨t, hdummy, hkept, -, -, hlists⟩ := dummyRet_eq hbb (.tmp bb)
      obtain ⟨empty, u, hadd, hfilled⟩ :=
        ih (s := t) (fun it h => hkept.valid (hrest it h)) (hkept.bb.trans hbb)
      have hpoints := hkept.points empty fun it h => hrest it (hfilled.sub it h)
      have hself : t.lists bb ≠ [] := by
        rw [hlists]
        simp [Ref.bb]
      have hne : ∀ b, b ≠ bb → t.lists b = s.lists b := fun b hb => by
        rw [hlists]
        exact Function.update_of_ne hb _ _
      refine ⟨it :: empty, u, ?_, hkept.trans hfilled.kept, ?_, fun b hb => ?_, fun b hb => ?_,
        fun b hb => ?_⟩
      · simp only [addDummies, hderef, bind, Except.bind, hempty, if_true, hdummy, hadd]
        rfl
      · rintro it' (_ | ⟨_, h⟩)
        · exact List.mem_cons_self
        · exact List.mem_cons_of_mem _ (hfilled.sub it' h)
      · rcases (points_cons hderef).1 hb with rfl | hb
        · exact hempty
        · have hnil := hfilled.nil b ((hpoints b).2 hb)
          have hbne : b ≠ bb := by
            rintro rfl
            exact hself hnil
          rw [← hne b hbne]
          exact hnil
      · rw [points_cons hderef, not_or] at hb
        rw [hfilled.other b fun h => hb.2 ((hpoints b).1 h), hne b hb.1]
      · rcases (points_cons hderef).1 hb with rfl | hb
        · -- The block has its dummy, and is not empty to the rest of the loop.
          rw [hfilled.other b fun h => hself (hfilled.nil b h)]
          exact hself
        · exact hfilled.full b ((hkept.points rest hrest b).2 hb)
    · obtain ⟨empty, t, hadd, hfilled⟩ := ih hrest hbb
      refine ⟨empty, t, ?_, hfilled.kept, fun it h => List.mem_cons_of_mem _ (hfilled.sub it h),
        hfilled.nil, hfilled.other, fun b hb => ?_⟩
      · simp only [addDummies, hderef, bind, Except.bind, hempty, if_false, hadd]
      · rcases (points_cons hderef).1 hb with rfl | hb
        · rw [hfilled.other b fun h => hempty (hfilled.nil b h)]
          exact hempty
        · exact hfilled.full b hb

/-- The dummies of the empty successors go. -/
theorem clear_eq {its : List SuccIterator} (hits : ∀ it ∈ its, s.Valid it) :
    ∃ lists, s.clear its = .ok {s with lists} ∧ (∀ bb, s.Points its bb → lists bb = []) ∧
      ∀ bb, ¬ s.Points its bb → lists bb = s.lists bb := by
  induction its generalizing s with
  | nil =>
    refine ⟨s.lists, rfl, ?_, fun _ _ => rfl⟩
    rintro bb ⟨it, hit, -⟩
    cases hit
  | cons it rest ih =>
    obtain ⟨-, bb, hderef⟩ := hits it List.mem_cons_self
    obtain ⟨lists, hclear, hpoints, hother⟩ :=
      ih (s := {s with lists := Function.update s.lists bb []})
        fun it h => hits it (List.mem_cons_of_mem _ h)
    refine ⟨lists, ?_, fun b hb => ?_, fun b hb => ?_⟩
    · simp only [clear, hderef, bind, Except.bind]
      exact hclear
    · rcases (points_cons hderef).1 hb with rfl | hb
      · by_cases hrest : s.Points rest b
        · exact hpoints b hrest
        · rw [hother b hrest]
          exact Function.update_self _ _ _
      · exact hpoints b hb
    · rw [points_cons hderef, not_or] at hb
      rw [hother b hb.2]
      exact Function.update_of_ne hb.1 _ _

end State
end RiscvSbt.Splitting
