import RiscvSbt.Context.Maps
import RiscvSbt.Block.Upkeep

/-! The end of a function.

`finish` closes the block that is open with a return, or with `unreachable` in main, and then
removes the last block if that is empty. `returned` are the blocks in between, and `erased` is
the block removed. -/
namespace RiscvSbt.Context
open Library Block State

/-- What `l`, put at the end of the insert block, leaves alone. -/
structure Appends (s t : Block.State) (l : List Block.Instr) : Prop where
  insert : t.bld.insertBlock = s.bld.insertBlock
  updateFirst : t.bld.updateFirst = s.bld.updateFirst
  nextBlock : t.nextBlock = s.nextBlock
  nextInstr : s.nextInstr ≤ t.nextInstr
  marks : ∀ i, i < s.nextInstr → t.marks i = s.marks i
  layout : t.layout = s.layout
  func : t.func = s.func
  pending : t.pending = s.pending
  sections : t.sections = s.sections
  other : ∀ b, b ≠ s.bld.insertBlock → t.bbs b = s.bbs b
  self : t.bbs s.bld.insertBlock = {s.insertBB with insts := s.insertBB.insts ++ l}
  fresh : ∀ i ∈ l, s.nextInstr ≤ i.id ∧ i.id < t.nextInstr ∧ t.marks i.id = none

namespace Appends
variable {s t : Block.State} {l : List Block.Instr}

theorem refl (s : Block.State) : Appends s s [] := by
  refine ⟨rfl, rfl, rfl, le_refl _, fun _ _ => rfl, rfl, rfl, rfl, rfl, fun _ _ => rfl, ?_, ?_⟩
  · rw [List.append_nil]
    rfl
  · simp

theorem emit (h : Appends s t l) (kind : Kind) :
    Appends s (t.emit kind) (l ++ [⟨t.nextInstr, kind⟩]) := by
  have hins : t.insertBB = {s.insertBB with insts := s.insertBB.insts ++ l} := by
    show t.bbs t.bld.insertBlock = _
    rw [h.insert, h.self]
  refine ⟨h.insert, h.updateFirst, h.nextBlock, Nat.le_succ_of_le h.nextInstr, fun i hi => ?_,
    h.layout, h.func,
    h.pending, h.sections, fun b hb => ?_, ?_, fun i hi => ?_⟩
  · exact (emit_marks (lt_of_lt_of_le hi h.nextInstr)).trans (h.marks i hi)
  · exact (emit_bbs_of_ne (h.insert ▸ hb)).trans (h.other b hb)
  · rw [← h.insert]
    show Function.update t.bbs t.bld.insertBlock _ t.bld.insertBlock = _
    rw [Function.update_self, hins, List.append_assoc]
  · rcases List.mem_append.mp hi with hi | hi
    · obtain ⟨h₁, h₂, h₃⟩ := h.fresh i hi
      exact ⟨h₁, Nat.lt_succ_of_lt h₂, (emit_marks h₂).trans h₃⟩
    · obtain rfl := List.mem_singleton.mp hi
      exact ⟨h.nextInstr, Nat.lt_succ_self _, emit_marks_self t kind⟩

theorem ops (h : Appends s t l) (c : Nat) :
    ∃ m, Appends s (t.ops c) (l ++ m) ∧ m.map Instr.kind = List.replicate c .op := by
  induction c generalizing t l with
  | zero => exact ⟨[], by rw [List.append_nil]; exact h, rfl⟩
  | succ c ih =>
    obtain ⟨m, hm, hk⟩ := ih (h.emit .op)
    refine ⟨⟨t.nextInstr, .op⟩ :: m, ?_, ?_⟩
    · rw [List.append_assoc] at hm
      exact hm
    · rw [List.map_cons, hk]
      rfl

theorem tag (h : Appends s t l) (b : Nat) : (t.bbs b).tag = (s.bbs b).tag := by
  by_cases hb : b = s.bld.insertBlock
  · rw [hb, h.self]
    rfl
  · rw [h.other b hb]

theorem insts (h : Appends s t l) {b : Nat} {i : Block.Instr} (hi : i ∈ (t.bbs b).insts) :
    i ∈ (s.bbs b).insts ∨ i ∈ l := by
  by_cases hb : b = s.bld.insertBlock
  · subst hb
    rw [h.self] at hi
    exact List.mem_append.mp hi
  · rw [h.other b hb] at hi
    exact .inl hi

end Appends

namespace State
variable (p : Program) (s : State)

/-- How a function that is still open ends. -/
def ending : List Kind :=
  if s.blk.insertBB.terminated then []
  else if s.inMain then [.unreachable]
  else List.replicate p.epilogue .op ++ [.ret]

/-- The blocks once none is open. -/
def returned : Block.State :=
  if s.blk.insertBB.terminated then s.blk
  else if s.inMain then s.blk.emit .unreachable
  else (s.blk.ops p.epilogue).retVoid

/-- The block that `finish` removes. -/
def erased : Option Nat :=
  match (s.returned p).func.bbMap.data.getLast? with
  | some (_, bb) => if ((s.returned p).bbs bb).insts = [] then some bb else none
  | none => none

end State

variable {p : Program} {s t : State}

theorem returned_appends (p : Program) (s : State) :
    ∃ l, Appends s.blk (s.returned p) l ∧ l.map Instr.kind = s.ending p := by
  unfold State.returned State.ending
  split
  · exact ⟨[], .refl _, rfl⟩
  · split
    · exact ⟨_, (Appends.refl s.blk).emit .unreachable, rfl⟩
    · obtain ⟨m, hm, hk⟩ := (Appends.refl s.blk).ops p.epilogue
      refine ⟨_, hm.emit .ret, ?_⟩
      rw [List.nil_append, List.map_append, hk]
      rfl

/-- The end of a function branches nowhere. -/
theorem ending_kinds {kind : Kind} (h : kind ∈ s.ending p) : kind.succs = [] ∧ kind ≠ .indBr := by
  unfold State.ending at h
  split at h
  · cases h
  · split at h
    · rw [List.mem_singleton.mp h]
      exact ⟨rfl, nofun⟩
    · rcases List.mem_append.mp h with h | h
      · rw [List.eq_of_mem_replicate h]
        exact ⟨rfl, nofun⟩
      · rw [List.mem_singleton.mp h]
        exact ⟨rfl, nofun⟩

/-- How a block that is still open is closed. -/
def Program.closing (p : Program) (inMain : Bool) : List Kind :=
  if inMain then [.unreachable] else List.replicate p.epilogue .op ++ [.ret]

theorem ending_open (h : s.blk.insertBB.terminated = false) : s.ending p = p.closing s.inMain := by
  unfold State.ending
  rw [if_neg (by rw [h]; exact nofun)]
  rfl

theorem finish_blk (p : Program) (s : State) :
    (s.finish p).blk = { s.returned p with
      layout := fun f => ((s.returned p).layout f).filter fun b => s.erased p ≠ some b } := by
  have hall : ∀ blk : Block.State, blk = {blk with
      layout := fun f => (blk.layout f).filter fun b => (none : Option Nat) ≠ some b} := by
    intro blk
    have hlay : blk.layout = fun f => (blk.layout f).filter fun b =>
        (none : Option Nat) ≠ some b := by
      funext f
      exact (List.filter_eq_self.mpr fun b _ => by simp).symm
    rw [← hlay]
  show (match (s.returned p).func.bbMap.data.getLast? with
    | some (_, bb) =>
      if ((s.returned p).bbs bb).insts = [] then
        {s.returned p with layout := fun f => ((s.returned p).layout f).filter (· ≠ bb)}
      else s.returned p
    | none => s.returned p) = _
  unfold State.erased
  cases (s.returned p).func.bbMap.data.getLast? with
  | none => exact hall _
  | some i =>
    dsimp only
    split
    · have hb : ∀ b, decide (some i.2 ≠ some b) = decide (b ≠ i.2) := fun b => by
        simp [eq_comm]
      simp only [hb]
    · exact hall _

/-- The end of a function is put behind what is in its blocks. -/
theorem finish_insts (p : Program) (s : State) (b : Nat) :
    ∃ x, ((s.finish p).blk.bbs b).insts = (s.blk.bbs b).insts ++ x ∧ ∀ i ∈ x,
    i.kind ∈ s.ending p := by
  obtain ⟨m, hm, hk⟩ := returned_appends p s
  rw [finish_blk]
  show ∃ x, ((s.returned p).bbs b).insts = _ ∧ _
  by_cases hb : b = s.blk.bld.insertBlock
  · rw [hb, hm.self]
    exact ⟨m, rfl, fun i hi => hk ▸ List.mem_map_of_mem hi⟩
  · rw [hm.other b hb]
    exact ⟨[], (List.append_nil _).symm, fun i hi => (by cases hi)⟩

theorem finish_marks (p : Program) (s : State) {i : Nat} (hi : i < s.blk.nextInstr) :
    (s.finish p).blk.marks i = s.blk.marks i := by
  obtain ⟨m, hm, -⟩ := returned_appends p s
  rw [finish_blk]
  exact hm.marks i hi

theorem finish_nextInstr (p : Program) (s : State) :
    s.blk.nextInstr ≤ (s.finish p).blk.nextInstr := by
  obtain ⟨m, hm, -⟩ := returned_appends p s
  rw [finish_blk]
  exact hm.nextInstr

/-- What `finish` leaves alone. -/
theorem finish_dests (p : Program) (s : State) (i : Nat) : (s.finish p).dests i =
    if i ∈ s.blk.func.indBrs then s.dests i ++ s.blk.func.indBBs else s.dests i := rfl

end RiscvSbt.Context
