import RiscvSbt.Block.Split

/-! What a split shows to the outside, whatever the block holds.

`split_spec` says what becomes of a block in order. Here nothing is known of it: only that
the split succeeds. Still other blocks are left alone, the two halves keep whose they are,
and nothing but a branch comes in. -/
namespace RiscvSbt.Block
open Library State

/-- What a block keeps for good. -/
def BasicBlock.tag (b : BasicBlock) : FnId × Option Nat × Bool := (b.f, b.addr, b.untracked)

structure Outer (s : State) (bb addr : Nat) (t : State) : Prop where
  other : ∀ b, b ≠ bb → b ≠ s.nextBlock → t.bbs b = s.bbs b
  old : (t.bbs bb).tag = (s.bbs bb).tag
  new : (t.bbs s.nextBlock).tag = ((s.bbs bb).f, some addr, false)
  nextBlock : t.nextBlock = s.nextBlock + 1
  nextInstr : s.nextInstr ≤ t.nextInstr
  marks : ∀ i, i < s.nextInstr → t.marks i = s.marks i
  layout : t.layout = placeAfter s.layout bb s.nextBlock
  insert : t.bld.insertBlock = s.bld.insertBlock
  first : t.bld.first = s.bld.first
  func : t.func = s.func
  pending : t.pending = s.pending
  sections : t.sections = s.sections
  /-- An indirect branch is in one of the halves if it was in the block. -/
  indirect : ∀ b, b = bb ∨ b = s.nextBlock → ∀ i ∈ (t.bbs b).insts, i.kind = .indBr →
    i ∈ (s.bbs bb).insts
  /-- What the block begins with, before the instruction that it is split at. -/
  keeps : ∀ l : List Instr, l <+: (s.bbs bb).insts →
    (∀ i ∈ l, (s.bbs bb).instrMap.get? addr ≠ some i.id) → l <+: (t.bbs bb).insts
  mapped : ∀ b, b = bb ∨ b = s.nextBlock → ∀ a i, (t.bbs b).instrMap.get? a = some i →
    (s.bbs bb).instrMap.get? a = some i

variable {s t : State}

theorem prefix_takeWhile {α : Type} {p : α → Bool} {l m : List α} (h : l <+: m)
    (hp : ∀ x ∈ l, p x = true) : l <+: m.takeWhile p := by
  obtain ⟨r, rfl⟩ := h
  rw [List.takeWhile_append_of_pos hp]
  exact List.prefix_append _ _

/-- **Splitting, seen from outside.** -/
theorem split_outer {bb addr nb : Nat} (hbb : bb ≠ s.nextBlock)
    (h : s.split bb addr = .ok (nb, t)) : nb = s.nextBlock ∧ Outer s bb addr t := by
  cases hm : (s.bbs bb).instrMap.get? addr with
  | none =>
    unfold State.split at h
    rw [hm] at h
    cases h
  | some tgt =>
    cases hany : (s.bbs bb).insts.any (·.id = tgt) with
    | false =>
      unfold State.split at h
      simp only [hm, hany, Bool.false_eq_true, if_false] at h
      cases h
    | true =>
      rw [split_eq hm hany] at h
      obtain ⟨rfl, rfl⟩ := Prod.mk.inj (Except.ok.inj h)
      have hne : (s.bbs bb).insts ≠ [] := by
        intro hnil
        rw [hnil] at hany
        cases hany
      have p := parts_spec s tgt hne hbb
      generalize s.parts bb tgt = u at p
      obtain ⟨dummy, n, l, hdummy, -, -, -, hold, hnew, hl, -⟩ := p.halves
      obtain ⟨hold', hnew', hother'⟩ := splitInstrMap_spec u addr hbb
      rw [hold] at hold' hnew'
      rw [hnew] at hnew'
      -- Beside the dummy, what is in a half was in the block.
      have hback : ∀ i ∈ (s.bbs bb).insts ++
          (if (terminator (s.bbs bb).insts).isNone = true then [dummy] else []),
          i.kind = .indBr → i ∈ (s.bbs bb).insts := by
        intro i hi hk
        rcases List.mem_append.mp hi with hi | hi
        · exact hi
        · split at hi
          · rw [List.mem_singleton.mp hi, hdummy] at hk
            cases hk
          · cases hi
      refine ⟨rfl, fun b hb hnb => ?_, ?_, ?_, p.nextBlock, p.nextInstr, p.marks, p.layout,
        p.insert, p.first, p.func, p.pending, p.sections, fun b hb i hi hk => ?_,
        fun m hm' hne => ?_, fun b hb a i hi => ?_⟩
      · rw [hother' b hb hnb, p.other b hb hnb]
      · rw [hold']
        rfl
      · rw [hnew']
        rfl
      · rcases hb with rfl | rfl
        · rw [hold'] at hi
          rcases List.mem_append.mp hi with hi | hi
          · exact hback i ((List.takeWhile_sublist _).subset hi) hk
          · rw [List.mem_singleton.mp hi] at hk
            cases hk
        · rw [hnew'] at hi
          exact hback i ((List.dropWhile_sublist _).subset (hl i hi)) hk
      · rw [hold']
        refine (prefix_takeWhile (hm'.trans (List.prefix_append _ _)) fun i hi => ?_).trans
          (List.prefix_append _ _)
        refine decide_eq_true fun he => hne i hi ?_
        rw [he, hm]
      · rcases hb with rfl | rfl
        · rw [hold', Map.get?_erase] at hi
          split at hi
          · exact hi
          · cases hi
        · rw [hnew', Map.get?_suffix] at hi
          split at hi
          · exact hi
          · cases hi

end RiscvSbt.Block
