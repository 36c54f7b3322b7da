import RiscvSbt.Block.Machine
import Mathlib.Data.List.TakeDrop
import Mathlib.Tactic.Common

/-! What splitting a block does.

`parts_spec` is the effect on any block, `split_spec` that on a well-formed one: the dummy
instructions that `splitBasicBlock` needs in empty successors and in an unterminated block come and
go, and only the two halves differ afterwards. -/
namespace RiscvSbt.Block
open Library

/-! ### Terminators -/

@[simp] theorem terminator_nil : terminator [] = none := rfl

theorem terminator_append (l : List Instr) (i : Instr) :
    terminator (l ++ [i]) = if i.kind.isTerminator then some i.kind else none := by
  simp only [terminator, List.getLast?_append_cons, List.getLast?_singleton, Option.map_some]
  rfl

theorem terminator_append_cons (l r : List Instr) (i : Instr) :
    terminator (l ++ i :: r) = terminator (i :: r) := by
  unfold terminator
  rw [List.getLast?_append_cons]

/-- Instructions none of which touches control flow. -/
def Straight (l : List Instr) : Prop := ∀ i ∈ l, i.kind = .op

theorem Straight.nil : Straight [] := fun _ h => nomatch h

theorem Straight.append {l m : List Instr} (hl : Straight l) (hm : Straight m) :
    Straight (l ++ m) := by
  intro i hi
  rcases List.mem_append.mp hi with h | h
  · exact hl i h
  · exact hm i h

theorem Straight.terminator {l : List Instr} (h : Straight l) : terminator l = none := by
  rcases List.eq_nil_or_concat l with rfl | ⟨m, i, rfl⟩
  · rfl
  · rw [List.concat_eq_append] at h ⊢
    rw [terminator_append, h i (List.mem_append_right _ (List.mem_singleton.mpr rfl))]
    rfl

/-! ### Cutting a list of instructions -/

/-- An instruction found by its identity cuts the list where it is. -/
theorem span_id {top : List Instr} {i : Instr} (h : ∀ j ∈ top, j.id ≠ i.id)
    (bottom : List Instr) :
    (top ++ i :: bottom).span (·.id ≠ i.id) = (top, i :: bottom) := by
  have htop : ∀ j ∈ top, decide (j.id ≠ i.id) = true := fun j hj => decide_eq_true (h j hj)
  rw [List.span_eq_takeWhile_dropWhile, List.takeWhile_append_of_pos htop,
    List.dropWhile_append_of_pos htop, List.takeWhile_cons_of_neg (by simp),
    List.dropWhile_cons_of_neg (by simp), List.append_nil]

namespace State

/-! ### Dummy instructions -/

/-- What the dummies leave behind: only used-up identities. -/
structure Same (s t : State) : Prop where
  nextBlock : t.nextBlock = s.nextBlock
  nextInstr : s.nextInstr ≤ t.nextInstr
  marks : ∀ i, i < s.nextInstr → t.marks i = s.marks i
  layout : t.layout = s.layout
  insert : t.bld.insertBlock = s.bld.insertBlock
  first : t.bld.first = s.bld.first
  updateFirst : s.bld.updateFirst = true → t.bld.updateFirst = true
  func : t.func = s.func
  pending : t.pending = s.pending
  sections : t.sections = s.sections

theorem Same.refl (s : State) : Same s s :=
  ⟨rfl, le_refl _, fun _ _ => rfl, rfl, rfl, rfl, id, rfl, rfl, rfl⟩

theorem Same.trans {s t u : State} (h : Same s t) (g : Same t u) : Same s u where
  nextBlock := g.nextBlock.trans h.nextBlock
  nextInstr := le_trans h.nextInstr g.nextInstr
  marks i hi := (g.marks i (lt_of_lt_of_le hi h.nextInstr)).trans (h.marks i hi)
  layout := g.layout.trans h.layout
  insert := g.insert.trans h.insert
  first := g.first.trans h.first
  updateFirst hu := g.updateFirst (h.updateFirst hu)
  func := g.func.trans h.func
  pending := g.pending.trans h.pending
  sections := g.sections.trans h.sections

/-- The heap with one more instruction at the end of a block. -/
def pushed (bbs : Nat → BasicBlock) (bb : Nat) (i : Instr) : Nat → BasicBlock :=
  Function.update bbs bb {bbs bb with insts := (bbs bb).insts ++ [i]}

theorem dummyRet_bbs (s : State) (bb : Nat) :
    (s.dummyRet bb).bbs = pushed s.bbs bb ⟨s.nextInstr, .ret⟩ := rfl

theorem dummyRet_same (s : State) (bb : Nat) : Same s (s.dummyRet bb) where
  nextBlock := rfl
  nextInstr := Nat.le_succ _
  marks i hi := Function.update_of_ne (Nat.ne_of_lt hi) _ _
  layout := rfl
  insert := rfl
  first := by
    simp [dummyRet, restoreInsertBlock, setUpdateFirst, retVoid, emit, setInsertBlock,
      saveInsertBlock, State.updateFirst]
  updateFirst _ := by
    simp [dummyRet, restoreInsertBlock, setUpdateFirst, retVoid, emit, setInsertBlock,
      saveInsertBlock, State.updateFirst]
  func := rfl
  pending := rfl
  sections := rfl

/-- Dummies go into blocks of the list that were empty, and only there. -/
theorem addDummies_spec (s : State) (succs : List Nat) :
    Same s (s.addDummies succs).1 ∧
    (∀ bb, bb ∈ (s.addDummies succs).2 → (s.bbs bb).insts = []) ∧
    (∀ bb, bb ∉ (s.addDummies succs).2 → (s.addDummies succs).1.bbs bb = s.bbs bb) ∧
    ∀ bb, {(s.addDummies succs).1.bbs bb with insts := (s.bbs bb).insts} = s.bbs bb := by
  induction succs generalizing s with
  | nil => exact ⟨Same.refl s, fun _ h => (nomatch h), fun _ _ => rfl, fun _ => rfl⟩
  | cons b rest ih =>
    by_cases hb : (s.bbs b).insts = []
    · obtain ⟨hsame, hempty, hother, hrest⟩ := ih (s.dummyRet b)
      have hne : ∀ bb, bb ≠ b → (s.dummyRet b).bbs bb = s.bbs bb := fun bb h => by
        rw [dummyRet_bbs, pushed, Function.update_of_ne h]
      have heq : (s.dummyRet b).bbs b = {s.bbs b with insts := [⟨s.nextInstr, .ret⟩]} := by
        rw [dummyRet_bbs, pushed, Function.update_self, hb, List.nil_append]
      simp only [addDummies, hb, if_true]
      refine ⟨(s.dummyRet_same b).trans hsame, fun bb h => ?_, fun bb h => ?_, fun bb => ?_⟩
      · rcases List.mem_cons.mp h with rfl | h
        · exact hb
        · by_cases hbb : bb = b
          · rw [hbb]; exact hb
          · rw [← hne bb hbb]; exact hempty bb h
      · rw [List.mem_cons, not_or] at h
        rw [hother bb h.2, hne bb h.1]
      · have hr := hrest bb
        by_cases hbb : bb = b
        · subst hbb
          rw [heq] at hr
          rw [show s.bbs bb = {s.bbs bb with insts := (s.bbs bb).insts} from rfl]
          simp only [BasicBlock.mk.injEq] at hr ⊢
          exact ⟨hr.1, hr.2.1, hr.2.2.1, trivial, hr.2.2.2.2⟩
        · rw [hne bb hbb] at hr
          exact hr
    · simp only [addDummies, hb, if_false]
      exact ih s

theorem addDummies_subset (s : State) (succs : List Nat) :
    ∀ bb ∈ (s.addDummies succs).2, bb ∈ succs := by
  induction succs generalizing s with
  | nil => exact fun _ h => nomatch h
  | cons b rest ih =>
    intro bb h
    unfold addDummies at h
    split at h
    · rcases List.mem_cons.mp h with rfl | h
      · exact List.mem_cons_self
      · exact List.mem_cons_of_mem _ (ih _ bb h)
    · exact List.mem_cons_of_mem _ (ih _ bb h)

theorem clear_same (s : State) (bb : Nat) : Same s (s.clear bb) := by
  exact ⟨rfl, le_refl _, fun _ _ => rfl, rfl, rfl, rfl, id, rfl, rfl, rfl⟩

theorem clears_spec (s : State) (empty : List Nat) :
    Same s (empty.foldl clear s) ∧
    ∀ bb, (empty.foldl clear s).bbs bb =
      if bb ∈ empty then {s.bbs bb with insts := []} else s.bbs bb := by
  induction empty generalizing s with
  | nil => exact ⟨Same.refl s, fun _ => rfl⟩
  | cons b rest ih =>
    obtain ⟨hsame, hbbs⟩ := ih (s.clear b)
    refine ⟨(s.clear_same b).trans hsame, fun bb => ?_⟩
    rw [List.foldl_cons, hbbs]
    by_cases hbb : bb = b
    · subst hbb
      rw [if_pos List.mem_cons_self]
      simp only [clear, setBlock, Function.update_self]
      split <;> rfl
    · simp only [clear, setBlock, Function.update_of_ne hbb, List.mem_cons, hbb, false_or]

/-! ### The parts of a split -/

theorem Same.ite {s t : State} {c : Prop} [Decidable c] (h : Same s t) :
    Same s (if c then t else s) := by
  split
  · exact h
  · exact .refl s

/-- The block with a return at its end, or as it is. -/
theorem dummied (s : State) (bb : Nat) (c : Prop) [Decidable c] :
    let t := if c then s.dummyRet bb else s
    Same s t ∧ (∀ b, b ≠ bb → t.bbs b = s.bbs b) ∧
      t.bbs bb = {s.bbs bb with
        insts := (s.bbs bb).insts ++ if c then [⟨s.nextInstr, .ret⟩] else []} := by
  refine ⟨.ite (s.dummyRet_same bb), ?_, ?_⟩
  · intro b hb
    split
    · rw [dummyRet_bbs, pushed, Function.update_of_ne hb]
    · rfl
  · split
    · rw [dummyRet_bbs, pushed, Function.update_self]
    · rw [List.append_nil]

/-- A block without its last instruction, or as it is. -/
theorem shortened (s : State) (bb : Nat) (c : Prop) [Decidable c] :
    let t := if c then s.eraseLast bb else s
    Same s t ∧ (∀ b, b ≠ bb → t.bbs b = s.bbs b) ∧
      t.bbs bb = {s.bbs bb with
        insts := if c then (s.bbs bb).insts.dropLast else (s.bbs bb).insts} := by
  refine ⟨.ite ⟨rfl, le_refl _, fun _ _ => rfl, rfl, rfl, rfl, id, rfl, rfl, rfl⟩, ?_, ?_⟩
  · intro b hb
    split
    · exact Function.update_of_ne hb _ _
    · rfl
  · split
    · exact Function.update_self _ _ _
    · rfl

/-- The block and its new half, before the map is split. -/
theorem splitBasicBlock_spec (s : State) {bb : Nat} (tgt : Nat) (hbb : bb ≠ s.nextBlock) :
    let t := s.splitBasicBlock bb tgt
    let l := (s.bbs bb).insts
    t.bbs bb = {s.bbs bb with
      insts := l.takeWhile (·.id ≠ tgt) ++ [⟨s.nextInstr, .br s.nextBlock⟩]} ∧
      t.bbs s.nextBlock = {f := (s.bbs bb).f, insts := l.dropWhile (·.id ≠ tgt)} ∧
      ∀ b, b ≠ bb → b ≠ s.nextBlock → t.bbs b = s.bbs b := by
  simp only [splitBasicBlock, setBlock, List.span_eq_takeWhile_dropWhile]
  refine ⟨Function.update_self _ _ _, ?_, fun b hb hnb => ?_⟩
  · rw [Function.update_of_ne hbb.symm, Function.update_self]
  · rw [Function.update_of_ne hb, Function.update_of_ne hnb]

theorem splitInstrMap_spec (s : State) {bb bb2 : Nat} (addr : Nat) (hne : bb ≠ bb2) :
    let t := s.splitInstrMap bb bb2 addr
    t.bbs bb = {s.bbs bb with instrMap := (s.bbs bb).instrMap.erase addr} ∧
      t.bbs bb2 = {s.bbs bb2 with addr := some addr, instrMap := (s.bbs bb).instrMap.suffix addr} ∧
      ∀ b, b ≠ bb → b ≠ bb2 → t.bbs b = s.bbs b := by
  simp only [splitInstrMap, setBlock]
  refine ⟨?_, ?_, fun b hb hnb => ?_⟩
  · rw [Function.update_of_ne hne, Function.update_self]
  · rw [Function.update_self]
  · rw [Function.update_of_ne hnb, Function.update_of_ne hb]

/-- What a split does before it divides the map. -/
def parts (s : State) (bb tgt : Nat) : State :=
  let term := terminator (s.bbs bb).insts
  let s₁ := s.addDummies ((term.map Kind.succs).getD [])
  let s₂ := if term.isNone then s₁.1.dummyRet bb else s₁.1
  let s₃ := s₂.splitBasicBlock bb tgt
  let s₄ := if term.isNone then s₃.eraseLast s.nextBlock else s₃
  s₁.2.foldl clear s₄

theorem split_eq {s : State} {bb addr tgt : Nat} (hmap : (s.bbs bb).instrMap.get? addr = some tgt)
    (hany : (s.bbs bb).insts.any (·.id = tgt) = true) :
    s.split bb addr =
      .ok (s.nextBlock, (s.parts bb tgt).splitInstrMap bb s.nextBlock addr) := by
  unfold split
  rw [hmap]
  simp only [hany, if_true]
  rfl

/-- The parts of a block that is split before the instruction `tgt`. A terminator that was put in
is among the instructions that are cut, and is taken out again. -/
structure Parts (s : State) (bb tgt : Nat) (t : State) : Prop where
  nextBlock : t.nextBlock = s.nextBlock + 1
  nextInstr : s.nextInstr ≤ t.nextInstr
  marks : ∀ i, i < s.nextInstr → t.marks i = s.marks i
  layout : t.layout = placeAfter s.layout bb s.nextBlock
  insert : t.bld.insertBlock = s.bld.insertBlock
  first : t.bld.first = s.bld.first
  updateFirst : s.bld.updateFirst = true → t.bld.updateFirst = true
  func : t.func = s.func
  pending : t.pending = s.pending
  sections : t.sections = s.sections
  other : ∀ b, b ≠ bb → b ≠ s.nextBlock → t.bbs b = s.bbs b
  halves : ∃ (dummy : Instr) (n : Nat) (l : List Instr), dummy.kind = .ret ∧
    s.nextInstr ≤ n ∧ n < t.nextInstr ∧ t.marks n = none ∧
    let c := (terminator (s.bbs bb).insts).isNone = true
    let insts := (s.bbs bb).insts ++ if c then [dummy] else []
    let cut := insts.dropWhile (·.id ≠ tgt)
    t.bbs bb = {s.bbs bb with
      insts := insts.takeWhile (·.id ≠ tgt) ++ [⟨n, .br s.nextBlock⟩]} ∧
    t.bbs s.nextBlock = {f := (s.bbs bb).f, insts := l} ∧ (∀ i ∈ l, i ∈ cut) ∧
    ((∀ k, terminator (s.bbs bb).insts = some k → s.nextBlock ∉ k.succs) →
      l = if c then cut.dropLast else cut)

theorem parts_spec (s : State) {bb : Nat} (tgt : Nat) (hne : (s.bbs bb).insts ≠ [])
    (hbb : bb ≠ s.nextBlock) : Parts s bb tgt (s.parts bb tgt) := by
  unfold parts
  -- The dummies in the empty successors.
  obtain ⟨hsame₁, hempty, hother₁, hkeep₁⟩ :=
    s.addDummies_spec (((terminator (s.bbs bb).insts).map Kind.succs).getD [])
  have hsub := s.addDummies_subset (((terminator (s.bbs bb).insts).map Kind.succs).getD [])
  generalize hterm : terminator (s.bbs bb).insts = term at *
  dsimp only
  generalize (s.addDummies ((term.map Kind.succs).getD [])).1 = s₁ at *
  generalize (s.addDummies ((term.map Kind.succs).getD [])).2 = empty at *
  have hbbe : bb ∉ empty := fun he => hne (hempty bb he)
  have hbb₁ := hother₁ bb hbbe
  -- The terminator, if it is missing.
  obtain ⟨hsame₂, hother₂, hbb₂⟩ := dummied s₁ bb (term.isNone = true)
  generalize (if term.isNone = true then s₁.dummyRet bb else s₁) = s₂ at *
  have hsame := hsame₁.trans hsame₂
  have hn : s.nextBlock = s₂.nextBlock := hsame.nextBlock.symm
  rw [hbb₁] at hbb₂
  -- The split itself.
  obtain ⟨hold₃, hnew₃, hother₃⟩ := splitBasicBlock_spec s₂ tgt (hn ▸ hbb)
  rw [← hn, hbb₂] at hold₃ hnew₃
  rw [← hn] at hother₃
  have hlt : s₂.nextInstr < (s₂.splitBasicBlock bb tgt).nextInstr := Nat.lt_succ_self _
  have hmarks₃ : ∀ i, i < s.nextInstr → (s₂.splitBasicBlock bb tgt).marks i = s.marks i :=
    fun i hi => (Function.update_of_ne
      (Nat.ne_of_lt (lt_of_lt_of_le hi hsame.nextInstr)) _ _).trans (hsame.marks i hi)
  have hfresh : (s₂.splitBasicBlock bb tgt).marks s₂.nextInstr = none := Function.update_self _ _ _
  have hblock₃ : (s₂.splitBasicBlock bb tgt).nextBlock = s.nextBlock + 1 :=
    congrArg (· + 1) hsame.nextBlock
  have hlay₃ : (s₂.splitBasicBlock bb tgt).layout = placeAfter s.layout bb s.nextBlock := by
    rw [← hsame.layout, hn]
    rfl
  have hbld₃ : (s₂.splitBasicBlock bb tgt).bld = s₂.bld := rfl
  have hfunc₃ : (s₂.splitBasicBlock bb tgt).func = s.func := hsame.func
  have hpend₃ : (s₂.splitBasicBlock bb tgt).pending = s.pending := hsame.pending
  have hsec₃ : (s₂.splitBasicBlock bb tgt).sections = s.sections := hsame.sections
  generalize s₂.splitBasicBlock bb tgt = s₃ at *
  -- The dummies go.
  obtain ⟨hsame₄, hother₄, hnew₄⟩ := shortened s₃ s.nextBlock (term.isNone = true)
  generalize (if term.isNone = true then s₃.eraseLast s.nextBlock else s₃) = s₄ at *
  obtain ⟨hsame₅, hbbs₅⟩ := s₄.clears_spec empty
  generalize empty.foldl clear s₄ = s₅ at *
  have hsame' := hsame₄.trans hsame₅
  rw [hnew₃] at hnew₄
  refine ⟨hsame'.nextBlock.trans hblock₃,
    le_trans hsame.nextInstr (le_trans (le_of_lt hlt) hsame'.nextInstr),
    fun i hi => ?_, hsame'.layout.trans hlay₃, ?_, ?_, fun hu => ?_, hsame'.func.trans hfunc₃,
    hsame'.pending.trans hpend₃, hsame'.sections.trans hsec₃, fun b hb hnb => ?_,
    ⟨s₁.nextInstr, .ret⟩, s₂.nextInstr, ?_⟩
  · have hi₃ := lt_trans (lt_of_lt_of_le hi hsame.nextInstr) hlt
    exact (hsame'.marks i hi₃).trans (hmarks₃ i hi)
  · exact hsame'.insert.trans ((congrArg Builder.insertBlock hbld₃).trans hsame.insert)
  · exact hsame'.first.trans ((congrArg Builder.first hbld₃).trans hsame.first)
  · refine hsame'.updateFirst ?_
    rw [hbld₃]
    exact hsame.updateFirst hu
  · rw [hbbs₅, hother₄ b hnb, hother₃ b hb hnb, hother₂ b hb]
    split
    next he =>
      have hk := hkeep₁ b
      rwa [hempty b he] at hk
    next he => exact hother₁ b he
  · have hold₅ := (hbbs₅ bb).trans ((if_neg hbbe).trans ((hother₄ bb hbb).trans hold₃))
    by_cases hnbe : s.nextBlock ∈ empty
    · refine ⟨[], rfl, hsame.nextInstr, lt_of_lt_of_le hlt hsame'.nextInstr,
        (hsame'.marks _ hlt).trans hfresh, hterm ▸ hold₅, ?_, by simp, fun hsuccs => ?_⟩
      · rw [hbbs₅, if_pos hnbe, hnew₄]
      · have hmem := hsub _ hnbe
        cases term with
        | none => exact absurd hmem List.not_mem_nil
        | some k => exact absurd hmem (hsuccs k hterm)
    · refine ⟨_, rfl, hsame.nextInstr, lt_of_lt_of_le hlt hsame'.nextInstr,
        (hsame'.marks _ hlt).trans hfresh, hterm ▸ hold₅, ?_, fun i hi => ?_,
          fun _ => by rw [hterm]⟩
      · rw [hbbs₅, if_neg hnbe, hnew₄]
      · rw [hterm]
        by_cases hc : term.isNone = true
        · simp only [if_pos hc] at hi ⊢
          exact List.dropLast_subset _ hi
        · simp only [if_neg hc] at hi ⊢
          exact hi

/-! ### The two halves -/

/-- The state after `bb` is split at `addr`, between `top` and `bottom`. -/
structure Halves (s : State) (bb : Nat) (addr : Nat) (top bottom : List Instr)
    (t : State) : Prop where
  old : ∃ n, s.nextInstr ≤ n ∧ n < t.nextInstr ∧ t.marks n = none ∧
    t.bbs bb = { s.bbs bb with
      insts := top ++ [⟨n, .br s.nextBlock⟩], instrMap := (s.bbs bb).instrMap.erase addr }
  new : t.bbs s.nextBlock =
    { f := (s.bbs bb).f, addr := some addr, insts := bottom
      instrMap := (s.bbs bb).instrMap.suffix addr }
  other : ∀ b, b ≠ bb → b ≠ s.nextBlock → t.bbs b = s.bbs b
  nextBlock : t.nextBlock = s.nextBlock + 1
  nextInstr : s.nextInstr ≤ t.nextInstr
  marks : ∀ i, i < s.nextInstr → t.marks i = s.marks i
  layout : t.layout = placeAfter s.layout bb s.nextBlock
  insert : t.bld.insertBlock = s.bld.insertBlock
  first : t.bld.first = s.bld.first
  updateFirst : s.bld.updateFirst = true → t.bld.updateFirst = true
  func : t.func = s.func
  pending : t.pending = s.pending
  sections : t.sections = s.sections

/-- **Splitting a block.** An instruction recorded in the block's map cuts it in two;
nothing else changes. -/
theorem split_spec (s : State) (bb : Nat) (addr : Nat) {top bottom : List Instr} {i : Instr}
    (hmap : (s.bbs bb).instrMap.get? addr = some i.id)
    (hinsts : (s.bbs bb).insts = top ++ i :: bottom) (htop : ∀ j ∈ top, j.id ≠ i.id)
    (hbb : bb ≠ s.nextBlock)
    (hsuccs : ∀ k, terminator (s.bbs bb).insts = some k → s.nextBlock ∉ k.succs) :
    ∃ t, s.split bb addr = .ok (s.nextBlock, t) ∧ Halves s bb addr top (i :: bottom) t := by
  have hany : (s.bbs bb).insts.any (·.id = i.id) = true := by
    rw [hinsts, List.any_append, List.any_cons]
    simp
  have hne : (s.bbs bb).insts ≠ [] := by
    rw [hinsts]
    simp
  refine ⟨_, split_eq hmap hany, ?_⟩
  have h := parts_spec s i.id hne hbb
  generalize s.parts bb i.id = t at h
  obtain ⟨dummy, n, l, -, hn, hnlt, hfresh, hold, hnew, -, hl⟩ := h.halves
  obtain ⟨hold', hnew', hother'⟩ := splitInstrMap_spec t addr hbb
  -- The cut of the block, with a dummy or without one.
  have hspan (extra : List Instr) : ((s.bbs bb).insts ++ extra).takeWhile (·.id ≠ i.id) = top ∧
      ((s.bbs bb).insts ++ extra).dropWhile (·.id ≠ i.id) = i :: bottom ++ extra := by
    have hcut := span_id htop (bottom ++ extra)
    rw [List.span_eq_takeWhile_dropWhile] at hcut
    rw [hinsts, List.append_assoc, List.cons_append]
    exact Prod.mk.inj hcut
  have hlower : l = i :: bottom := by
    rw [hl hsuccs, (hspan _).2]
    split
    · exact List.dropLast_concat
    · exact List.append_nil _
  rw [(hspan _).1] at hold
  rw [hlower] at hnew
  refine ⟨⟨n, hn, hnlt, hfresh, ?_⟩, ?_, fun b hb hnb => ?_, h.nextBlock, h.nextInstr, h.marks,
    h.layout, h.insert, h.first, h.updateFirst, h.func, h.pending, h.sections⟩
  · rw [hold', hold]
  · rw [hnew', hnew, hold]
  · rw [hother' b hb hnb, h.other b hb hnb]

end State
end RiscvSbt.Block
