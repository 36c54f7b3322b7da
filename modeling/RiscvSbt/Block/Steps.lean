import RiscvSbt.Block.Cut

/-! Translating one instruction, step by step.

`Mid` is the invariant while the code `m` of the instruction at `addr` is being emitted
at the end of the main block; a jump back may put another block in its place. -/
namespace RiscvSbt.Block
open Library State

section Mid
variable (opts : Options) (body : Nat → Inst) (n st : Nat) (bad : Nat → Prop) (s : State)

structure Mid (addr main k : Nat) (l m : List Instr) : Prop
    extends Work opts body n st bad s addr main k l where
  insts : (s.bbs main).insts = l ++ m
  quiet : Quiet s m
  insert : s.bld.insertBlock = main
  first : s.bld.first = m.head?.map Instr.id
  none : s.ubbs addr = []

end Mid

variable {opts : Options} {body : Nat → Inst} {n st : Nat} {bad : Nat → Prop} {s t : State}
  {addr main k tgt : Nat} {l m : List Instr}

namespace Work

theorem own (h : Work opts body n st bad s addr main k l) : n ≤ main ∧ main < s.nextBlock :=
  ⟨(h.heap.tracked k main h.key).1, (h.heap.tracked k main h.key).2.1⟩

theorem aligned (h : Work opts body n st bad s addr main k l) : addr % 4 = 0 := by
  rw [h.code.mod]
  exact (h.bounds k ⟨main, h.key⟩).2

theorem st_le (h : Work opts body n st bad s addr main k l) : st ≤ addr :=
  le_trans (h.bounds k ⟨main, h.key⟩).1 h.le

/-- Emitting in the main block. -/
theorem emit (h : Work opts body n st bad s addr main k l) (hins : s.bld.insertBlock = main)
    (kind : Kind) : Work opts body n st bad (s.emit kind) addr main k l := by
  refine h.step (hins ▸ Frame.emit h.heap kind) (h.heap.emit kind) ?_ (fun i hi => ?_)
    (emit_bbs s kind main).2.2 (fun _ _ hb => .inl hb) (fun _ _ hb => .inl hb) (.inl rfl)
  · obtain ⟨r, hr⟩ := h.pre
    rw [← hins, emit_insts_self]
    exact ⟨r ++ [⟨s.nextInstr, kind⟩], by rw [← List.append_assoc, hr, ← hins]; rfl⟩
  · exact emit_marks (h.heap.ids main h.own.1 h.own.2 i (h.pre.subset hi))

/-- A block ahead. -/
theorem newBB (h : Work opts body n st bad s addr main k l) {c : Nat} (before : Option Nat)
    (hc : addr < c) (hmod : c % 4 = 0) (hnone : s.findBB c = none) :
    Work opts body n st bad (s.newBB c before).2 addr main k l := by
  have hne : main ≠ s.nextBlock := Nat.ne_of_lt h.own.2
  have f : Frame n (· = main) s (s.newBB c before).2 :=
    { newBB_grows before hnone with
      bbs := fun b hb _ => newBB_bbs_of_ne (Nat.ne_of_lt hb)
      nextBlock := Nat.le_succ _
      marks := fun _ _ _ _ _ _ => rfl }
  refine h.step f (h.heap.newBB before hnone) ?_ (fun _ _ => rfl) ?_ (fun k' b hb => ?_)
    (fun _ _ hb => .inl hb) (.inl rfl)
  · rw [newBB_bbs_of_ne hne]
    exact h.pre
  · rw [newBB_bbs_of_ne hne]
  · rw [newBB_find] at hb
    split at hb
    next heq =>
      rw [← Option.some.inj hb, newBB_bbs_self, heq]
      exact .inr ⟨hc, hmod, rfl, rfl⟩
    next => exact .inl hb

/-- Changes beside blocks, instructions and the maps of blocks. -/
theorem of_eq (h : Work opts body n st bad s addr main k l) (hbbs : t.bbs = s.bbs)
    (hb : t.nextBlock = s.nextBlock) (hi : t.nextInstr = s.nextInstr) (hm : t.marks = s.marks)
    (hins : t.bld.insertBlock = s.bld.insertBlock)
    (hu : t.bld.updateFirst = s.bld.updateFirst) (hbm : t.func.bbMap = s.func.bbMap)
    (hub : t.func.ubbMap = s.func.ubbMap) : Work opts body n st bad t addr main k l := by
  have hfind : ∀ k, t.findBB k = s.findBB k := fun k => by unfold State.findBB; rw [hbm]
  have hubbs : ∀ a, t.ubbs a = s.ubbs a := fun a => by unfold State.ubbs; rw [hub]
  refine h.step (.of_eq _ ⟨fun k b hk => (hfind k).trans hk, fun a b hb => ?_⟩ hbbs hb hm)
    (h.heap.of_eq (fun b => by rw [hbbs]; exact ⟨rfl, rfl, rfl⟩) hb hi (hins ▸ h.heap.insert) hu
      hbm hub) (by rw [hbbs]; exact h.pre) (fun _ _ => by rw [hm]) (by rw [hbbs])
    (fun k b hk => .inl ((hfind k).symm.trans hk)) (fun a b hb => .inl ?_) (.inl hins)
  · rw [hubbs]
    exact hb
  · rw [← hubbs]
    exact hb

end Work

/-! ### Straight code -/

namespace Mid

theorem op (h : Mid opts body n st bad s addr main k l m) :
    Mid opts body n st bad (s.emit .op) addr main k l (m ++ [⟨s.nextInstr, .op⟩]) := by
  refine ⟨h.toWork.emit h.insert .op, ?_, ?_, h.insert, ?_, h.none⟩
  · rw [← h.insert, emit_insts_self, ← List.append_assoc, ← h.insts, ← h.insert]
    rfl
  · refine Quiet.append (h.quiet.grow fun i hi => ?_) fun i hi => ?_
    · refine emit_marks (h.heap.ids main h.own.1 h.own.2 i ?_)
      rw [h.insts]
      exact List.mem_append_right _ hi
    · rw [List.mem_singleton.mp hi]
      exact ⟨rfl, emit_marks_self s .op⟩
  · rw [emit_first h.heap.updateFirst, h.first]
    cases m <;> rfl

/-- What emitting straight code leaves alone. -/
structure Aside (s t : State) : Prop where
  func : t.func = s.func
  insert : t.bld.insertBlock = s.bld.insertBlock
  pending : t.pending = s.pending
  sections : t.sections = s.sections

theorem ops (h : Mid opts body n st bad s addr main k l m) (c : Nat) :
    (∃ m', Mid opts body n st bad (s.ops c) addr main k l (m ++ m')) ∧ Aside s (s.ops c) := by
  induction c generalizing s m with
  | zero => exact ⟨⟨[], by rw [List.append_nil]; exact h⟩, rfl, rfl, rfl, rfl⟩
  | succ c ih =>
    obtain ⟨⟨m', hm'⟩, ha⟩ := ih h.op
    exact ⟨⟨_ :: m', by rw [List.append_assoc] at hm'; exact hm'⟩, ha.func, ha.insert, ha.pending,
      ha.sections⟩

theorem newBB (h : Mid opts body n st bad s addr main k l m) {c : Nat} (before : Option Nat)
    (hc : addr < c) (hmod : c % 4 = 0) (hnone : s.findBB c = .none) :
    Mid opts body n st bad (s.newBB c before).2 addr main k l m := by
  refine ⟨h.toWork.newBB before hc hmod hnone, ?_, h.quiet, h.insert, h.first, h.none⟩
  rw [newBB_bbs_of_ne (Nat.ne_of_lt h.own.2), h.insts]

theorem updateNextBB_eq (s : State) (c : Nat) :
    s.updateNextBB c = {s with func := {s.func with nextBB := c}} := by
  unfold State.updateNextBB
  exact if_pos (by omega)

theorem updateNextBB (h : Mid opts body n st bad s addr main k l m) (c : Nat) :
    Mid opts body n st bad (s.updateNextBB c) addr main k l m := by
  rw [updateNextBB_eq]
  exact ⟨h.toWork.of_eq rfl rfl rfl rfl rfl rfl rfl rfl, h.insts, h.quiet, h.insert, h.first,
    h.none⟩

theorem straight_insts (h : Mid opts body n st bad s addr main k l m) :
    Straight (s.bbs main).insts := by
  rw [h.insts]
  exact h.straight.append h.quiet.straight

/-! ### Jumps -/

/-- What a jump's target block is looked up or made with. -/
structure Target (s t : State) (tgt bb : Nat) : Prop where
  grow : Grows s t
  find : t.findBB tgt = some bb
  keys : ∀ c, HasBB t c ↔ HasBB s c ∨ c = tgt
  pending : t.pending = s.pending
  sections : t.sections = s.sections

/-- The lower bound is a block, and it is the target's if the target has one. -/
theorem lowerBound_spec (h : Heap n s) (tgt : Nat) :
    (s.lowerBoundBB tgt = .none ∧ s.findBB tgt = .none) ∨
    ∃ bb c, s.lowerBoundBB tgt = some bb ∧ s.findBB c = some bb ∧ (s.bbs bb).addr = some c ∧
      (c ≠ tgt → s.findBB tgt = .none) := by
  cases hlb : s.func.bbMap.lowerBound tgt with
  | none =>
    refine .inl ⟨by unfold State.lowerBoundBB; rw [hlb]; rfl, ?_⟩
    by_contra hne
    obtain ⟨b, hb⟩ := Option.ne_none_iff_exists'.mp hne
    exact absurd (Map.lowerBound_eq_none.mp hlb tgt b hb) (lt_irrefl _)
  | some i =>
    obtain ⟨c, bb⟩ := i
    obtain ⟨hget, hle, hmin⟩ := Map.lowerBound_eq_some.mp hlb
    refine .inr ⟨bb, c, by unfold State.lowerBoundBB; rw [hlb]; rfl, hget,
      (h.tracked c bb hget).2.2.1, fun hne => ?_⟩
    by_contra hnone
    obtain ⟨b, hb⟩ := Option.ne_none_iff_exists'.mp hnone
    exact hne (le_antisymm (hmin tgt b hb (le_refl _)) hle)

theorem jumpForward (h : Mid opts body n st bad s addr main k l m) (hlt : addr < tgt)
    (hmod : tgt % 4 = 0) :
    ∃ bb t, s.jumpForward tgt = .ok (bb, t) ∧ Mid opts body n st bad t addr main k l m ∧
      Target s t tgt bb := by
  have hcreate : ∀ before, s.findBB tgt = .none →
      Mid opts body n st bad ((s.newBB tgt before).2.updateNextBB tgt) addr main k l m ∧
      Target s ((s.newBB tgt before).2.updateNextBB tgt) tgt s.nextBlock := by
    intro before hnone
    have hfind := newBB_find s tgt before
    refine ⟨(h.newBB before hlt hmod hnone).updateNextBB tgt, ?_⟩
    rw [updateNextBB_eq]
    obtain ⟨gf, gu⟩ := newBB_grows before hnone
    refine ⟨⟨gf, gu⟩, (hfind tgt).trans (if_pos rfl), fun c => ?_, rfl, rfl⟩
    show (∃ b, (s.newBB tgt before).2.findBB c = some b) ↔ _
    rw [hfind]
    split
    next heq => exact ⟨fun _ => .inr heq, fun _ => ⟨_, rfl⟩⟩
    next hne => exact ⟨fun hc => .inl hc, fun hc => hc.resolve_right hne⟩
  unfold State.jumpForward
  rcases lowerBound_spec h.heap tgt with ⟨hlb, hnone⟩ | ⟨bb, c, hlb, hfind, haddr, hnone⟩
  · rw [hlb]
    exact ⟨_, _, rfl, hcreate .none hnone⟩
  · rw [hlb]
    simp only [BasicBlock.getAddr, haddr]
    by_cases hc : c = tgt
    · subst hc
      refine ⟨bb, s, by simp only [pure_bind, if_true]; rfl, h, .refl s, hfind,
        fun c' => ⟨.inl, fun hc' => ?_⟩, rfl, rfl⟩
      rcases hc' with hc' | rfl
      · exact hc'
      · exact ⟨bb, hfind⟩
    · refine ⟨s.nextBlock, _, ?_, hcreate (some bb) (hnone hc)⟩
      simp [hc]
      rfl

/-- The block that a backward jump lands in. -/
theorem getBackBB_spec (h : HasBB s st) (hst : st ≤ tgt) :
    ∃ kb bb, s.getBackBB tgt = .ok bb ∧ s.findBB kb = some bb ∧ kb ≤ tgt ∧
      ∀ c, HasBB s c → c ≤ tgt → c ≤ kb := by
  obtain ⟨b₀, hb₀⟩ := h
  have hprev : ∀ kb bb, s.func.bbMap.previous tgt = some (kb, bb) → s.findBB tgt = .none →
      s.findBB kb = some bb ∧ kb ≤ tgt ∧ ∀ c, HasBB s c → c ≤ tgt → c ≤ kb := by
    intro kb bb hp hnone
    obtain ⟨hget, hlt, hmax⟩ := Map.previous_eq_some.mp hp
    refine ⟨hget, le_of_lt hlt, fun c ⟨b, hb⟩ hc => hmax c b hb (lt_of_le_of_ne hc ?_)⟩
    rintro rfl
    rw [hnone] at hb
    exact nomatch hb
  unfold State.getBackBB
  cases hlb : s.func.bbMap.lowerBound tgt with
  | none =>
    have hnone : s.findBB tgt = .none := by
      by_contra hne
      obtain ⟨b, hb⟩ := Option.ne_none_iff_exists'.mp hne
      exact absurd (Map.lowerBound_eq_none.mp hlb tgt b hb) (lt_irrefl _)
    cases hp : s.func.bbMap.previous tgt with
    | none =>
      have := Map.previous_eq_none.mp hp st b₀ hb₀
      have := Map.lowerBound_eq_none.mp hlb st b₀ hb₀
      omega
    | some i => exact ⟨i.1, i.2, rfl, hprev i.1 i.2 hp hnone⟩
  | some i =>
    obtain ⟨c, bb⟩ := i
    obtain ⟨hget, hle, hmin⟩ := Map.lowerBound_eq_some.mp hlb
    by_cases hc : c = tgt
    · subst hc
      exact ⟨c, bb, if_pos rfl, hget, le_refl _, fun _ _ h => h⟩
    · have hnone : s.findBB tgt = .none := by
        by_contra hne
        obtain ⟨b, hb⟩ := Option.ne_none_iff_exists'.mp hne
        exact hc (le_antisymm (hmin tgt b hb (le_refl _)) hle)
      cases hp : s.func.bbMap.previous tgt with
      | none =>
        have hst' := hmin st b₀ hb₀ (Map.previous_eq_none.mp hp st b₀ hb₀)
        omega
      | some i => exact ⟨i.1, i.2, if_neg hc, hprev i.1 i.2 hp hnone⟩

/-- The block that holds a translated address is in bounds for it. -/
theorem inBounds (h : Work opts body n st bad s addr main k l) (hlt : tgt < addr) {kb bb : Nat}
    (hkb : s.findBB kb = some bb) (hle : kb ≤ tgt) (hmax : ∀ c, HasBB s c → c ≤ tgt → c ≤ kb) :
    targetInBounds tgt (s.bbs bb) = .ok true := by
  have hend : tgt < kb + (s.bbs bb).insts.length * 4 := by
    by_cases hk : kb = k
    · subst hk
      obtain rfl : main = bb := Option.some.inj (h.key.symm.trans hkb)
      have hlen := h.code.length
      have hpre := h.pre.length_le
      omega
    · rcases (h.rest kb bb hkb hk).2 with hs | ⟨ha, -⟩
      · obtain ⟨e, hcode, hke, -, hbb, -⟩ := hs.code
        have hlen := hcode.length
        by_contra hge
        have := hmax e hbb (by omega)
        omega
      · omega
  simp only [targetInBounds, BasicBlock.getAddr, (h.heap.tracked kb bb hkb).2.2.1]
  show Except.ok (State.inBounds tgt kb _) = Except.ok true
  rw [State.inBounds, decide_eq_true ⟨hle, hend⟩]

theorem jumpBackward (h : Mid opts body n st bad s addr main k l m) (hst : st ≤ tgt)
    (hlt : tgt < addr) (hmod : tgt % 4 = 0) :
    ∃ bb t main' k' l', s.jumpBackward tgt = .ok (bb, t) ∧
      Mid opts body n st bad t addr main' k' l' m ∧ Target s t tgt bb := by
  obtain ⟨kb, bb, hback, hkb, hle, hmax⟩ := getBackBB_spec h.entry hst
  have haddr := (h.heap.tracked kb bb hkb).2.2.1
  have hin := inBounds h.toWork hlt hkb hle hmax
  have htarget : ∀ {top bottom : List Instr} {t : State}, Halves s bb tgt top bottom t →
      s.findBB tgt = .none → Target s (t.addBB tgt s.nextBlock) tgt s.nextBlock := by
    intro top bottom t hh hnone
    refine ⟨(hh.frame h.heap hnone).toGrows, by rw [hh.find, if_pos rfl], fun c => ?_,
      hh.pending, hh.sections⟩
    show (∃ b, (t.addBB tgt s.nextBlock).findBB c = some b) ↔ _
    rw [hh.find]
    split
    next heq => exact ⟨fun _ => .inr heq, fun _ => ⟨_, rfl⟩⟩
    next hne => exact ⟨fun hc => .inl hc, fun hc => hc.resolve_right hne⟩
  have hrun : ∀ {b t : _}, kb ≠ tgt → s.split bb tgt = .ok (b, t) →
      s.jumpBackward tgt = .ok (b, if s.bld.insertBlock = bb then
        (t.addBB tgt b).setInsertBlock b else t.addBB tgt b) := by
    intro b t hne hsplit
    unfold State.jumpBackward
    rw [hback]
    show (targetInBounds tgt (s.bbs bb) >>= _) = _
    rw [hin]
    simp only [BasicBlock.getAddr, haddr]
    show (if kb = tgt then _ else _) = _
    rw [if_neg hne, hsplit]
    rfl
  by_cases hc : kb = tgt
  · subst hc
    refine ⟨bb, s, main, k, l, ?_, h, .refl s, hkb, fun c => ⟨.inl, fun hc => ?_⟩, rfl, rfl⟩
    · unfold State.jumpBackward
      rw [hback]
      show (targetInBounds kb (s.bbs bb) >>= _) = _
      rw [hin]
      simp only [BasicBlock.getAddr, haddr]
      exact if_pos rfl
    · rcases hc with hc | rfl
      · exact hc
      · exact ⟨bb, hkb⟩
  · have hkt : kb < tgt := lt_of_le_of_ne hle hc
    by_cases hk : kb = k
    · -- The block being filled is cut itself.
      subst hk
      obtain rfl : main = bb := Option.some.inj (h.key.symm.trans hkb)
      obtain ⟨top, i, bottom, rfl, c⟩ := h.cut_main h.insts hkt hlt hmod
      obtain ⟨t, hsplit, hh⟩ := c.split fun kind hkind => by
        rw [h.straight_insts.terminator] at hkind
        exact nomatch hkind
      have hs : Straight (i :: bottom) := fun x hx => h.straight x (List.mem_append_right _ hx)
      have hw := (h.split_main c hh hst hmod hs).setInsertBlock
      refine ⟨s.nextBlock, _, s.nextBlock, tgt, i :: bottom, hrun hc hsplit, ?_, ?_⟩
      · rw [if_pos h.insert]
        refine ⟨hw, ?_, h.quiet.grow fun x hx => c.marks hh x ?_, rfl, hh.first.trans h.first, ?_⟩
        · show (t.bbs s.nextBlock).insts = _
          rw [hh.new]
          rfl
        · rw [h.insts]
          exact List.mem_append_right _ hx
        · exact (hh.ubbs_eq addr).trans h.none
      · rw [if_pos h.insert]
        obtain ⟨⟨gf, gu⟩, hfind, hkeys, hp, hsec⟩ := htarget hh c.fresh
        exact ⟨⟨gf, gu⟩, hfind, hkeys, hp, hsec⟩
    · obtain ⟨top, i, bottom, e, heq, hle', hbb, c⟩ := h.cut_other hkb hk hkt hmax hlt hmod
      have hsealed : Sealed opts body s addr kb bb := by
        rcases (h.rest kb bb hkb hk).2 with hs | ⟨ha, -⟩
        · exact hs
        · omega
      obtain ⟨_, hcode, -⟩ := hsealed.code
      obtain ⟨t, hsplit, hh⟩ := c.split (hcode.not_succ h.heap)
      have hterm := hsealed.terminated
      rw [heq, terminator_append_cons] at hterm
      obtain ⟨hw, hmain⟩ := h.split_other c hh hk hle' hbb hst hmod hterm
      have hins : s.bld.insertBlock ≠ bb := by
        rw [h.insert]
        exact h.heap.find_ne h.key hkb (Ne.symm hk)
      refine ⟨s.nextBlock, _, main, k, l, hrun hc hsplit, ?_, ?_⟩
      · rw [if_neg hins]
        refine ⟨hw, by rw [hmain, h.insts], h.quiet.grow fun x hx => ?_, ?_, ?_, ?_⟩
        · refine hh.marks _ (h.heap.ids main h.own.1 h.own.2 x ?_)
          rw [h.insts]
          exact List.mem_append_right _ hx
        · exact hh.insert.trans h.insert
        · exact hh.first.trans h.first
        · exact (hh.ubbs_eq addr).trans h.none
      · rw [if_neg hins]
        exact htarget hh c.fresh

/-- A jump to before the function finds no block. -/
theorem jumpBackward_error (h : Mid opts body n st bad s addr main k l m) (hst : tgt < st) :
    ∃ e, s.jumpBackward tgt = .error e := by
  obtain ⟨b₀, hb₀⟩ := h.entry
  have hprev : s.func.bbMap.previous tgt = .none := Map.previous_eq_none.mpr fun c b hb =>
    le_trans (le_of_lt hst) (h.bounds c ⟨b, hb⟩).1
  cases hlb : s.func.bbMap.lowerBound tgt with
  | none =>
    have := Map.lowerBound_eq_none.mp hlb st b₀ hb₀
    omega
  | some i =>
    obtain ⟨c, bb⟩ := i
    obtain ⟨hget, -, -⟩ := Map.lowerBound_eq_some.mp hlb
    have hc := (h.bounds c ⟨bb, hget⟩).1
    have hback : s.getBackBB tgt = .ok bb := by
      unfold State.getBackBB
      rw [hlb, hprev]
      exact if_neg (by omega)
    refine ⟨"target basic block not found!", ?_⟩
    have hin : targetInBounds tgt (s.bbs bb) = .ok false := by
      simp only [targetInBounds, BasicBlock.getAddr, (h.heap.tracked c bb hget).2.2.1]
      show Except.ok (State.inBounds tgt c _) = Except.ok false
      rw [State.inBounds, decide_eq_false (by omega)]
    unfold State.jumpBackward
    rw [hback]
    show (targetInBounds tgt (s.bbs bb) >>= _) = _
    rw [hin]
    rfl

/-- The block of the next instruction. -/
theorem needNextBB (h : Mid opts body n st bad s addr main k l m) :
    ∃ next, Mid opts body n st bad (s.needNextBB addr) addr main k l m ∧
      Target s (s.needNextBB addr) (addr + 4) next ∧
      (s.needNextBB addr).func.nextBB = addr + 4 := by
  have hmod := h.aligned
  unfold State.needNextBB
  cases hfind : s.findBB (addr + 4) with
  | some next =>
    refine ⟨next, h.updateNextBB _, ?_, by rw [updateNextBB_eq]⟩
    rw [updateNextBB_eq]
    refine ⟨⟨fun _ _ hk => hk, fun _ _ hb => hb⟩, hfind, fun c => ⟨.inl, fun hc => ?_⟩, rfl, rfl⟩
    rcases hc with hc | rfl
    · exact hc
    · exact ⟨next, hfind⟩
  | none =>
    have hnew := newBB_find s (addr + 4) (s.lowerBoundBB (addr + 4))
    refine ⟨s.nextBlock, (h.newBB _ (by omega) (by omega) hfind).updateNextBB _, ?_,
      by rw [updateNextBB_eq]⟩
    rw [updateNextBB_eq]
    obtain ⟨gf, gu⟩ := newBB_grows (s.lowerBoundBB (addr + 4)) hfind
    refine ⟨⟨gf, gu⟩, (hnew _).trans (if_pos rfl), fun c => ?_, rfl, rfl⟩
    show (∃ b, (s.newBB (addr + 4) (s.lowerBoundBB (addr + 4))).2.findBB c = some b) ↔ _
    rw [hnew]
    split
    next heq => exact ⟨fun _ => .inr heq, fun _ => ⟨_, rfl⟩⟩
    next hne => exact ⟨fun hc => .inl hc, fun hc => hc.resolve_right hne⟩

end Mid
end RiscvSbt.Block
