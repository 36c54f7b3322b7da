import RiscvSbt.Block.Steps

/-! The untracked blocks of an instruction.

Auxiliary blocks are made in the order in which they are filled, and branch to later ones
only. So one number tells how far the construction is: with `Aux … p`, the blocks of the
instruction below `p` are done, but for the insert block, and those from `p` on are empty.
`n` is the code that the instruction has put in the main block. -/
namespace RiscvSbt.Block
open Library State

/-- What building untracked blocks leaves alone. -/
structure Beside (s t : State) : Prop where
  bbMap : t.func.bbMap = s.func.bbMap
  nextBB : t.func.nextBB = s.func.nextBB
  pending : t.pending = s.pending
  sections : t.sections = s.sections

theorem Beside.refl (s : State) : Beside s s := ⟨rfl, rfl, rfl, rfl⟩

theorem Beside.trans {s t u : State} (h : Beside s t) (g : Beside t u) : Beside s u :=
  ⟨g.bbMap.trans h.bbMap, g.nextBB.trans h.nextBB, g.pending.trans h.pending,
    g.sections.trans h.sections⟩

section Aux
variable (opts : Options) (body : Nat → Inst) (n st : Nat) (bad : Nat → Prop) (s : State)

/-- Where the builder is: still in the main block, or in an untracked block after it. -/
inductive Shape (addr main : Nat) (c : List Instr) : Prop where
  | main (insert : s.bld.insertBlock = main) (quiet : Quiet s c)
  | left {m : List Instr} {x : Instr} (insert : s.bld.insertBlock ∈ s.ubbs addr)
      (open_ : Quiet s (s.bbs s.bld.insertBlock).insts) (eq : c = m ++ [x]) (quiet : Quiet s m)
      (mark : s.marks x.id = none) (term : Term opts body s addr x.kind)

structure Aux (s₀ : State) (addr main k : Nat) (l c : List Instr) (p : Nat) : Prop
    extends Work opts body n st bad s addr main k l where
  beside : Beside s₀ s
  insts : (s.bbs main).insts = l ++ c
  first : s.bld.first = c.head?.map Instr.id
  shape : Shape opts body s addr main c
  below : s.bld.insertBlock < p
  bound : p ≤ s.nextBlock
  ahead : ∀ y, p ≤ y → y < s.nextBlock → y ∈ s.ubbs addr ∧ (s.bbs y).insts = []
  done : ∀ y ∈ s.ubbs addr, y < p → y = s.bld.insertBlock ∨ Forward s addr y
  still : s.bld.insertBlock = main → ∀ y ∈ s.ubbs addr, p ≤ y

end Aux

variable {opts : Options} {body : Nat → Inst} {n st : Nat} {bad : Nat → Prop} {s₀ s t : State}
  {addr main k p : Nat} {l m c : List Instr}

theorem Mid.aux (h : Mid opts body n st bad s addr main k l m) :
    Aux opts body n st bad s s addr main k l m s.nextBlock := by
  refine ⟨h.toWork, .refl s, h.insts, h.first, .main h.insert h.quiet, h.heap.insert.2, le_refl _,
    fun y hy hy' => by omega, fun y hy _ => ?_, fun _ y hy => ?_⟩
  · rw [h.none] at hy
    exact nomatch hy
  · rw [h.none] at hy
    exact nomatch hy

namespace Aux

/-- Emitting in an untracked block of the instruction, or in the main block. -/
theorem workEmit (h : Aux opts body n st bad s s₀ addr main k l c p) (kind : Kind) :
    Work opts body n st bad (s.emit kind) addr main k l := by
  by_cases hins : s.bld.insertBlock = main
  · exact h.toWork.emit hins kind
  · obtain ⟨hub, -⟩ : s.bld.insertBlock ∈ s.ubbs addr ∧ True := by
      cases h.shape with
      | main insert => exact absurd insert hins
      | left insert => exact ⟨insert, trivial⟩
    have f := Frame.emit h.heap kind
    have hmain : (s.emit kind).bbs main = s.bbs main := emit_bbs_of_ne (Ne.symm hins)
    have hlt := h.heap.insert.2
    refine ⟨h.heap.emit kind, h.bounds, h.entry, h.key, h.toWork.le, h.gap, hmain ▸ h.pre,
      h.code.grow f.toGrows fun i hi => ?_, h.straight, ?_, fun k' b hb hne => ?_,
      fun a hst ha hm hact => ?_, h.helpers⟩
    · exact emit_marks (h.heap.ids main h.own.1 h.own.2 i (h.pre.subset hi))
    · refine h.recorded.keep (by rw [hmain]) fun i hi => ?_
      exact emit_marks (h.heap.ids main h.own.1 h.own.2 i (h.pre.subset hi))
    · obtain ⟨hrec, hrest⟩ := h.rest k' b hb hne
      obtain ⟨hn, hb', -⟩ := h.heap.tracked k' b hb
      have hB : ¬ b = s.bld.insertBlock := fun e => h.heap.find_ubbs hb (e ▸ hub)
      have hbbs := f.bbs b hb' hB
      refine ⟨?_, ?_⟩
      · rw [hbbs]
        exact hrec.keep (by rw [hbbs]) (f.marks b hn hb' hB)
      · rcases hrest with hs | ⟨ha, hnil⟩
        · exact .inl (hs.frame f h.heap hb hB fun e _ _ hsep => hsep)
        · exact .inr ⟨ha, by rw [hbbs, hnil]⟩
    · refine (h.exits a hst ha hm hact).frame f h.heap (fun _ hb => hb) (fun y hy hye => ?_)
        fun y _ hne => hne
      have := h.heap.helper_inj a addr _ hy (hye ▸ hub)
      omega

theorem quiet_emit (h : Heap n s) {b : Nat} (hn : n ≤ b) (hb : b < s.nextBlock) (kind : Kind)
    {q : List Instr} (hq : Quiet s q) (hmem : ∀ i ∈ q, i ∈ (s.bbs b).insts) :
    Quiet (s.emit kind) q :=
  hq.grow fun i hi => emit_marks (h.ids b hn hb i (hmem i hi))

theorem forward_emit (h : Heap n s) {a y : Nat} (hy : y ∈ s.ubbs a) (hne : y ≠ s.bld.insertBlock)
    {kind : Kind} (hf : Forward s a y) : Forward (s.emit kind) a y :=
  hf.frame (Frame.emit h kind) h hy hne

theorem ahead_ne (h : Aux opts body n st bad s s₀ addr main k l c p) {y : Nat} (hy : p ≤ y) :
    y ≠ s.bld.insertBlock := by
  have := h.below
  omega

theorem op (h : Aux opts body n st bad s s₀ addr main k l c p) :
    ∃ c', Aux opts body n st bad (s.emit .op) s₀ addr main k l c' p := by
  have hahead : ∀ y, p ≤ y → y < s.nextBlock →
      y ∈ s.ubbs addr ∧ ((s.emit .op).bbs y).insts = [] := by
    intro y hy hy'
    rw [emit_bbs_of_ne (h.ahead_ne hy)]
    exact h.ahead y hy hy'
  have hdone : ∀ y ∈ s.ubbs addr, y < p → y = s.bld.insertBlock ∨ Forward (s.emit .op) addr y := by
    intro y hy hlt
    by_cases hne : y = s.bld.insertBlock
    · exact .inl hne
    · exact .inr (forward_emit h.heap hy hne ((h.done y hy hlt).resolve_left hne))
  have hmem : ∀ i ∈ c, i ∈ (s.bbs main).insts := fun i hi => by
    rw [h.insts]
    exact List.mem_append_right _ hi
  cases h.shape with
  | main insert quiet =>
    refine ⟨c ++ [⟨s.nextInstr, .op⟩], h.workEmit .op, h.beside.trans ⟨rfl, rfl, rfl, rfl⟩, ?_, ?_,
      .main insert ?_, h.below, h.bound,
      hahead, hdone, h.still⟩
    · rw [← insert, emit_insts_self, ← List.append_assoc, ← h.insts, ← insert]
      rfl
    · rw [emit_first h.heap.updateFirst, h.first]
      cases c <;> rfl
    · refine (quiet_emit h.heap h.own.1 h.own.2 .op quiet hmem).append fun i hi => ?_
      rw [List.mem_singleton.mp hi]
      exact ⟨rfl, emit_marks_self s .op⟩
  | @left m x insert open_ eq quiet mark term =>
    have hne : main ≠ s.bld.insertBlock := fun e => h.heap.find_ubbs h.key (e ▸ insert)
    have hmarks : ∀ i ∈ c, (s.emit .op).marks i.id = s.marks i.id := fun i hi =>
      emit_marks (h.heap.ids main h.own.1 h.own.2 i (hmem i hi))
    rw [eq] at hmarks
    refine ⟨c, h.workEmit .op, h.beside.trans ⟨rfl, rfl, rfl, rfl⟩, ?_, ?_, .left insert ?_ eq ?_ ?_
      (term.grow ?_), h.below, h.bound,
      hahead, hdone, h.still⟩
    · rw [emit_bbs_of_ne hne, h.insts]
    · rw [emit_first h.heap.updateFirst, h.first, eq]
      cases m <;> rfl
    · obtain ⟨hn, hlt⟩ := h.heap.insert
      show Quiet _ ((s.emit .op).bbs s.bld.insertBlock).insts
      rw [emit_insts_self]
      refine (quiet_emit h.heap hn hlt .op open_ fun i hi => hi).append fun i hi => ?_
      rw [List.mem_singleton.mp hi]
      exact ⟨rfl, emit_marks_self s .op⟩
    · exact quiet.grow fun i hi => hmarks i (List.mem_append_left _ hi)
    · exact (hmarks x (List.mem_append_right _ (List.mem_singleton.mpr rfl))).trans mark
    · exact ⟨fun _ _ hk => hk, fun _ _ hb => hb⟩

@[simp] theorem ops_nextBlock (s : State) (q : Nat) : (s.ops q).nextBlock = s.nextBlock := by
  induction q generalizing s with
  | zero => rfl
  | succ q ih => exact ih _

@[simp] theorem ops_insertBlock (s : State) (q : Nat) :
    (s.ops q).bld.insertBlock = s.bld.insertBlock := by
  induction q generalizing s with
  | zero => rfl
  | succ q ih => exact ih _

theorem ops (h : Aux opts body n st bad s s₀ addr main k l c p) (q : Nat) :
    ∃ c', Aux opts body n st bad (s.ops q) s₀ addr main k l c' p := by
  induction q generalizing s c with
  | zero => exact ⟨c, h⟩
  | succ q ih =>
    obtain ⟨c', h'⟩ := h.op
    exact ih h'

theorem newUBB (h : Aux opts body n st bad s s₀ addr main k l c p) :
    Aux opts body n st bad (s.newUBB addr).2 s₀ addr main k l c p := by
  have g := newUBB_grows s addr
  have hne : ∀ {b}, b < s.nextBlock → (s.newUBB addr).2.bbs b = s.bbs b := fun hb =>
    newUBB_bbs_of_ne (Nat.ne_of_lt hb)
  have f : Frame n (· = main) s (s.newUBB addr).2 :=
    { g with
      bbs := fun b hb _ => hne hb
      nextBlock := Nat.le_succ _
      marks := fun _ _ _ _ _ _ => rfl }
  have hmem : ∀ y, y ∈ (s.newUBB addr).2.ubbs addr ↔ y ∈ s.ubbs addr ∨ y = s.nextBlock := by
    intro y
    rw [newUBB_ubbs, if_pos rfl, List.mem_append, List.mem_singleton]
  have hwork : Work opts body n st bad (s.newUBB addr).2 addr main k l := by
    refine h.toWork.step f (h.heap.newUBB addr) ?_ (fun _ _ => rfl) (by rw [hne h.own.2])
      (fun k' b hb => .inl hb) (fun a b hb => ?_) (.inl rfl)
    · rw [hne h.own.2]
      exact h.pre
    · rw [newUBB_ubbs] at hb
      split at hb
      next heq => exact .inr heq
      next => exact .inl hb
  refine ⟨hwork, h.beside.trans ⟨rfl, rfl, rfl, rfl⟩, by rw [hne h.own.2, h.insts], h.first, ?_,
    h.below, Nat.le_succ_of_le h.bound,
    fun y hy hy' => ?_, fun y hy hlt => ?_, fun hins y hy => ?_⟩
  · cases h.shape with
    | main insert quiet => exact .main insert quiet
    | left insert open_ eq quiet mark term =>
      refine .left (g.ubbs _ _ insert) ?_ eq quiet mark (term.grow g)
      show Quiet _ ((s.newUBB addr).2.bbs s.bld.insertBlock).insts
      rw [hne h.heap.insert.2]
      exact open_
  · rw [hmem]
    have hy' : y < s.nextBlock + 1 := hy'
    by_cases heq : y = s.nextBlock
    · exact ⟨.inr heq, by rw [heq, newUBB_bbs_self]⟩
    · obtain ⟨hub, hnil⟩ := h.ahead y hy (by omega)
      exact ⟨.inl hub, by rw [hne (by omega), hnil]⟩
  · rcases (hmem y).mp hy with hy | rfl
    · rcases h.done y hy hlt with heq | hf
      · exact .inl heq
      · refine .inr (hf.frame f h.heap hy fun e => ?_)
        exact h.heap.find_ubbs h.key (e ▸ hy)
    · have := h.bound
      omega
  · rcases (hmem y).mp hy with hy | rfl
    · exact h.still hins y hy
    · exact h.bound

/-- **Moving on.** The insert block branches to blocks ahead, and the first of those is
filled next. -/
theorem move (h : Aux opts body n st bad s s₀ addr main k l c p) (kind : Kind)
    (hact : (body addr).act.leaves opts = true) (hp : p < s.nextBlock)
    (hkind : (∃ z w, kind = .condBr .helper z w) ∨
      (s.bld.insertBlock ≠ main ∧ ∃ z, kind = .br z))
    (hz : ∀ z ∈ kind.succs, p ≤ z ∧ z < s.nextBlock) :
    (∃ c', Aux opts body n st bad ((s.emit kind).setInsertBlock p) s₀ addr main k l c' (p + 1)) ∧
      p ≠ main := by
  obtain ⟨hpub, hpnil⟩ := h.ahead p (le_refl _) hp
  have hsucc : ∀ z ∈ kind.succs, z ∈ s.ubbs addr ∧ s.bld.insertBlock < z := fun z hz' => by
    obtain ⟨h₁, h₂⟩ := hz z hz'
    exact ⟨(h.ahead z h₁ h₂).1, lt_of_lt_of_le h.below h₁⟩
  have hpmain : p ≠ main := fun e => h.heap.find_ubbs h.key (e ▸ hpub)
  obtain ⟨hpn, hpb, -⟩ := h.heap.helper addr p hpub
  have hw := h.workEmit kind
  have hwork : Work opts body n st bad ((s.emit kind).setInsertBlock p) addr main k l :=
    hw.step (.of_eq _ ⟨fun _ _ hk => hk, fun _ _ hb => hb⟩ rfl rfl rfl)
      (hw.heap.setInsertBlock hpn hpb) hw.pre (fun _ _ => rfl) rfl (fun _ _ hb => .inl hb)
      (fun _ _ hb => .inl hb) (.inr (.inr hpub))
  have hnil : Quiet ((s.emit kind).setInsertBlock p)
      (((s.emit kind).setInsertBlock p).bbs p).insts := by
    show Quiet _ ((s.emit kind).bbs p).insts
    rw [emit_bbs_of_ne (h.ahead_ne (le_refl p)), hpnil]
    exact .nil
  have hahead : ∀ y, p + 1 ≤ y → y < s.nextBlock →
      y ∈ s.ubbs addr ∧ ((s.emit kind).bbs y).insts = [] := by
    intro y hy hy'
    rw [emit_bbs_of_ne (h.ahead_ne (by omega))]
    exact h.ahead y (by omega) hy'
  have hmem : ∀ i ∈ c, i ∈ (s.bbs main).insts := fun i hi => by
    rw [h.insts]
    exact List.mem_append_right _ hi
  have hmarks : ∀ i ∈ c, (s.emit kind).marks i.id = s.marks i.id := fun i hi =>
    emit_marks (h.heap.ids main h.own.1 h.own.2 i (hmem i hi))
  have hother : ∀ y ∈ s.ubbs addr, y < p + 1 → y ≠ s.bld.insertBlock →
      y = p ∨ Forward (s.emit kind) addr y := by
    intro y hy hlt hne
    by_cases heq : y = p
    · exact .inl heq
    · exact .inr (forward_emit h.heap hy hne ((h.done y hy (by omega)).resolve_left hne))
  refine ⟨?_, hpmain⟩
  cases h.shape with
  | main insert quiet =>
    obtain ⟨z, w, rfl⟩ : ∃ z w, kind = .condBr .helper z w := hkind.resolve_right fun e =>
      e.1 insert
    refine ⟨c ++ [⟨s.nextInstr, .condBr .helper z w⟩], hwork,
      h.beside.trans ⟨rfl, rfl, rfl, rfl⟩, ?_, ?_,
      .left (m := c) (x := ⟨s.nextInstr, .condBr .helper z w⟩) hpub hnil rfl ?_
        (emit_marks_self s (.condBr .helper z w)) (.leave hact ?_ ?_),
          Nat.lt_succ_self _, hp, hahead,
      fun y hy hlt => ?_, fun e => absurd e hpmain⟩
    · show ((s.emit _).bbs main).insts = _
      rw [← insert, emit_insts_self, ← List.append_assoc, ← h.insts, ← insert]
      rfl
    · refine (emit_first h.heap.updateFirst (.condBr .helper z w)).trans ?_
      rw [h.first]
      cases c <;> rfl
    · exact quiet.grow hmarks
    · exact (hsucc z (by simp [Kind.succs])).1
    · exact (hsucc w (by simp [Kind.succs])).1
    · refine hother y hy hlt fun e => ?_
      exact h.heap.find_ubbs h.key (insert ▸ e ▸ hy)
  | @left m x insert open_ eq quiet mark term =>
    have hne : main ≠ s.bld.insertBlock := fun e => h.heap.find_ubbs h.key (e ▸ insert)
    rw [eq] at hmarks
    refine ⟨c, hwork, h.beside.trans ⟨rfl, rfl, rfl, rfl⟩, ?_, ?_, .left hpub hnil eq ?_ ?_
      (term.grow ?_), Nat.lt_succ_self _, hp,
      hahead, fun y hy hlt => ?_, fun e => absurd e hpmain⟩
    · show ((s.emit _).bbs main).insts = _
      rw [emit_bbs_of_ne hne, h.insts]
    · refine (emit_first h.heap.updateFirst kind).trans ?_
      rw [h.first, eq]
      cases m <;> rfl
    · exact quiet.grow fun i hi => hmarks i (List.mem_append_left _ hi)
    · exact (hmarks x (List.mem_append_right _ (List.mem_singleton.mpr rfl))).trans mark
    · exact ⟨fun _ _ hk => hk, fun _ _ hb => hb⟩
    · by_cases hyi : y = s.bld.insertBlock
      · -- The block just left leads forward.
        subst hyi
        obtain ⟨hn, hlt'⟩ := h.heap.insert
        refine .inr ⟨s.insertBB.insts, ⟨s.nextInstr, kind⟩, emit_insts_self s kind, ?_,
          emit_marks_self s kind, ?_, hsucc⟩
        · exact quiet_emit h.heap hn hlt' kind open_ fun i hi => hi
        · rcases hkind with hk | ⟨-, hk⟩
          · exact .inr hk
          · exact .inl hk
      · exact hother y hy hlt hyi

/-- With no block ahead the construction may begin another round. -/
theorem round (h : Aux opts body n st bad s s₀ addr main k l c p) (hp : p = s.nextBlock) (q : Nat) :
    ∃ c', Aux opts body n st bad (s.ops q) s₀ addr main k l c' (s.ops q).nextBlock := by
  rw [ops_nextBlock, ← hp]
  exact h.ops q

/-- Two blocks: one that is passed through, and the one to go on in. -/
theorem detour (h : Aux opts body n st bad s s₀ addr main k l c s.nextBlock)
    (hact : (body addr).act.leaves opts = true) (q : Nat) :
    let p := s.nextBlock
    let t := ((s.newUBB addr).2.newUBB addr).2
    let t := (((t.condBr .helper (p + 1) p).setInsertBlock p).ops q).br (p + 1)
    let t := t.setInsertBlock (p + 1)
    (∃ c', Aux opts body n st bad t s₀ addr main k l c' t.nextBlock) ∧
      t.bld.insertBlock ≠ main := by
  intro p t t'
  obtain ⟨⟨c₁, h₁⟩, hp⟩ := h.newUBB.newUBB.move (.condBr .helper (p + 1) p) hact
    (show p < p + 2 by omega) (.inl ⟨_, _, rfl⟩) fun z hz => by
      rcases List.mem_pair.mp hz with rfl | rfl
      · exact ⟨Nat.le_succ _, show p + 1 < p + 2 by omega⟩
      · exact ⟨le_refl _, show p < p + 2 by omega⟩
  obtain ⟨c₂, h₂⟩ := h₁.ops q
  obtain ⟨⟨c₃, h₃⟩, hp'⟩ := h₂.move (.br (p + 1)) hact
    (by rw [ops_nextBlock]; exact show p + 1 < p + 2 by omega)
    (.inr ⟨by rw [ops_insertBlock]; exact hp, _, rfl⟩) fun z hz => by
      rw [List.mem_singleton.mp hz, ops_nextBlock]
      exact ⟨le_refl _, show p + 1 < p + 2 by omega⟩
  refine ⟨⟨c₃, ?_⟩, hp'⟩
  have hn : (t'.setInsertBlock (p + 1)).nextBlock = p + 2 := ops_nextBlock _ _
  rw [hn]
  exact h₃

/-- Three blocks: two arms, and the one where they meet. -/
theorem fork (h : Aux opts body n st bad s s₀ addr main k l c s.nextBlock)
    (hact : (body addr).act.leaves opts = true) (q r u v : Nat)
    (huv : ∀ z, z = u ∨ z = v → s.nextBlock ≤ z ∧ z < s.nextBlock + 2) :
    let p := s.nextBlock
    let t := (((s.newUBB addr).2.newUBB addr).2.newUBB addr).2
    let t := (((t.condBr .helper u v).setInsertBlock p).ops q).br (p + 2)
    let t := (((t.setInsertBlock (p + 1)).ops r).br (p + 2)).setInsertBlock (p + 2)
    (∃ c', Aux opts body n st bad t s₀ addr main k l c' t.nextBlock) ∧
      t.bld.insertBlock ≠ main := by
  intro p t t' t''
  have hn : ∀ s' : State, s'.nextBlock = p + 3 → p + 2 < s'.nextBlock := fun s' hs => by omega
  obtain ⟨⟨c₁, h₁⟩, hp⟩ := h.newUBB.newUBB.newUBB.move (.condBr .helper u v) hact
    (show p < p + 3 by omega) (.inl ⟨_, _, rfl⟩) fun z hz => by
      have := huv z (List.mem_pair.mp hz)
      exact ⟨this.1, show z < p + 3 by omega⟩
  obtain ⟨c₂, h₂⟩ := h₁.ops q
  obtain ⟨⟨c₃, h₃⟩, hp'⟩ := h₂.move (.br (p + 2)) hact
    (by rw [ops_nextBlock]; exact show p + 1 < p + 3 by omega)
    (.inr ⟨by rw [ops_insertBlock]; exact hp, _, rfl⟩) fun z hz => by
      rw [List.mem_singleton.mp hz, ops_nextBlock]
      exact ⟨Nat.le_succ _, show p + 2 < p + 3 by omega⟩
  obtain ⟨c₄, h₄⟩ := h₃.ops r
  have hn₃ : (((State.ops q ((t.condBr .helper u v).setInsertBlock p)).br (p + 2)).setInsertBlock
      (p + 1)).nextBlock = p + 3 := ops_nextBlock _ _
  obtain ⟨⟨c₅, h₅⟩, hp''⟩ := h₄.move (.br (p + 2)) hact
    (by rw [ops_nextBlock]; exact hn _ hn₃)
    (.inr ⟨by rw [ops_insertBlock]; exact hp', _, rfl⟩) fun z hz => by
      rw [List.mem_singleton.mp hz, ops_nextBlock]
      exact ⟨le_refl _, hn _ hn₃⟩
  refine ⟨⟨c₅, ?_⟩, hp''⟩
  have hn₅ : t''.nextBlock = p + 3 := (ops_nextBlock _ _).trans hn₃
  rw [hn₅]
  exact h₅

/-- Where a round of construction ends: still in place, or in a new block. -/
structure Ends (opts : Options) (body : Nat → Inst) (n st : Nat) (bad : Nat → Prop) (s₀ s t : State)
    (addr main k : Nat) (l : List Instr) (leaves : Prop) : Prop where
  aux : ∃ c', Aux opts body n st bad t s₀ addr main k l c' t.nextBlock
  left : leaves → t.bld.insertBlock ≠ main
  stayed : ¬ leaves → t.bld.insertBlock = s.bld.insertBlock

theorem Ends.of_ops (h : Aux opts body n st bad s s₀ addr main k l c s.nextBlock) (q : Nat)
    {leaves : Prop} (hl : ¬ leaves) :
    Ends opts body n st bad s₀ s (s.ops q) addr main k l leaves :=
  ⟨h.round rfl q, fun h => absurd h hl, fun _ => ops_insertBlock s q⟩

section ICall
variable (hact : (body addr).act = .icall)

theorem icall_leaves (hi : opts.icallIntOnly = false)
    (h : opts.syncOnExternalCalls = false ∨ opts.useICallerForIIntFuncs = false) :
    Act.icall.leaves opts = true := by
  rcases h with h | h <;> simp [Act.leaves, hi, h]

include hact

theorem leaveFunction (h : Aux opts body n st bad s s₀ addr main k l c s.nextBlock) :
    Ends opts body n st bad s₀ s (s.leaveFunction opts addr).1 addr main k l
      (opts.icallIntOnly = false ∧ opts.syncOnExternalCalls = false) := by
  unfold State.leaveFunction
  by_cases hopt : opts.syncOnExternalCalls = true ∨ opts.icallIntOnly = true
  · rw [if_pos hopt]
    refine .of_ops h _ fun hl => ?_
    rcases hopt with ho | ho
    · rw [hl.2] at ho; exact nomatch ho
    · rw [hl.1] at ho; exact nomatch ho
  · rw [if_neg hopt]
    simp only [not_or, Bool.not_eq_true] at hopt
    obtain ⟨c₁, h₁⟩ := h.round rfl 2
    obtain ⟨haux, hne⟩ := h₁.detour (by rw [hact]; exact icall_leaves hopt.2 (.inl hopt.1))
      opts.stored
    exact ⟨haux, fun _ => hne, fun hn => absurd hopt.symm hn⟩

theorem icall (h : Aux opts body n st bad s s₀ addr main k l c s.nextBlock) (ext : Bool) :
    Ends opts body n st bad s₀ s (s.icall opts addr ext) addr main k l
      (opts.icallIntOnly = false ∧ opts.useICallerForIIntFuncs = false) := by
  unfold State.icall
  by_cases hic : opts.useICallerForIIntFuncs = true
  · rw [if_pos hic]
    refine .of_ops h _ fun hl => ?_
    rw [hl.2] at hic; exact nomatch hic
  · rw [if_neg hic]
    by_cases hint : opts.icallIntOnly = true
    · rw [if_pos hint]
      refine .of_ops h _ fun hl => ?_
      rw [hl.1] at hint; exact nomatch hint
    · rw [if_neg hint]
      rw [Bool.not_eq_true] at hic hint
      have hext : (if ext = true then s else s.ops 2) = s.ops (if ext = true then 0 else 2) := by
        split <;> rfl
      have harm : ∀ s' : State, (if opts.hardFloatABI = true then s'.ops 1
        else s'.callICaller opts) =
          s'.ops (if opts.hardFloatABI = true then 1 else opts.icaller + 1) := by
        intro s'
        split <;> rfl
      simp only [hext, harm]
      obtain ⟨c₁, h₁⟩ := h.round rfl (if ext = true then 0 else 2)
      generalize hs : s.ops (if ext = true then 0 else 2) = s₁ at *
      obtain ⟨haux, hne⟩ := h₁.fork (by rw [hact]; exact icall_leaves hint (.inr hic))
        (if opts.hardFloatABI = true then 1 else opts.icaller + 1) 2 s₁.nextBlock
        (s₁.nextBlock + 1) fun z hz => by rcases hz with rfl | rfl <;> omega
      exact ⟨haux, fun _ => hne, fun hn => absurd ⟨hint, hic⟩ hn⟩

theorem enterFunction (h : Aux opts body n st bad s s₀ addr main k l c s.nextBlock) :
    Ends opts body n st bad s₀ s (s.enterFunction opts addr) addr main k l
      (opts.icallIntOnly = false ∧ opts.syncOnExternalCalls = false) := by
  unfold State.enterFunction
  by_cases hsync : opts.syncOnExternalCalls = true
  · rw [if_pos hsync]
    refine .of_ops h _ fun hl => ?_
    rw [hl.2] at hsync; exact nomatch hsync
  · rw [if_neg hsync]
    by_cases hint : opts.icallIntOnly = true
    · rw [if_pos hint]
      refine .of_ops h _ fun hl => ?_
      rw [hl.1] at hint; exact nomatch hint
    · rw [if_neg hint]
      rw [Bool.not_eq_true] at hsync hint
      obtain ⟨haux, hne⟩ := h.fork (by rw [hact]; exact icall_leaves hint (.inl hsync))
        opts.loaded opts.retLoaded (s.nextBlock + 1) s.nextBlock
        fun z hz => by rcases hz with rfl | rfl <;> omega
      exact ⟨haux, fun _ => hne, fun hn => absurd ⟨hint, hsync⟩ hn⟩

theorem handleICall (h : Aux opts body n st bad s s₀ addr main k l c s.nextBlock) :
    Ends opts body n st bad s₀ s (s.handleICall opts addr) addr main k l
      (Act.icall.leaves opts = true) := by
  have h₁ := h.leaveFunction hact
  obtain ⟨c₁, haux₁⟩ := h₁.aux
  have h₂ := haux₁.icall hact (s.leaveFunction opts addr).2
  obtain ⟨c₂, haux₂⟩ := h₂.aux
  have h₃ := haux₂.enterFunction hact
  refine ⟨h₃.aux, fun hl => ?_, fun hl => ?_⟩
  · simp only [Act.leaves, Bool.and_eq_true, Bool.not_eq_true', Bool.and_eq_false_iff] at hl
    by_cases hs : opts.syncOnExternalCalls = false
    · exact h₃.left ⟨hl.1, hs⟩
    · have hne := h₂.left ⟨hl.1, hl.2.resolve_left hs⟩
      rw [show (s.handleICall opts addr).bld.insertBlock = _ from h₃.stayed fun hn => hs hn.2]
      exact hne
  · have hall : ¬ (opts.icallIntOnly = false ∧ opts.syncOnExternalCalls = false) ∧
        ¬ (opts.icallIntOnly = false ∧ opts.useICallerForIIntFuncs = false) := by
      refine ⟨fun hn => hl (icall_leaves hn.1 (.inl hn.2)), fun hn => hl ?_⟩
      exact icall_leaves hn.1 (.inr hn.2)
    exact (h₃.stayed hall.1).trans ((h₂.stayed hall.2).trans (h₁.stayed hall.1))

end ICall

/-- One test of a conversion's input, with the blocks for it ahead. -/
theorem outOfRange (h : Aux opts body n st bad s s₀ addr main k l c p)
    (hact : (body addr).act.leaves opts = true) (e : Nat) (he : p + 2 ≤ e)
    (hlt : e < s.nextBlock) :
    (∃ c', Aux opts body n st bad (s.outOfRange p (p + 1) e) s₀ addr main k l c' (p + 2)) ∧
      p + 1 ≠ main ∧ (s.outOfRange p (p + 1) e).nextBlock = s.nextBlock := by
  obtain ⟨c₁, h₁⟩ := h.ops 1
  obtain ⟨⟨c₂, h₂⟩, hp⟩ := h₁.move (.condBr .helper p (p + 1)) hact
    (by rw [ops_nextBlock]; omega) (.inl ⟨_, _, rfl⟩) fun z hz => by
      rw [ops_nextBlock]
      rcases List.mem_pair.mp hz with rfl | rfl <;> omega
  obtain ⟨c₃, h₃⟩ := h₂.ops 1
  have hn : (State.ops 1
      (((s.ops 1).emit (.condBr .helper p (p + 1))).setInsertBlock p)).nextBlock = s.nextBlock :=
    ops_nextBlock _ 1
  obtain ⟨⟨c₄, h₄⟩, hp'⟩ := h₃.move (.br e) hact (by rw [hn]; omega)
    (.inr ⟨by rw [ops_insertBlock]; exact hp, _, rfl⟩) fun z hz => by
      rw [List.mem_singleton.mp hz, hn]
      omega
  exact ⟨⟨c₄, h₄⟩, hp', hn⟩

theorem newUBB_fst (s : State) (addr : Nat) : (s.newUBB addr).1 = s.nextBlock := rfl

theorem newUBB_nextBlock (s : State) (addr : Nat) :
    (s.newUBB addr).2.nextBlock = s.nextBlock + 1 := rfl

theorem translateCVT (h : Aux opts body n st bad s s₀ addr main k l c s.nextBlock)
    (hact : (body addr).act = .cvt) :
    Ends opts body n st bad s₀ s (s.translateCVT opts addr) addr main k l
      (Act.cvt.leaves opts = true) := by
  unfold State.translateCVT State.validateRangeBegin
  by_cases hv : opts.enableFCVTValidation = true
  · have hl : (body addr).act.leaves opts = true := by rw [hact]; exact hv
    simp only [hv, if_true, newUBB_fst, newUBB_nextBlock, Nat.add_assoc, Nat.reduceAdd,
      validateRangeEnd]
    have h₀ := h.newUBB.newUBB.newUBB.newUBB.newUBB.newUBB.newUBB.newUBB.newUBB
    have hn₀ : ((((((((((s.newUBB addr).2.newUBB addr).2.newUBB addr).2.newUBB addr).2.newUBB
      addr).2.newUBB addr).2.newUBB addr).2.newUBB addr).2.newUBB addr).2).nextBlock =
        s.nextBlock + 9 := rfl
    generalize ((((((((((s.newUBB addr).2.newUBB addr).2.newUBB addr).2.newUBB addr).2.newUBB
      addr).2.newUBB addr).2.newUBB addr).2.newUBB addr).2.newUBB addr).2) = s₁ at *
    generalize s.nextBlock = p at *
    obtain ⟨⟨c₁, h₁⟩, -, hn₁⟩ := h₀.outOfRange hl (p + 8) (by omega) (by omega)
    generalize s₁.outOfRange p (p + 1) (p + 8) = s₂ at *
    obtain ⟨⟨c₂, h₂⟩, -, hn₂⟩ := h₁.outOfRange hl (p + 8) (by omega) (by omega)
    generalize s₂.outOfRange (p + 2) (p + 3) (p + 8) = s₃ at *
    obtain ⟨⟨c₃, h₃⟩, -, hn₃⟩ := h₂.outOfRange hl (p + 8) (by omega) (by omega)
    generalize s₃.outOfRange (p + 4) (p + 5) (p + 8) = s₄ at *
    obtain ⟨⟨c₄, h₄⟩, hp, hn₄⟩ := h₃.outOfRange hl (p + 8) (by omega) (by omega)
    have hins : (s₄.outOfRange (p + 6) (p + 7) (p + 8)).bld.insertBlock = p + 7 := rfl
    generalize s₄.outOfRange (p + 6) (p + 7) (p + 8) = s₅ at *
    obtain ⟨c₅, h₅⟩ := h₄.ops 2
    obtain ⟨⟨c₆, h₆⟩, hp'⟩ := h₅.move (.br (p + 8)) hl
      (by rw [ops_nextBlock]; omega) (.inr ⟨by rw [ops_insertBlock, hins]; exact hp, _, rfl⟩)
      fun z hz => by
        rw [List.mem_singleton.mp hz, ops_nextBlock]
        omega
    have hn₆ : (((s₅.ops 2).br (p + 8)).setInsertBlock (p + 8)).nextBlock = p + 9 := by
      show (s₅.ops 2).nextBlock = _
      rw [ops_nextBlock, hn₄, hn₃, hn₂, hn₁, hn₀]
    refine ⟨⟨c₆, ?_⟩, fun _ => hp', fun hn => absurd hl (by rw [hact]; exact hn)⟩
    rw [hn₆]
    exact h₆
  · simp only [hv, if_false, Bool.false_eq_true]
    exact .of_ops h 2 hv

end Aux
end RiscvSbt.Block
