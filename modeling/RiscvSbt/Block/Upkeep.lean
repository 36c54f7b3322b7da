import RiscvSbt.Block.Owner
import RiscvSbt.Library.Run

/-! What a turn of the loop does to what the function owns.

One lemma for each function that builds blocks, none of which needs to know what the blocks
hold. `Serves` is what a turn shows beside the code: the words of a label. -/
namespace RiscvSbt.Block
open Library State

variable {opts : Options} {n st : Nat} {L : List Nat} {s₁ u s t : State} {addr tgt bb : Nat}

theorem getBackBB_tracked (h : s.getBackBB tgt = .ok bb) : ∃ k, s.findBB k = some bb := by
  unfold State.getBackBB at h
  cases hlb : s.func.bbMap.lowerBound tgt with
  | none =>
    cases hp : s.func.bbMap.previous tgt with
    | none =>
      rw [hlb, hp] at h
      cases h
    | some i =>
      rw [hlb, hp] at h
      obtain rfl := Except.ok.inj h
      exact ⟨i.1, (Map.previous_eq_some.mp hp).1⟩
  | some i =>
    have hget : s.findBB i.1 = some i.2 := (Map.lowerBound_eq_some.mp hlb).1
    rw [hlb] at h
    dsimp only at h
    split at h
    · obtain rfl := Except.ok.inj h
      exact ⟨i.1, hget⟩
    · split at h
      next hp =>
        obtain rfl := Except.ok.inj h
        exact ⟨_, (Map.previous_eq_some.mp hp).1⟩
      next =>
        obtain rfl := Except.ok.inj h
        exact ⟨i.1, hget⟩

namespace Own

/-! ### Branches and jumps -/

theorem jumpForward (h : Own n st L s₁ u s) (hlt : st < tgt)
    (hj : s.jumpForward tgt = .ok (bb, t)) : Own n st L s₁ u t := by
  unfold State.jumpForward at hj
  cases hlb : s.lowerBoundBB tgt with
  | none =>
    rw [hlb] at hj
    obtain ⟨-, rfl⟩ := Prod.mk.inj (Except.ok.inj hj)
    exact (h.newBB tgt fun b hb => by cases hb).updateNextBB hlt
  | some b =>
    rw [hlb] at hj
    obtain ⟨a, -, hj⟩ := bind_ok hj
    split at hj
    · obtain ⟨-, rfl⟩ := Prod.mk.inj (Except.ok.inj hj)
      exact h
    · obtain ⟨-, rfl⟩ := Prod.mk.inj (Except.ok.inj hj)
      refine (h.newBB tgt fun x hx => ?_).updateNextBB hlt
      obtain rfl := Option.some.inj hx
      exact (h.lowerBound hlt hlb).1

theorem jumpBackward (h : Own n st L s₁ u s) (hj : s.jumpBackward tgt = .ok (bb, t)) :
    Own n st L s₁ u t := by
  obtain ⟨b, hb, hj⟩ := bind_ok hj
  obtain ⟨k, hk⟩ := getBackBB_tracked hb
  obtain ⟨hn, hlt, -⟩ := h.tracked k b hk
  obtain ⟨c, -, hj⟩ := bind_ok hj
  split at hj
  · obtain ⟨a, -, hj⟩ := bind_ok hj
    split at hj
    · obtain ⟨-, rfl⟩ := Prod.mk.inj (Except.ok.inj hj)
      exact h
    · obtain ⟨⟨nb, v⟩, hv, hj⟩ := bind_ok hj
      obtain ⟨-, rfl⟩ := Prod.mk.inj (Except.ok.inj hj)
      obtain ⟨hown, hn', hlt', ha⟩ := h.split hn hlt hv
      have hadd := hown.addBB hn' hlt' ha
      split
      · exact hadd.setInsertBlock ⟨hn', hlt'⟩
      · exact hadd
  · cases hj

theorem needNextBB (h : Own n st L s₁ u s) (hst : st ≤ addr) :
    Own n st L s₁ u (s.needNextBB addr) := by
  unfold State.needNextBB
  have hlt : st < addr + 4 := by omega
  split
  · exact h.updateNextBB hlt
  · exact (h.newBB (addr + 4) fun b hb => (h.lowerBound hlt hb).1).updateNextBB hlt

theorem handleJump (h : Own n st L s₁ u s) (hst : st ≤ addr) {cond : Option Cond}
    (hj : s.handleJump addr tgt cond 0 = .ok t) : Own n st L s₁ u t := by
  by_cases hne : tgt = addr
  · unfold State.handleJump at hj
    rw [if_pos hne] at hj
    cases hj
  cases hr : (if addr < tgt then s.jumpForward tgt else s.jumpBackward tgt) with
  | error e =>
    unfold State.handleJump at hj
    rw [if_neg hne] at hj
    by_cases hlt : addr < tgt
    · rw [if_pos hlt] at hr
      rw [if_pos hlt, hr] at hj
      cases hj
    · rw [if_neg hlt] at hr
      rw [if_neg hlt, hr] at hj
      cases hj
  | ok x =>
    obtain ⟨bb, v⟩ := x
    rw [Mid.handleJump_ok hne hr] at hj
    have hv : Own n st L s₁ u v := by
      split at hr
      next hlt => exact h.jumpForward (lt_of_le_of_lt hst hlt) hr
      next => exact h.jumpBackward hr
    have hnext := hv.needNextBB hst
    cases cond with
    | none =>
      obtain rfl := Except.ok.inj hj
      exact hnext.br bb
    | some c =>
      dsimp only at hj
      split at hj
      · obtain rfl := Except.ok.inj hj
        exact hnext.condBr c bb _
      · cases hj

theorem retVoid (h : Own n st L s₁ u s) : Own n st L s₁ u s.retVoid := h.emit nofun

/-! ### Auxiliary blocks -/

/-- Auxiliary blocks for an instruction of the function. -/
theorem addUBB (h : Own n st L s₁ u s) (hst : st ≤ addr) :
    Own n st L s₁ u (s.newUBB addr).2 := (h.newUBB hst).1

/-- Filling a block that the function has. -/
theorem fill (h : Own n st L s₁ u s) {b : Nat} (hb : n ≤ b ∧ b < s.nextBlock) (c x : Nat) :
    Own n st L s₁ u (((s.setInsertBlock b).ops c).br x) :=
  ((h.setInsertBlock hb).ops c).br x

theorem fill_nextBlock (s : State) (b c x : Nat) :
    (((s.setInsertBlock b).ops c).br x).nextBlock = s.nextBlock := Aux.ops_nextBlock _ c

theorem leaveFunction (h : Own n st L s₁ u s) (hst : st ≤ addr) :
    Own n st L s₁ u (s.leaveFunction opts addr).1 := by
  unfold State.leaveFunction
  split
  · exact h.ops _
  · have hn := h.lt_nextBlock
    have h₁ := ((h.ops 2).addUBB hst).addUBB hst
    have hn₁ : (((s.ops 2).newUBB addr).2.newUBB addr).2.nextBlock = s.nextBlock + 2 :=
      congrArg (· + 2) (Aux.ops_nextBlock s 2)
    simp only [Aux.newUBB_fst, Aux.newUBB_nextBlock, Aux.ops_nextBlock]
    generalize (((s.ops 2).newUBB addr).2.newUBB addr).2 = s₂ at *
    refine ((h₁.condBr _ _ _).fill ⟨le_of_lt hn, ?_⟩ _ _).setInsertBlock ⟨by omega, ?_⟩
    · show s.nextBlock < s₂.nextBlock
      omega
    · rw [fill_nextBlock]
      show s.nextBlock + 1 < s₂.nextBlock
      omega

/-- Three blocks: two arms, and the one where they meet. -/
theorem fork (h : Own n st L s₁ u s) (hst : st ≤ addr) (x y q r : Nat) :
    let p := s.nextBlock
    let t := (((s.newUBB addr).2.newUBB addr).2.newUBB addr).2
    let t := (((t.condBr .helper x y).setInsertBlock p).ops q).br (p + 2)
    Own n st L s₁ u ((((t.setInsertBlock (p + 1)).ops r).br (p + 2)).setInsertBlock (p + 2)) := by
  have hn := h.lt_nextBlock
  have h₁ := ((h.addUBB hst).addUBB hst).addUBB hst
  have hn₁ : (((s.newUBB addr).2.newUBB addr).2.newUBB addr).2.nextBlock = s.nextBlock + 3 := rfl
  intro p t t'
  have h₂ : Own n st L s₁ u t' := (h₁.condBr .helper x y).fill (b := p)
    ⟨le_of_lt hn, show p < s.nextBlock + 3 by omega⟩ q (p + 2)
  have hn₂ : t'.nextBlock = s.nextBlock + 3 := (fill_nextBlock _ p q (p + 2)).trans hn₁
  refine (h₂.fill ⟨by omega, by omega⟩ r (p + 2)).setInsertBlock ⟨by omega, ?_⟩
  rw [fill_nextBlock]
  omega

theorem icall (h : Own n st L s₁ u s) (hst : st ≤ addr) (ext : Bool) :
    Own n st L s₁ u (s.icall opts addr ext) := by
  unfold State.icall
  split
  · exact h.ops _
  · split
    · exact h.ops _
    · have hext : (if ext = true then s else s.ops 2) = s.ops (if ext = true then 0 else 2) := by
        split <;> rfl
      have harm : ∀ s' : State, (if opts.hardFloatABI = true then s'.ops 1
        else s'.callICaller opts) =
          s'.ops (if opts.hardFloatABI = true then 1 else opts.icaller + 1) := by
        intro s'
        split <;> rfl
      simp only [hext, harm]
      exact (h.ops _).fork hst _ _ _ _

theorem enterFunction (h : Own n st L s₁ u s) (hst : st ≤ addr) :
    Own n st L s₁ u (s.enterFunction opts addr) := by
  unfold State.enterFunction
  split
  · exact h.ops _
  · split
    · exact h.ops _
    · exact h.fork hst _ _ _ _

theorem handleICall (h : Own n st L s₁ u s) (hst : st ≤ addr) :
    Own n st L s₁ u (s.handleICall opts addr) :=
  ((h.leaveFunction hst).icall hst _).enterFunction hst

theorem outOfRange (h : Own n st L s₁ u s) {x y z : Nat} (hx : n ≤ x ∧ x < s.nextBlock)
    (hy : n ≤ y ∧ y < s.nextBlock) :
    Own n st L s₁ u (s.outOfRange x y z) ∧ (s.outOfRange x y z).nextBlock = s.nextBlock := by
  have hn : (s.outOfRange x y z).nextBlock = s.nextBlock :=
    (fill_nextBlock _ x 1 z).trans (Aux.ops_nextBlock s 1)
  refine ⟨?_, hn⟩
  have h₁ := ((h.ops 1).condBr .helper x y).fill (b := x)
    ⟨hx.1, (Aux.ops_nextBlock s 1).symm ▸ hx.2⟩ 1 z
  exact h₁.setInsertBlock ⟨hy.1, lt_of_lt_of_eq hy.2 hn.symm⟩

theorem translateCVT (h : Own n st L s₁ u s) (hst : st ≤ addr) :
    Own n st L s₁ u (s.translateCVT opts addr) := by
  unfold State.translateCVT State.validateRangeBegin
  by_cases hv : opts.enableFCVTValidation = true
  · simp only [hv, if_true, Aux.newUBB_fst, Aux.newUBB_nextBlock, Nat.add_assoc, Nat.reduceAdd,
      validateRangeEnd]
    have hn := h.lt_nextBlock
    have h₀ := ((((((((h.addUBB hst).addUBB hst).addUBB hst).addUBB hst).addUBB hst).addUBB
      hst).addUBB hst).addUBB hst).addUBB hst
    have hn₀ : ((((((((((s.newUBB addr).2.newUBB addr).2.newUBB addr).2.newUBB addr).2.newUBB
      addr).2.newUBB addr).2.newUBB addr).2.newUBB addr).2.newUBB addr).2).nextBlock =
        s.nextBlock + 9 := rfl
    generalize ((((((((((s.newUBB addr).2.newUBB addr).2.newUBB addr).2.newUBB addr).2.newUBB
      addr).2.newUBB addr).2.newUBB addr).2.newUBB addr).2.newUBB addr).2) = s₁ at *
    generalize s.nextBlock = p at *
    obtain ⟨h₁, hn₁⟩ := h₀.outOfRange (x := p) (y := p + 1) (z := p + 8) (by omega) (by omega)
    generalize s₁.outOfRange p (p + 1) (p + 8) = s₂ at *
    obtain ⟨h₂, hn₂⟩ := h₁.outOfRange (x := p + 2) (y := p + 3) (z := p + 8) (by omega) (by omega)
    generalize s₂.outOfRange (p + 2) (p + 3) (p + 8) = s₃ at *
    obtain ⟨h₃, hn₃⟩ := h₂.outOfRange (x := p + 4) (y := p + 5) (z := p + 8) (by omega) (by omega)
    generalize s₃.outOfRange (p + 4) (p + 5) (p + 8) = s₄ at *
    obtain ⟨h₄, hn₄⟩ := h₃.outOfRange (x := p + 6) (y := p + 7) (z := p + 8) (by omega) (by omega)
    generalize s₄.outOfRange (p + 6) (p + 7) (p + 8) = s₅ at *
    refine ((h₄.ops 2).br (p + 8)).setInsertBlock ⟨by omega, ?_⟩
    show p + 8 < (s₅.ops 2).nextBlock
    rw [Aux.ops_nextBlock]
    omega
  · simp only [hv, if_false, Bool.false_eq_true]
    exact h.ops 2

/-! ### A turn -/

theorem getFirst (h : Own n st L s₁ u s) : Own n st L s₁ u s.getFirst := by
  unfold State.getFirst
  split
  · exact h.emit nofun
  · exact h

/-- Marks the first instruction of the turn. -/
theorem dbgprint (h : Own n st L s₁ u s) (hfirst : ∀ i, s.getFirst.bld.first = some i →
    s₁.nextInstr ≤ i) :
    Own n st L s₁ u (s.dbgprint addr) := by
  have hg := h.getFirst
  unfold State.dbgprint
  cases hf : s.getFirst.bld.first with
  | none =>
    simp only [hf]
    exact hg
  | some i =>
    simp only [hf]
    have hle := hfirst i hf
    exact hg.write rfl rfl rfl rfl rfl (le_refl _) hg.insert hg.cursor ⟨rfl, rfl, rfl⟩
      (fun _ hi => .inl hi) (fun _ => rfl) (fun _ _ => rfl)
      (fun j hj => Function.update_of_ne (Nat.ne_of_lt (lt_of_lt_of_le hj hle)) _ _)
      (List.prefix_refl _) (fun _ _ _ hget => .inl hget) (fun _ _ hmem _ => .inl hmem)
      (fun _ hi => hi) fun _ hi => .inl hi

theorem translate (h : Own n st L s₁ u s) (hst : st ≤ addr) {inst : Inst}
    (ht : s.translate opts addr inst = .ok t) :
    Own n st L s₁ u t ∧ ∀ i, t.getFirst.bld.first = some i → s₁.nextInstr ≤ i := by
  have hnext := h.nextInstr
  have h₀ : Own n st L s₁ s.reset (s.reset.ops inst.ops) := (h.reset.rebase).ops _
  unfold State.translate at ht
  -- What is first after a reset was made after it.
  have hfirst : ∀ {v : State}, Own n st L s₁ s.reset v → ∀ i, v.getFirst.bld.first = some i →
      s₁.nextInstr ≤ i := by
    intro v hv i hi
    rcases hv.getFirst.since.first i hi with hi | hle
    · cases hi
    · exact le_trans hnext hle
  have hend : ∀ {v : State}, Own n st L s₁ s.reset v → v.dbgprint addr = t →
      Own n st L s₁ u t ∧ ∀ i, t.getFirst.bld.first = some i → s₁.nextInstr ≤ i := by
    rintro v hv rfl
    have hd : Own n st L s₁ s.reset (v.dbgprint addr) := hv.dbgprint (hfirst hv)
    exact ⟨hd.after h.reset.since, hfirst hd⟩
  dsimp only at ht
  cases hact : inst.act with
  | next =>
    rw [hact] at ht
    exact hend h₀ (Except.ok.inj ht)
  | call _ =>
    rw [hact] at ht
    exact hend h₀ (Except.ok.inj ht)
  | icall =>
    rw [hact] at ht
    exact hend (h₀.handleICall hst) (Except.ok.inj ht)
  | cvt =>
    rw [hact] at ht
    exact hend (h₀.translateCVT hst) (Except.ok.inj ht)
  | branch tgt =>
    rw [hact] at ht
    obtain ⟨v, hv, ht⟩ := bind_ok ht
    exact hend (h₀.handleJump hst hv) (Except.ok.inj ht)
  | jump tgt =>
    rw [hact] at ht
    obtain ⟨v, hv, ht⟩ := bind_ok ht
    exact hend (h₀.handleJump hst hv) (Except.ok.inj ht)
  | ret =>
    rw [hact] at ht
    exact hend h₀.retVoid (Except.ok.inj ht)
  | tail _ =>
    rw [hact] at ht
    exact hend h₀.retVoid (Except.ok.inj ht)
  | ijump =>
    rw [hact] at ht
    exact hend h₀.handleIJump (Except.ok.inj ht)

theorem record (h : Own n st L s₁ u s) (hb : n ≤ bb ∧ bb < s.nextBlock)
    (hfirst : ∀ i, s.getFirst.bld.first = some i → s₁.nextInstr ≤ i) {b : Nat}
    (hr : s.record addr bb = .ok (b, t)) : Own n st L s₁ u t ∧ n ≤ b ∧ b < t.nextBlock := by
  have hg := h.getFirst
  unfold State.record at hr
  have hlt : bb < s.getFirst.nextBlock := by
    unfold State.getFirst
    split
    · exact hb.2
    · exact hb.2
  cases hf : s.getFirst.bld.first with
  | none =>
    simp only [hf] at hr
    cases hr
  | some i =>
    have hle := hfirst i hf
    simp only [hf] at hr
    obtain ⟨c, hc, hr⟩ := bind_ok hr
    obtain ⟨rfl, rfl⟩ := Prod.mk.inj (Except.ok.inj hr)
    have hcb : n ≤ c ∧ c < s.getFirst.nextBlock := by
      unfold State.firstBB at hc
      split at hc
      · obtain rfl := Except.ok.inj hc
        exact ⟨hb.1, hlt⟩
      · split at hc
        · cases hc
        · split at hc
          · obtain rfl := Except.ok.inj hc
            exact hg.insert
          · cases hc
    generalize s.getFirst = v at *
    have hne : ∀ x, x ≠ c → (v.addInstr addr c i).bbs x = v.bbs x := fun x hx =>
      Function.update_of_ne hx _ _
    have hself : (v.addInstr addr c i).bbs c =
        {v.bbs c with instrMap := (v.bbs c).instrMap.upsert addr i} := Function.update_self _ _ _
    have hinsts : ∀ x, ((v.addInstr addr c i).bbs x).insts = (v.bbs x).insts := by
      intro x
      by_cases hx : x = c
      · rw [hx, hself]
      · rw [hne x hx]
    refine ⟨hg.write rfl rfl rfl rfl rfl (le_refl _) hg.insert hg.cursor ⟨rfl, rfl, rfl⟩
      (fun _ hi => .inl hi) (fun x => ?_) (fun x hx => hne x (by omega)) (fun _ _ => rfl)
      (hinsts n ▸ List.prefix_refl _) (fun x a j hget => ?_)
      (fun x j hmem _ => .inl (hinsts x ▸ hmem)) (fun _ hi => hi) fun _ hi => .inl hi, hcb⟩
    · by_cases hx : x = c
      · rw [hx, hself]
        rfl
      · rw [hne x hx]
    · by_cases hx : x = c
      · rw [hx, hself] at hget
        have hget' : ((v.bbs c).instrMap.upsert addr i).get? a = some j := hget
        rw [Map.get?_upsert] at hget'
        split at hget'
        · exact .inr (Option.some.inj hget' ▸ hle)
        · exact .inl (hx ▸ hget')
      · rw [hne x hx] at hget
        exact .inl hget

end Own

/-- What a turn at `addr` shows beside the code: the words of a label are served, with the block
that starts there. -/
inductive Serves (n addr : Nat) (s t : State) : Prop where
  | idle (absent : s.pending.get? addr = none) (pending : t.pending = s.pending)
      (sections : t.sections = s.sections) (indBBs : t.func.indBBs = s.func.indBBs)
  | serve {prel : PendingReloc} {b : Nat} (waiting : s.pending.get? addr = some prel)
      (own : n ≤ b ∧ b < t.nextBlock) (starts : (t.bbs b).addr = some addr)
      (sections : prel.secs.foldlM (patch b) s.sections = Except.ok t.sections)
      (pending : t.pending = s.pending.remove addr)
      (indBBs : t.func.indBBs = s.func.indBBs ++ [b])

/-- Blocks are for good. -/
structure Lasts (s t : State) : Prop where
  nextBlock : s.nextBlock ≤ t.nextBlock
  tag : ∀ b, b < s.nextBlock → (t.bbs b).tag = (s.bbs b).tag

theorem Since.lasts (h : Since s t) : Lasts s t := ⟨h.nextBlock, h.tag⟩

theorem Lasts.trans (h : Lasts u s) (g : Lasts s t) : Lasts u t :=
  ⟨le_trans h.nextBlock g.nextBlock,
    fun b hb => (g.tag b (lt_of_lt_of_le hb h.nextBlock)).trans (h.tag b hb)⟩

namespace Own

theorem processPending (h : Own n st L s₁ s s) (hb : n ≤ bb ∧ bb < s.nextBlock) {b : Nat}
    (hp : s.processPending addr bb = .ok (b, t)) :
    Own n st L s₁ t t ∧ Lasts s t ∧ Serves n addr s t := by
  unfold State.processPending at hp
  cases hget : s.pending.get? addr with
  | none =>
    simp only [hget] at hp
    obtain ⟨-, rfl⟩ := Prod.mk.inj (Except.ok.inj hp)
    exact ⟨h, h.since.lasts, .idle hget rfl rfl rfl⟩
  | some prel =>
    simp only [hget] at hp
    -- Once the block is there, only the words are left.
    have hserve : ∀ {v : State} {nb : Nat}, Own n st L s₁ s v → n ≤ nb → nb < v.nextBlock →
        (v.bbs nb).addr = some addr →
        (do
          let sections ← prel.secs.foldlM (patch nb) v.sections
          pure (nb, { v with
            sections := sections
            pending := v.pending.remove addr
            func := {v.func with indBBs := v.func.indBBs ++ [nb]} })) = Except.ok (b, t) →
        Own n st L s₁ t t ∧ Lasts s t ∧ Serves n addr s t := by
      intro v nb hv hn hlt ha hrun
      obtain ⟨secs, hsecs, hrun⟩ := bind_ok hrun
      obtain ⟨-, rfl⟩ := Prod.mk.inj (Except.ok.inj hrun)
      refine ⟨{hv with since := .refl _}, ⟨hv.since.nextBlock, hv.since.tag⟩,
        .serve hget ⟨hn, hlt⟩ ha ?_ ?_ ?_⟩
      · rw [← hv.since.sections]
        exact hsecs
      · show v.pending.remove addr = _
        rw [hv.since.pending]
      · show v.func.indBBs ++ [nb] = _
        rw [hv.since.indBBs]
    obtain ⟨a, ha, hp⟩ := bind_ok hp
    have haddr : (s.bbs bb).addr = some a := by
      unfold BasicBlock.getAddr at ha
      split at ha
      next heq => rw [heq, Except.ok.inj ha]
      next => cases ha
    split at hp
    next heq => exact hserve h hb.1 hb.2 (heq ▸ haddr) hp
    next =>
      obtain ⟨⟨nb, v⟩, hv, hp⟩ := bind_ok hp
      obtain ⟨hown, hn, hlt, hnb⟩ := h.split hb.1 hb.2 hv
      exact hserve ((hown.addBB hn hlt hnb).setInsertBlock ⟨hn, hlt⟩) hn hlt hnb hp

/-- Moving to the block of an address is a step behind the first one. -/
theorem updateCurrentBB (h : Own n st L s₁ u s) : Own n st L s₁ u (s.updateCurrentBB addr) := by
  have henter : ∀ {v : State} {b : Nat}, Own n st L s₁ u v → n ≤ b ∧ b < v.nextBlock →
      Own n st L s₁ u ((if v.insertBB.terminated then v else v.br b).setInsertBlock b) := by
    intro v b hv hb
    split
    · exact hv.setInsertBlock hb
    · exact (hv.br b).setInsertBlock hb
  have hnext : ∀ {v : State} {c : Nat}, st < addr → Own n st L s₁ u v →
      v.nextBBAddr addr = some c → Own n st L s₁ u (v.updateNextBB c) := by
    intro v c hlt hv hc
    refine hv.updateNextBB ?_
    unfold State.nextBBAddr at hc
    obtain ⟨i, hi, rfl⟩ := Option.map_eq_some_iff.mp hc
    have := (Map.lowerBound_eq_some.mp hi).2.1
    omega
  by_cases hturn : Turns s addr
  · have hlt : st < addr := by
      have := hturn.1
      have := hturn.2
      rcases h.cursor with hc | hc
      · omega
      · omega
    cases hb : s.findBB addr with
    | some b =>
      obtain ⟨hn, hlt', -⟩ := h.tracked addr b hb
      have ht := henter h ⟨hn, hlt'⟩
      rw [Inv.updateCurrentBB_some hturn hb]
      dsimp only
      split
      next c hc => exact hnext hlt ht hc
      next => exact ht
    | none =>
      have ht := henter (h.newBB addr fun b hb => (h.lowerBound hlt hb).1)
        ⟨le_of_lt h.lt_nextBlock, Nat.lt_succ_self _⟩
      rw [Inv.updateCurrentBB_none hturn hb]
      dsimp only
      split
      next c hc => exact hnext hlt ht hc
      next => exact ht
  · have heq : s.updateCurrentBB addr = s := if_neg hturn
    rw [heq]
    exact h

theorem closeBB (h : Own n st L s₁ u s) (hst : st ≤ addr) : Own n st L s₁ u (s.closeBB addr) := by
  unfold State.closeBB
  split
  · exact h.updateNextBB (by omega)
  · exact h

/-- **A turn of the loop.** -/
theorem translateInstr (h : Own n st L s₁ s s) (hst : st ≤ addr) {inst : Inst}
    (ht : s.translateInstr opts addr inst = .ok t) :
    Own n st L s₁ t t ∧ Lasts s t ∧ Serves n addr s t := by
  have h₀ : Own n st L s₁ s (s.updateCurrentBB addr) := h.updateCurrentBB
  rw [Inv.translateInstr_eq rfl] at ht
  obtain ⟨v, hv, ht⟩ := bind_ok ht
  obtain ⟨h₁, hfirst⟩ := h₀.translate hst hv
  obtain ⟨⟨b, w⟩, hw, ht⟩ := bind_ok ht
  obtain ⟨⟨b', x⟩, hx, ht⟩ := bind_ok ht
  obtain rfl := Except.ok.inj ht
  have hins : (s.updateCurrentBB addr).bld.insertBlock < v.nextBlock :=
    lt_of_lt_of_le h₀.insert.2 (h₀.rebase.translate hst hv).1.since.nextBlock
  obtain ⟨h₂, hb⟩ := h₁.record ⟨h₀.insert.1, hins⟩ hfirst hw
  obtain ⟨h₃, hl, hs⟩ := h₂.rebase.processPending hb hx
  have h₄ := h₃.closeBB hst
  have hsince := h₂.since
  refine ⟨h₄.rebase, (hsince.lasts.trans hl).trans h₄.since.lasts, ?_⟩
  have hpend := h₄.since.pending
  have hsecs := h₄.since.sections
  have hind := h₄.since.indBBs
  cases hs with
  | idle hnone hp hsec hi =>
    refine .idle (hsince.pending ▸ hnone) (hpend.trans (hp.trans hsince.pending))
      (hsecs.trans (hsec.trans hsince.sections)) (hind.trans (hi.trans hsince.indBBs))
  | serve hsome hown ha hsec hp hi =>
    refine .serve (hsince.pending ▸ hsome) ⟨hown.1, lt_of_lt_of_le hown.2 h₄.since.nextBlock⟩ ?_
      (hsince.sections ▸ hsec.trans (by rw [hsecs]))
      (hpend.trans (by rw [hp, hsince.pending])) (hind.trans (by rw [hi, hsince.indBBs]))
    exact (congrArg (fun x : FnId × Option Nat × Bool => x.2.1) (h₄.since.tag _ hown.2)).trans ha

end Own

/-! ### Runs -/

namespace Base

theorem emit (h : Base n st L s) : Base n st L (s.emit .op) := by
  have hself : (s.emit .op).bbs n =
      {s.bbs n with insts := (s.bbs n).insts ++ [⟨s.nextInstr, .op⟩]} := by
    rw [← h.insert]
    exact Function.update_self _ _ _
  refine ⟨h.nextBlock, h.insert, h.find, h.ubbMap, by rw [hself]; exact h.tag, fun i hi => ?_, ?_,
    by rw [hself]; exact h.map, h.nextBB, h.indBrs, h.indBBs, h.layout, h.before, h.others⟩
  · rw [hself] at hi
    show i.id < s.nextInstr + 1
    rcases List.mem_append.mp hi with hi | hi
    · exact Nat.lt_succ_of_lt (h.ids i hi)
    · rw [List.mem_singleton.mp hi]
      exact Nat.lt_succ_self _
  · rw [hself]
    refine Quiet.append (h.quiet.grow fun i hi => emit_marks (h.ids i hi)) fun i hi => ?_
    rw [List.mem_singleton.mp hi]
    exact ⟨rfl, emit_marks_self s .op⟩

theorem ops (h : Base n st L s) (c : Nat) : Base n st L (s.ops c) := by
  induction c generalizing s with
  | zero => exact h
  | succ c ih => exact ih h.emit

theorem own (h : Base n st L s) : Own n st L s s s := by
  have hn := h.nextBlock
  have hblock : ∀ b, n ≤ b → b < s.nextBlock → b = n := fun b h₁ h₂ => by omega
  have hf : (s.bbs n).f = s.func.f := congrArg Prod.fst h.tag
  refine ⟨h, .refl s, rfl, ?_, le_refl _, fun b h₁ h₂ => ?_, fun k b hk => ?_, fun a b ha => ?_,
    fun a => ?_, fun _ _ => rfl, fun _ _ => rfl, fun g b hb => ?_, fun _ _ => rfl,
      ⟨[], h.layout⟩, h.tag,
    List.prefix_refl _, fun b h₁ h₂ a i hget => ?_, fun b h₁ h₂ i hi hk => ?_, fun i hi => ?_,
    .inl h.nextBB⟩
  · rw [h.insert]
    omega
  · rw [hblock b h₁ h₂, hf]
  · rw [h.find] at hk
    split at hk
    next heq =>
      obtain rfl := Option.some.inj hk
      exact ⟨le_refl _, by omega, heq ▸ congrArg (fun x : FnId × Option Nat × Bool => x.2.1) h.tag⟩
    next => cases hk
  · unfold State.ubbs at ha
    rw [h.ubbMap] at ha
    cases ha
  · rw [h.ubbMap]
    exact nofun
  · by_cases hg : g = s.func.f
    · rw [hg, h.layout] at hb
      rcases List.mem_append.mp hb with hb | hb
      · have := h.before b hb
        omega
      · rw [List.mem_singleton.mp hb]
        omega
    · have := h.others g hg b hb
      omega
  · rw [hblock b h₁ h₂, h.map] at hget
    cases hget
  · rw [hblock b h₁ h₂] at hi
    rw [(h.quiet i hi).1] at hk
    cases hk
  · rw [h.indBrs] at hi
    cases hi

end Base

theorem ops_func (s : State) (c : Nat) : (s.ops c).func = s.func := by
  induction c generalizing s with
  | zero => rfl
  | succ c ih => exact ih (s.emit .op)

theorem ops_layout (s : State) (c : Nat) : (s.ops c).layout = s.layout := by
  induction c generalizing s with
  | zero => rfl
  | succ c ih => exact ih (s.emit .op)

theorem start_layout (s : State) (f : FnId) (st prologue : Nat) (g : FnId) :
    ((s.newFunction f).start st prologue).layout g =
      if g = f then s.layout f ++ [s.nextBlock] else s.layout g := by
  refine (congrFun (ops_layout (((s.newFunction f).newBB st none).2.setInsertBlock s.nextBlock)
    prologue) g).trans ?_
  show Function.update s.layout f (s.layout f ++ [s.nextBlock]) g = _
  rw [Function.update_apply]

theorem start_func (s : State) (f : FnId) (st prologue : Nat) :
    ((s.newFunction f).start st prologue).func.f = f :=
  congrArg Function.f (ops_func (((s.newFunction f).newBB st none).2.setInsertBlock s.nextBlock)
    prologue)

theorem start_base {f : FnId} (hlaid : ∀ g, ∀ b ∈ s.layout g, b < s.nextBlock) (prologue : Nat) :
    Base s.nextBlock st (s.layout f) ((s.newFunction f).start st prologue) := by
  have hlay : ∀ g, (((s.newFunction f).newBB st none).2.setInsertBlock s.nextBlock).layout g =
      if g = f then s.layout f ++ [s.nextBlock] else s.layout g := start_layout s f st 0
  have hnew : (((s.newFunction f).newBB st none).2.setInsertBlock s.nextBlock).bbs s.nextBlock =
      {f := f, addr := some st} := newBB_bbs_self (s.newFunction f) st none
  have hbase : Base s.nextBlock st (s.layout f)
      (((s.newFunction f).newBB st none).2.setInsertBlock s.nextBlock) := by
    refine ⟨rfl, rfl, newBB_find (s.newFunction f) st none, rfl, ?_, ?_, ?_, ?_,
      rfl, rfl, rfl, ?_, hlaid f, fun g hg b hb => ?_⟩
    · rw [hnew]
      rfl
    · rw [hnew]
      simp
    · rw [hnew]
      exact .nil
    · rw [hnew]
    · exact (hlay f).trans (if_pos rfl)
    · rw [hlay, if_neg (by exact hg)] at hb
      exact hlaid g b hb
  exact hbase.ops prologue

theorem Reach.le {body : Nat → Inst} {s₀ : State} (h : Reach opts body st s₀ addr s) :
    st ≤ addr := by
  induction h with
  | start => exact le_refl _
  | turn _ _ ih => omega

/-- **Every state of the loop.** -/
theorem Reach.own {body : Nat → Inst} (hb : Base n st L s₁) (h : Reach opts body st s₁ addr s) :
    Own n st L s₁ s s := by
  induction h with
  | start => exact hb.own
  | turn before run ih => exact (ih.translateInstr before.le run).1

end RiscvSbt.Block
