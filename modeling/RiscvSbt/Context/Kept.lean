import RiscvSbt.Context.Linked

/-! Functions that have ended.

Once a function has ended, the rest of the run leaves its blocks, their instructions and the
destinations of its indirect branches as they are (`Kept`). -/
namespace RiscvSbt.Context
open Library Block State

/-- What there was in `u`, where indirect branches had the destinations `d`, is still there. -/
structure Kept (u : Block.State) (d : Nat → List Nat) (t : Block.State) (e : Nat → List Nat) :
    Prop where
  nextBlock : u.nextBlock ≤ t.nextBlock
  nextInstr : u.nextInstr ≤ t.nextInstr
  bbs : ∀ b, b < u.nextBlock → t.bbs b = u.bbs b
  marks : ∀ i, i < u.nextInstr → t.marks i = u.marks i
  dests : ∀ i, i < u.nextInstr → e i = d i

variable {p : Program} {s : State} {l : Loop} {c c' : Config} {body : Nat → Inst}
  {s₀ : Block.State} {f : FnId} {pr : Nat} {u t : Block.State} {d e : Nat → List Nat}

theorem Kept.refl (u : Block.State) (d : Nat → List Nat) : Kept u d u d :=
  ⟨le_refl _, le_refl _, fun _ _ => rfl, fun _ _ => rfl, fun _ _ => rfl⟩

/-- In the middle of a later function. -/
theorem Running.kept (h : Running p s l body s₀ f pr) (hk : Kept u d s₀ e) :
    Kept u d s.blk e := by
  refine ⟨le_trans hk.nextBlock (le_of_lt h.own.lt_nextBlock), le_trans hk.nextInstr h.nextInstr,
    fun b hb => ?_, fun i hi => ?_, hk.dests⟩
  · exact (h.bbs (lt_of_lt_of_le hb hk.nextBlock)).trans (hk.bbs b hb)
  · have hi₀ := lt_of_lt_of_le hi hk.nextInstr
    obtain ⟨-, hnext, hmarks, -⟩ := start_kept s₀ f l.st pr
    rw [h.own.marks i (lt_of_lt_of_le hi₀ hnext), hmarks i hi₀]
    exact hk.marks i hi

/-- The end of a function adds to its own blocks and branches. -/
theorem kept_keeps (p : Program) (u : Block.State) (d : Nat → List Nat) : Keeps p (Kept u d) := by
  refine ⟨fun _ _ _ h => ⟨h.nextBlock, h.nextInstr, h.bbs, h.marks, h.dests⟩,
    fun _ _ _ _ h => ⟨h.nextBlock, h.nextInstr, h.bbs, h.marks, h.dests⟩,
    fun s l body s₀ f pr h hk => ?_⟩
  obtain ⟨m, hm, -⟩ := returned_appends p s
  have hs := h.kept hk
  rw [finish_blk]
  refine ⟨hm.nextBlock ▸ hs.nextBlock, le_trans hs.nextInstr hm.nextInstr, fun b hb => ?_,
    fun i hi => ?_, fun i hi => ?_⟩
  · have hne : b ≠ s.blk.bld.insertBlock := by
      have := h.own.insert.1
      have := hk.nextBlock
      omega
    exact (hm.other b hne).trans (hs.bbs b hb)
  · exact (hm.marks i (lt_of_lt_of_le hi hs.nextInstr)).trans (hs.marks i hi)
  · have hold : i ∉ s.blk.func.indBrs := fun hbr => by
      have := (h.own.noted i hbr).1
      have := (start_kept s₀ f l.st pr).2.1
      have := hk.nextInstr
      omega
    rw [finish_dests, if_neg hold]
    exact hs.dests i hi

/-- Also while a later function is being translated. -/
theorem Between.kept (h : Between p (Kept u d) c) : Kept u d c.s.blk c.s.dests := by
  cases hl : c.loop with
  | none => exact h.1 hl
  | some l =>
    obtain ⟨body, s₀, f, pr, hr, hk⟩ := h.2 l hl
    exact hr.kept hk

/-- **The step that ends a function.** -/
theorem Step.ended {I : Block.State → (Nat → List Nat) → Prop} (hs : Step p c c')
    (hl : c.loop = some l) (hend : Cuts c.s l ∨ l.stop ≤ l.addr)
    (h : I (c.s.finish p).blk (c.s.finish p).dests) : Between p I c' := by
  have hloop : ∀ {l₁}, c.loop = some l₁ → l₁ = l := fun h₁ => Option.some.inj (h₁.symm.trans hl)
  cases hs with
  | turn loop lt stays =>
    obtain rfl := hloop loop
    exact absurd hend (not_or.mpr ⟨stays, Nat.not_le.mpr lt⟩)
  | leave loop le next blk dests =>
    refine ⟨fun _ => ?_, fun l₂ hl₂ => ?_⟩
    · rw [blk, dests]
      exact h
    · rw [next] at hl₂
      cases hl₂
  | cut loop cuts registered known blk dests fnOf next st entered =>
    refine ⟨fun hn => ?_, fun l₂ hl₂ => ?_⟩
    · rw [next] at hn
      cases hn
    · rw [next] at hl₂
      obtain rfl := Option.some.inj hl₂
      refine ⟨_, _, _, _, entered.running, ?_⟩
      rw [entered.dests, blk, dests]
      exact h
  | enter loop =>
    rw [hl] at loop
    cases loop
  | idle loop =>
    rw [hl] at loop
    cases loop

/-- **The rest of a run.** -/
theorem Fresh.ended {good : Config → Prop} (hp : p.Aligned)
    (hgood : ∀ c, Fresh p c → good c → Clean c) (hf : Fresh p c) (hl : c.loop = some l)
    (hend : Cuts c.s l ∨ l.stop ≤ l.addr) (hrun : Run (Config.step p) good c c') :
    c' = c ∨ Kept (c.s.finish p).blk (c.s.finish p).dests c'.s.blk c'.s.dests := by
  rcases hrun.head with rfl | ⟨v, hg, hs, hv⟩
  · exact .inl rfl
  obtain ⟨hstep, hfv⟩ := hf.step hp (hgood c hf hg) hs
  have hb : Between p (Kept (c.s.finish p).blk (c.s.finish p).dests) v :=
    hstep.ended hl hend (.refl _ _)
  exact .inr (Between.run hp hgood (kept_keeps p _ _) hfv hb hv).2.kept

end RiscvSbt.Context
