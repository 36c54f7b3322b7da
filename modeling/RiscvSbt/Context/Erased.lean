import RiscvSbt.Context.Kept

/-! The block that the end of a function removes.

It is the last one by address if that is empty: a block made for a branch or a jump that ends
the range or goes past it. Whether something still needs the block is seen in the code of the
range (`Contained`). -/
namespace RiscvSbt.Context
open Library Block State

/-- Nothing branches to a block when the function ends, and it is not handed over. -/
structure Unused (p : Program) (s : State) (l : Loop) (b : Nat) : Prop where
  succs : ∀ b', b' < s.blk.nextBlock → ∀ i ∈ ((s.finish p).blk.bbs b').insts, b ∉ i.kind.succs
  dests : ∀ i, b ∉ (s.finish p).dests i
  moved : Cuts s l → ∀ dst blocks moved,
    State.transferBBs (s.finish p).blk.func l.addr dst = .ok (blocks, moved) →
      ∀ k, moved.bbMap.get? k ≠ some b

/-- The block removed at the end of a function is unused, and in the steps that follow nothing
is put into it. -/
def Spared (p : Program) (good : Config → Prop) (c : Config) (l : Loop) : Prop :=
  ∀ b, c.s.erased p = some b → Unused p c.s l b ∧
    ∀ c', Run (Config.step p) good c c' → (c'.s.blk.bbs b).insts = []

/-- The branches and jumps of a range go to before its end. Its last instruction may be a jump,
if no other function follows in the range. -/
def Program.Contained (p : Program) (sec : Nat) (s : State) (l : Loop) : Prop :=
  ∀ a k, l.st ≤ a → a < l.addr → a % 4 = 0 → (p.body sec a).act.target? = some k →
    k < l.addr ∧ (a + 4 = l.addr → ¬ Cuts s l ∧ (p.body sec a).act = .jump k)

variable {p : Program} {s t : State} {l l' : Loop} {c c' : Config} {body : Nat → Inst}
  {s₀ : Block.State} {f : FnId} {pr b : Nat}

/-- The block that a function ends in is not empty. -/
theorem returned_insert (p : Program) (s : State) :
    ((s.returned p).bbs s.blk.bld.insertBlock).insts ≠ [] := by
  obtain ⟨m, hm, hk⟩ := returned_appends p s
  rw [hm.self]
  intro hnil
  obtain ⟨hempty, rfl⟩ := List.append_eq_nil_iff.mp hnil
  unfold State.ending at hk
  split at hk
  next hterm =>
    unfold BasicBlock.terminated at hterm
    rw [hempty] at hterm
    cases hterm
  next =>
    split at hk
    · cases hk
    · simp at hk

namespace Running

/-- **What is removed.** -/
theorem erased_iff (h : Running p s l body s₀ f pr) : s.erased p = some b ↔ l.st < l.addr ∧
    ∃ k, l.addr ≤ k ∧ s.blk.findBB k = some b ∧ ∀ c, HasBB s.blk c → c ≤ k := by
  obtain ⟨main, key, hinv, ha⟩ := h.inv
  obtain ⟨m, hm, -⟩ := returned_appends p s
  have hmap : (s.returned p).func.bbMap = s.blk.func.bbMap := by rw [hm.func]
  unfold State.erased
  rw [hmap]
  constructor
  · intro he
    cases hlast : s.blk.func.bbMap.data.getLast? with
    | none =>
      rw [hlast] at he
      cases he
    | some i =>
      obtain ⟨k, b'⟩ := i
      rw [hlast] at he
      dsimp only at he
      split at he
      next hnil =>
        obtain rfl := Option.some.inj he
        obtain ⟨hget, hmax⟩ := Map.highest hlast
        have hold : (s.blk.bbs b').insts = [] := by
          by_cases hb : b' = s.blk.bld.insertBlock
          · rw [hb, hm.self] at hnil
            rw [hb]
            exact (List.append_eq_nil_iff.mp hnil).1
          · rwa [hm.other b' hb] at hnil
        have hle : l.addr ≤ k := by
          by_contra hlt
          exact hinv.filled hget (Nat.not_le.mp hlt) hold
        refine ⟨lt_of_le_of_ne h.le fun heq => ?_, k, hle, hget, fun c ⟨x, hx⟩ => hmax c x hx⟩
        -- Nothing is translated: the block is the entry, that the function ends in.
        have hk : k = l.addr := by
          rcases Nat.lt_or_eq_of_le hle with hlt | heq
          · obtain ⟨a, h₁, h₂, -⟩ := (ha.keys k hlt).mp ⟨b', hget⟩
            omega
          · exact heq.symm
        have hkey : key = l.addr := by
          have := (hinv.bounds key ⟨main, hinv.key⟩).1
          rcases hinv.start with hlt | ⟨hk, -⟩ <;> omega
        have hmain : main = b' := Option.some.inj
          ((hkey.trans hk.symm ▸ hinv.key).symm.trans hget)
        rcases hinv.insert with hi | ⟨a, -, hmem⟩
        · rw [← hmain, ← hi] at hnil
          exact returned_insert p s hnil
        · have := (hinv.helpers a _ hmem).1
          have := (hinv.helpers a _ hmem).2.1
          omega
      next => cases he
  · rintro ⟨hst, k, hle, hb, hmax⟩
    obtain ⟨⟨k', b'⟩, hlast⟩ := Map.exists_highest hb
    obtain ⟨hget, hmax'⟩ := Map.highest hlast
    obtain rfl : k' = k := le_antisymm (hmax k' ⟨b', hget⟩) (hmax' k b hb)
    obtain rfl : b' = b := Option.some.inj (hget.symm.trans hb)
    obtain ⟨hnil, hne⟩ := hinv.blank hst hb hle
    rw [hlast]
    dsimp only
    rw [hm.other b' hne, hnil, if_pos rfl]

/-- An instruction of the range that ends its block is still there. -/
theorem finish_ending (h : Running p s l body s₀ f pr) {a : Nat} (h₁ : l.st ≤ a) (h₂ : a < l.addr)
    (h₃ : a % 4 = 0) (hs : (body a).act.stays p.opts = false) :
    ∃ b', s₀.nextBlock ≤ b' ∧ b' < s.blk.nextBlock ∧ ∃ i ∈ (s.blk.bbs b').insts,
      i ∈ ((s.finish p).blk.bbs b').insts ∧ Term p.opts body s.blk a i.kind := by
  obtain ⟨main, key, hinv, -⟩ := h.inv
  obtain ⟨b', hn, hlt, i, hi, ht⟩ := hinv.ending h₁ h₂ h₃ hs
  obtain ⟨x, hx, -⟩ := finish_insts p s b'
  refine ⟨b', hn, hlt, i, hi, ?_, ht⟩
  rw [hx]
  exact List.mem_append_left _ hi

section Ranges
variable (h : Running p s l body s₀ f pr)
include h

/-- Behind a range that keeps its branches to itself there is at most the block that its last
jump has made. -/
theorem unused (hs : Linked s₀ s.dests)
    (hcont : ∀ a k, l.st ≤ a → a < l.addr → a % 4 = 0 → (body a).act.target? = some k →
      k < l.addr ∧ (a + 4 = l.addr → ¬ Cuts s l ∧ (body a).act = .jump k))
    (he : s.erased p = some b) : Unused p s l b ∧ ¬ Cuts s l := by
  obtain ⟨hst, K, hle, hb, -⟩ := h.erased_iff.mp he
  obtain ⟨main, key, hinv, ha⟩ := h.inv
  obtain ⟨hn, hlt, haddr⟩ := h.own.tracked K b hb
  obtain ⟨m, hm, hk⟩ := returned_appends p s
  have hno : ¬ Targeted body l.st l.addr l.addr := fun ⟨a, h₁, h₂, h₃, h₄⟩ =>
    lt_irrefl _ (hcont a _ h₁ h₂ h₃ h₄).1
  obtain ⟨rfl, a, h₁, h₂, h₃, h₄, h₅⟩ : K = l.addr ∧ ∃ a, l.st ≤ a ∧ a < l.addr ∧ a % 4 = 0 ∧
      a + 4 = l.addr ∧ (body a).act.target?.isSome := by
    rcases Nat.lt_or_eq_of_le hle with hlt | rfl
    · obtain ⟨a, h₁, h₂, h₃, h₄⟩ := (ha.keys K hlt).mp ⟨b, hb⟩
      exact absurd (hcont a K h₁ h₂ h₃ h₄).1 (Nat.not_lt.mpr hle)
    · rcases ha.here.mp ⟨b, hb⟩ with heq | ⟨a, h₁, h₂, h₃, h₄ | ⟨h₄, h₅⟩⟩
      · omega
      · exact absurd ⟨a, h₁, h₂, h₃, h₄⟩ hno
      · exact ⟨rfl, a, h₁, h₂, h₃, h₄, h₅⟩
  obtain ⟨k, hk'⟩ := Option.isSome_iff_exists.mp h₅
  have hcut := ((hcont a k h₁ h₂ h₃ hk').2 h₄).1
  refine ⟨⟨fun b' hb' i hi hx => ?_, fun i hx => ?_, fun hc => absurd hc hcut⟩, hcut⟩
  · rw [finish_blk] at hi
    rcases hm.insts hi with hi | hi
    · by_cases hn' : b' < s₀.nextBlock
      · rw [h.bbs hn'] at hi
        have := (hs.succs b' hn' i hi b hx).1
        omega
      · rcases (hinv.origin ha (Nat.not_lt.mp hn') hb' i hi).succ hx with ⟨c, hc⟩ | ⟨c, hc, hor⟩
        · exact hinv.heap.find_ubbs hb hc
        · obtain rfl := hinv.heap.find_inj hb hc
          rcases hor with htgt | ⟨c, tgt, g₁, g₂, g₃, g₄, g₅⟩ | hrange
          · exact hno htgt
          · have hact := ((hcont c tgt g₁ g₂ g₃ (by rw [g₄]; rfl)).2 g₅).2
            rw [g₄] at hact
            cases hact
          · exact lt_irrefl _ hrange.2
    · rw [(ending_kinds (hk ▸ List.mem_map_of_mem hi)).1] at hx
      cases hx
  · rw [finish_dests] at hx
    have hold : b ∉ s.dests i := fun hx => by
      have := hs.bound i b hx
      omega
    split at hx
    · rcases List.mem_append.mp hx with hx | hx
      · exact hold hx
      · obtain ⟨-, -, k', hp, -, hk'⟩ := h.labelled.blocks b hx
        have := Option.some.inj (haddr.symm.trans hk')
        have := hp.2.1
        omega
    · exact hold hx

/-- A block behind the range that is removed was needed, or is handed over. -/
theorem contained (hun : ∀ b, s.erased p = some b → Unused p s l b) {a k : Nat} (h₁ : l.st ≤ a)
    (h₂ : a < l.addr) (h₃ : a % 4 = 0) (h₄ : (body a).act.target? = some k) :
    k < l.addr ∧ (a + 4 = l.addr → ¬ Cuts s l ∧ (body a).act = .jump k) := by
  by_contra hno
  obtain ⟨main, key, hinv, ha⟩ := h.inv
  -- Some block is behind the range, and the last one of them is removed.
  obtain ⟨x, hx, b₀, hb₀⟩ : ∃ x, l.addr ≤ x ∧ HasBB s.blk x := by
    by_cases hlt : k < l.addr
    · by_cases heq : a + 4 = l.addr
      · exact ⟨l.addr, le_refl _, ha.here.mpr (.inr ⟨a, h₁, h₂, h₃, .inr ⟨heq, by rw [h₄]; rfl⟩⟩)⟩
      · exact absurd ⟨hlt, fun h => absurd h heq⟩ hno
    · exact ⟨k, Nat.not_lt.mp hlt, ha.has (Nat.not_lt.mp hlt) ⟨a, h₁, h₂, h₃, h₄⟩⟩
  obtain ⟨⟨K, b⟩, hlast⟩ := Map.exists_highest hb₀
  obtain ⟨hb, hmax⟩ := Map.highest hlast
  have hle : l.addr ≤ K := le_trans hx (hmax x b₀ hb₀)
  have hunused := hun b (h.erased_iff.mpr ⟨lt_of_le_of_lt h₁ h₂, K, hle, hb,
    fun c ⟨y, hy⟩ => hmax c y hy⟩)
  have huse : ∀ c, l.st ≤ c → c < l.addr → c % 4 = 0 → (body c).act.target?.isSome →
      (∀ kind, Term p.opts body s.blk c kind → b ∈ kind.succs) → False := by
    intro c g₁ g₂ g₃ g₄ hterm
    obtain ⟨tgt, htgt⟩ := Option.isSome_iff_exists.mp g₄
    obtain ⟨b', -, hlt, i, -, hi, ht⟩ := h.finish_ending g₁ g₂ g₃ (Act.stays_target htgt)
    exact hunused.succs b' hlt i hi (hterm _ ht)
  have hntgt : ¬ Targeted body l.st l.addr K := fun ⟨c, g₁, g₂, g₃, g₄⟩ =>
    huse c g₁ g₂ g₃ (by rw [g₄]; rfl) fun _ ht => ht.target g₄ hb
  have hcut : ¬ Cuts s l := by
    intro hc
    refine hunused.moved hc {f := 0} _ _ rfl K ?_
    show (((s.finish p).blk.func.bbMap.suffix l.addr)).get? K = some b
    rw [finish_func, Map.get?_suffix, if_pos hle]
    exact hb
  obtain rfl : l.addr = K := by
    rcases Nat.lt_or_eq_of_le hle with hlt | heq
    · exact absurd ((ha.keys K hlt).mp ⟨b, hb⟩) hntgt
    · exact heq
  have hlt : k < l.addr := by
    by_contra hge
    obtain ⟨y, hy⟩ := ha.has (Nat.not_lt.mp hge) ⟨a, h₁, h₂, h₃, h₄⟩
    obtain rfl : k = l.addr := le_antisymm (hmax k y hy) (Nat.not_lt.mp hge)
    exact hntgt ⟨a, h₁, h₂, h₃, h₄⟩
  refine hno ⟨hlt, fun heq => ⟨hcut, ?_⟩⟩
  cases hact : (body a).act with
  | jump tgt =>
    rw [hact] at h₄
    rw [Option.some.inj h₄]
  | branch tgt =>
    exact absurd (fun _ ht => ht.fall hact (heq ▸ hb)) (huse a h₁ h₂ h₃ (by rw [hact]; rfl))
  | _ =>
    rw [hact] at h₄
    cases h₄

end Ranges
end Running

/-! ### Afterwards -/

/-- A block that is empty when its function ends stays empty. -/
theorem Fresh.stays_empty {good : Config → Prop} (hp : p.Aligned)
    (hgood : ∀ c, Fresh p c → good c → Clean c) (hf : Fresh p c) (hl : c.loop = some l)
    (hend : Cuts c.s l ∨ l.stop ≤ l.addr) (hb : b < c.s.blk.nextBlock)
    (hne : b ≠ c.s.blk.bld.insertBlock) (hnil : (c.s.blk.bbs b).insts = [])
    (hrun : Run (Config.step p) good c c') : (c'.s.blk.bbs b).insts = [] := by
  rcases hf.ended hp hgood hl hend hrun with rfl | hkept
  · exact hnil
  · obtain ⟨m, hm, -⟩ := returned_appends p c.s
    rw [hkept.bbs b (by rw [finish_nextBlock]; exact hb), finish_blk]
    show ((c.s.returned p).bbs b).insts = []
    rw [hm.other b hne]
    exact hnil

/-- **When the block that is removed is spared.** In a run in which every function that is cut
keeps its branches and jumps to itself, this is so at the end of a function if the branches and
jumps of its range go to before the end, and the last instruction is no branch, and no jump if
the function is cut; otherwise something needs the block. -/
theorem erased_spared (p : Program) (pending : Map Nat PendingReloc)
    (sections : String → List Constant) (hp : p.Aligned) (c : Config)
    (h : Config.Reach p (Apart p) pending sections c) (l : Loop) (obj : Obj)
    (hl : c.loop = some l) (hend : Cuts c.s l ∨ l.stop ≤ l.addr)
    (hobj : c.s.objs c.s.cur = some obj) :
    Spared p (Apart p) c l ↔ p.Contained obj.sec c.s l := by
  have hclean : ∀ c, Fresh p c → Apart p c → Clean c := fun _ hf => hf.clean
  have hfresh := h.fresh hp hclean
  obtain ⟨body, s₀, f, pr, hr, hs⟩ := (h.between hp hclean (linked_keeps p) Linked.init).2 l hl
  have hbody := (hr.obj obj hobj).1
  subst hbody
  constructor
  · intro hspared a k h₁ h₂ h₃ h₄
    exact hr.contained (fun b hb => (hspared b hb).1) h₁ h₂ h₃ h₄
  · intro hcont b he
    obtain ⟨hunused, hcut⟩ := hr.unused hs hcont he
    refine ⟨hunused, fun c' hrun => ?_⟩
    obtain ⟨hst, k, hle, hb, -⟩ := hr.erased_iff.mp he
    obtain ⟨main, key, hinv, -⟩ := hr.inv
    obtain ⟨hnil, hne⟩ := hinv.blank hst hb hle
    exact hfresh.stays_empty hp hclean hl hend (hr.own.tracked k b hb).2.1 hne hnil hrun

/-- A loop without an end. -/
def spinProgram : Program where
  sections := [{
    size := 8
    symbols := [{name := "a", addr := 0}]
    inst := fun
      | 4 => ⟨1, .jump 0, fun _ h => by cases h; rfl⟩
      | _ => .straight 1 }]

theorem spin_spared : ∃ c : Config, c.loop = some ⟨0, 8, 8⟩ ∧ c.s.erased spinProgram = some 1 ∧
    Spared spinProgram (Apart spinProgram) c ⟨0, 8, 8⟩ := by
  have hrun : ∃ c, iterate (Config.step spinProgram) 4 (Config.init Map.empty fun _ => []) = .ok c ∧
      c.loop = some ⟨0, 8, 8⟩ ∧ c.s.erased spinProgram = some 1 ∧
      (c.s.objs c.s.cur).map Obj.sec = some 0 := ⟨_, rfl, rfl, rfl, rfl⟩
  obtain ⟨c, hc, hl, he, hsec⟩ := hrun
  obtain ⟨obj, hobj, hsec⟩ := Option.map_eq_some_iff.mp hsec
  have hreach : Config.Reach spinProgram (fun c => c.cutting = false) Map.empty (fun _ => []) c :=
    reach_uncut (by decide +kernel) hc
  have haligned : spinProgram.Aligned := by
    intro sec hsec sym hsym _
    obtain rfl := List.mem_singleton.mp hsec
    obtain rfl := List.mem_singleton.mp hsym
    rfl
  refine ⟨c, hl, he, (erased_spared spinProgram Map.empty (fun _ => []) haligned c
    (hreach.mono fun _ h => (uncut h).1) ⟨0, 8, 8⟩ obj hl (.inr (le_refl 8)) hobj).mpr ?_⟩
  rw [hsec]
  intro a k _ h₂ h₃ h₄
  obtain rfl | rfl : a = 0 ∨ a = 4 := by
    have h₂ : a < 8 := h₂
    omega
  · cases h₄
  · cases h₄
    exact ⟨by decide, fun _ => ⟨fun hcuts => absurd hcuts.1 (lt_irrefl _), rfl⟩⟩

/-- A function that ends with a branch: the block of the next instruction is removed. -/
def fallProgram : Program where
  sections := [{
    size := 8
    symbols := [{name := "a", addr := 0}]
    inst := fun a => if a = 4 then .branch 1 0 rfl else .straight 1 }]

theorem block_erased : ∃ c : Config,
    Config.Reach fallProgram (Apart fallProgram) Map.empty (fun _ => []) c ∧
      c.loop = some ⟨0, 8, 8⟩ ∧ c.s.erased fallProgram = some 1 ∧
      ((c.s.finish fallProgram).blk.bbs 0).insts.map Block.Instr.kind =
        [.op, .op, .condBr (.guest 4) 0 1] ∧
      ¬ Spared fallProgram (Apart fallProgram) c ⟨0, 8, 8⟩ := by
  have hrun : ∃ c, iterate (Config.step fallProgram) 4 (Config.init Map.empty fun _ => []) = .ok c ∧
      c.loop = some ⟨0, 8, 8⟩ ∧ c.s.erased fallProgram = some 1 ∧ 0 < c.s.blk.nextBlock ∧
      ((c.s.finish fallProgram).blk.bbs 0).insts = [⟨0, .op⟩, ⟨1, .op⟩,
        ⟨2, .condBr (.guest 4) 0 1⟩] :=
    ⟨_, rfl, rfl, rfl, by decide, rfl⟩
  obtain ⟨c, hc, hl, he, hlt, hinsts⟩ := hrun
  have hreach : Config.Reach fallProgram (fun c => c.cutting = false) Map.empty (fun _ => []) c :=
    reach_uncut (by decide +kernel) hc
  refine ⟨c, hreach.mono fun _ h => (uncut h).1, hl, he, by rw [hinsts]; rfl, fun h => ?_⟩
  refine (h 1 he).1.succs 0 hlt ⟨2, .condBr (.guest 4) 0 1⟩ ?_ ?_
  · rw [hinsts]
    simp
  · simp [Kind.succs]

end RiscvSbt.Context
