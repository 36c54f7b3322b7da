import RiscvSbt.Context.Fresh

/-! Who owns the blocks after a switch.

A function that is cut hands the blocks at the cut and behind to the next one, although they
were made in its own LLVM function. Nothing goes wrong as long as there are none, which is
when its branches and jumps stay before the cut (`Within`). -/
namespace RiscvSbt.Context
open Library Block State

/-- Branches connect blocks of the same LLVM function. -/
structure Linked (s : Block.State) (dests : Nat → List Nat) : Prop where
  ids : ∀ b, b < s.nextBlock → ∀ i ∈ (s.bbs b).insts, i.id < s.nextInstr
  succs : ∀ b, b < s.nextBlock → ∀ i ∈ (s.bbs b).insts, ∀ x ∈ i.kind.succs,
    x < s.nextBlock ∧ (s.bbs x).f = (s.bbs b).f
  indirect : ∀ b, b < s.nextBlock → ∀ i ∈ (s.bbs b).insts, i.kind = .indBr →
    ∀ x ∈ dests i.id, x < s.nextBlock ∧ (s.bbs x).f = (s.bbs b).f
  bound : ∀ i, ∀ x ∈ dests i, x < s.nextBlock
  /-- Instructions to come have no destinations yet. -/
  later : ∀ i, s.nextInstr ≤ i → dests i = []

/-- The branches and jumps of a range go to before its end, and none is its last instruction. -/
def Program.Within (p : Program) (sec : Nat) (l : Loop) : Prop :=
  ∀ a k, l.st ≤ a → a < l.addr → a % 4 = 0 → (p.body sec a).act.target? = some k →
    k < l.addr ∧ a + 4 < l.addr

/-- The function that is cut, if one is, keeps its branches and jumps to itself. -/
def Apart (p : Program) (c : Config) : Prop :=
  ∀ l obj, c.loop = some l → Cuts c.s l → c.s.objs c.s.cur = some obj → p.Within obj.sec l

/-- The LLVM function of the function that is switched to has no blocks. -/
def Vacant (c : Config) : Prop :=
  ∀ l o next, c.loop = some l → Cuts c.s l → c.s.funcByAddr.get? l.addr = some o →
    c.s.objs o = some next → c.s.blk.layout (c.s.fnOf next.name) = []

/-- What a switch to the function at `st` makes of the blocks. -/
structure Switched (s t : State) (st : Nat) : Prop where
  own : ∀ k b, t.blk.findBB k = some b → (t.blk.bbs b).f = t.blk.func.f
  first : ∃ b, t.blk.findBB st = some b ∧ (t.blk.layout t.blk.func.f).head? = some b
  /-- No block is lost, and none is in both maps. -/
  maps : ∃ obj, t.objs s.cur = some obj ∧
    (∀ k b, s.blk.findBB k = some b →
      obj.blocks.bbMap.get? k = some b ∨ t.blk.findBB k = some b) ∧
    ∀ k k' b, obj.blocks.bbMap.get? k = some b → t.blk.findBB k' ≠ some b

variable {p : Program} {s t : State} {l l' : Loop} {c c' : Config} {body : Nat → Inst}
  {s₀ : Block.State} {f : FnId} {pr : Nat} {d : Nat → List Nat}

namespace Running

/-- Blocks at the cut or behind are there for branches and jumps. -/
theorem within (h : Running p s l body s₀ f pr) (hne : l.addr ≠ l.st) :
    (∀ k b, s.blk.findBB k = some b → k < l.addr) ↔
      ∀ a k, l.st ≤ a → a < l.addr → a % 4 = 0 → (body a).act.target? = some k →
        k < l.addr ∧ a + 4 < l.addr := by
  obtain ⟨main, key, hinv, ha⟩ := h.inv
  have hmod := hinv.aligned
  constructor
  · intro hkeys a k h₁ h₂ h₃ h₄
    have hno : ∀ k, HasBB s.blk k → k < l.addr := fun k ⟨b, hb⟩ => hkeys k b hb
    refine ⟨?_, ?_⟩
    · by_contra hlt
      rcases Nat.lt_or_eq_of_le (Nat.not_lt.mp hlt) with hlt' | heq
      · exact hlt (hno k ((ha.keys k hlt').mpr ⟨a, h₁, h₂, h₃, h₄⟩))
      · exact absurd (hno l.addr (ha.here.mpr (.inr ⟨a, h₁, h₂, h₃, .inl (heq ▸ h₄)⟩)))
          (lt_irrefl _)
    · by_contra hlt
      have heq : a + 4 = l.addr := by omega
      have hhere := ha.here.mpr (.inr ⟨a, h₁, h₂, h₃, .inr ⟨heq, by rw [h₄]; rfl⟩⟩)
      exact absurd (hno l.addr hhere) (lt_irrefl _)
  · intro hall k b hb
    by_contra hlt
    rcases Nat.lt_or_eq_of_le (Nat.not_lt.mp hlt) with hlt' | heq
    · obtain ⟨a, h₁, h₂, h₃, h₄⟩ := (ha.keys k hlt').mp ⟨b, hb⟩
      exact hlt (hall a k h₁ h₂ h₃ h₄).1
    · subst heq
      rcases ha.here.mp ⟨b, hb⟩ with heq | ⟨a, h₁, h₂, h₃, h₄ | ⟨h₄, h₅⟩⟩
      · exact hne heq
      · exact hlt (hall a _ h₁ h₂ h₃ h₄).1
      · obtain ⟨k, hk⟩ := Option.isSome_iff_exists.mp h₅
        have := (hall a k h₁ h₂ h₃ hk).2
        omega

/-- A block of the function is one that its maps lead to. -/
theorem succ_own (h : Running p s l body s₀ f pr) {b x : Nat} (hn : s₀.nextBlock ≤ b)
    (hlt : b < s.blk.nextBlock) {i : Block.Instr} (hi : i ∈ (s.blk.bbs b).insts)
    (hx : x ∈ i.kind.succs) : s₀.nextBlock ≤ x ∧ x < s.blk.nextBlock := by
  obtain ⟨main, key, hinv, ha⟩ := h.inv
  rcases (hinv.origin ha hn hlt i hi).succ hx with ⟨a, hxa⟩ | ⟨k, hk, -⟩
  · exact ⟨(h.own.helper a x hxa).1, (h.own.helper a x hxa).2.1⟩
  · exact ⟨(h.own.tracked k x hk).1, (h.own.tracked k x hk).2.1⟩

/-- In the middle of a function. -/
theorem linked (h : Running p s l body s₀ f pr) (hs : Linked s₀ d) : Linked s.blk d := by
  obtain ⟨main, key, hinv, -⟩ := h.inv
  have hnext := h.nextInstr
  have hlt₀ := h.own.lt_nextBlock
  refine ⟨fun b hb i hi => ?_, fun b hb i hi x hx => ?_, fun b hb i hi hk x hx => ?_,
    fun i x hx => lt_trans (hs.bound i x hx) hlt₀, fun i hi => hs.later i (le_trans hnext hi)⟩
  · by_cases hn : b < s₀.nextBlock
    · rw [h.bbs hn] at hi
      exact lt_of_lt_of_le (hs.ids b hn i hi) hnext
    · exact hinv.heap.ids b (Nat.not_lt.mp hn) hb i hi
  · by_cases hn : b < s₀.nextBlock
    · rw [h.bbs hn] at hi ⊢
      obtain ⟨hlt, hf⟩ := hs.succs b hn i hi x hx
      exact ⟨lt_trans hlt hlt₀, by rw [h.bbs hlt, hf]⟩
    · obtain ⟨hxn, hxlt⟩ := h.succ_own (Nat.not_lt.mp hn) hb hi hx
      exact ⟨hxlt, (h.own.own x hxn hxlt).trans (h.own.own b (Nat.not_lt.mp hn) hb).symm⟩
  · by_cases hn : b < s₀.nextBlock
    · rw [h.bbs hn] at hi ⊢
      obtain ⟨hlt, hf⟩ := hs.indirect b hn i hi hk x hx
      exact ⟨lt_trans hlt hlt₀, by rw [h.bbs hlt, hf]⟩
    · have hnoted := h.own.noted i.id (h.own.indirect b (Nat.not_lt.mp hn) hb i hi hk)
      rw [hs.later i.id (le_trans (start_kept s₀ f l.st pr).2.1 hnoted.1)] at hx
      cases hx

/-- At the end of a function, where indirect branches get their destinations. -/
theorem finish_linked (h : Running p s l body s₀ f pr) (hs : Linked s₀ s.dests) :
    Linked (s.finish p).blk (s.finish p).dests := by
  have hmid := h.linked hs
  obtain ⟨m, hm, hk⟩ := returned_appends p s
  have hkinds : ∀ i ∈ m, i.kind.succs = [] ∧ i.kind ≠ .indBr := fun i hi =>
    ending_kinds (hk ▸ List.mem_map_of_mem hi)
  have hf : ∀ b, ((s.returned p).bbs b).f = (s.blk.bbs b).f := fun b => congrArg Prod.fst (hm.tag b)
  rw [finish_blk]
  refine ⟨fun b hb i hi => ?_, fun b hb i hi x hx => ?_, fun b hb i hi hki x hx => ?_,
    fun i x hx => ?_, fun i hi => ?_⟩
  · rcases hm.insts hi with hi | hi
    · exact lt_of_lt_of_le (hmid.ids b (hm.nextBlock ▸ hb) i hi) hm.nextInstr
    · exact (hm.fresh i hi).2.1
  · rcases hm.insts hi with hi | hi
    · obtain ⟨hlt, heq⟩ := hmid.succs b (hm.nextBlock ▸ hb) i hi x hx
      refine ⟨hm.nextBlock.symm ▸ hlt, ?_⟩
      show ((s.returned p).bbs x).f = ((s.returned p).bbs b).f
      rw [hf, hf, heq]
    · rw [(hkinds i hi).1] at hx
      cases hx
  · have hb' : b < s.blk.nextBlock := hm.nextBlock ▸ hb
    have hi' := (hm.insts hi).resolve_right fun hi => (hkinds i hi).2 hki
    suffices hsuff : x < s.blk.nextBlock ∧ (s.blk.bbs x).f = (s.blk.bbs b).f by
      refine ⟨hm.nextBlock.symm ▸ hsuff.1, ?_⟩
      show ((s.returned p).bbs x).f = ((s.returned p).bbs b).f
      rw [hf, hf, hsuff.2]
    rw [finish_dests] at hx
    split at hx
    next hbr =>
      have hge := (h.own.noted i.id hbr).1
      have hn : ¬ b < s₀.nextBlock := fun hn => by
        rw [h.bbs hn] at hi'
        have := hs.ids b hn i hi'
        have := (start_kept s₀ f l.st pr).2.1
        omega
      rw [hs.later i.id (le_trans (start_kept s₀ f l.st pr).2.1 hge), List.nil_append] at hx
      obtain ⟨hxn, hxlt, -⟩ := h.labelled.blocks x hx
      exact ⟨hxlt, (h.own.own x hxn hxlt).trans (h.own.own b (Nat.not_lt.mp hn) hb').symm⟩
    next => exact hmid.indirect b hb' i hi' hki x hx
  · rw [finish_dests] at hx
    show x < (s.returned p).nextBlock
    rw [hm.nextBlock]
    split at hx
    · rcases List.mem_append.mp hx with hx | hx
      · exact hmid.bound i x hx
      · exact (h.labelled.blocks x hx).2.1
    · exact hmid.bound i x hx
  · have hi : (s.returned p).nextInstr ≤ i := hi
    have hle := le_trans hm.nextInstr hi
    rw [finish_dests, if_neg fun hbr => absurd (h.own.noted i hbr).2 (Nat.not_lt.mpr hle)]
    exact hmid.later i hle

end Running

theorem linked_keeps (p : Program) : Keeps p Linked :=
  ⟨fun _ _ _ h => ⟨h.ids, h.succs, h.indirect, h.bound, h.later⟩,
    fun _ _ _ _ h => ⟨h.ids, h.succs, h.indirect, h.bound, h.later⟩,
    fun _ _ _ _ _ _ h hs => h.finish_linked hs⟩

/-- A function that keeps its branches to itself is cut cleanly. -/
theorem Fresh.clean (h : Fresh p c) (ha : Apart p c) : Clean c := by
  intro l hl hcuts
  obtain ⟨body, s₀, f, pr, hr⟩ := h.run l hl
  obtain ⟨hlt, hne, obj, hobj, hat⟩ := hcuts
  rw [hr.within hne, (hr.obj obj hobj).1]
  exact ha l obj hl ⟨hlt, hne, obj, hobj, hat⟩ hobj

/-- The first state of a function. -/
theorem Entered.base {o : Nat} {obj : Obj} (h : Entered p s o obj t l)
    (hlaid : ∀ g, ∀ b ∈ s.blk.layout g, b < s.blk.nextBlock) :
    Base s.blk.nextBlock l.st (s.blk.layout (s.fnOf obj.name)) t.blk := by
  rw [h.blk]
  exact start_base hlaid _

/-- **A clean switch.** -/
theorem Step.switched (h : Fresh p c) (hs : Step p c c') (hl : c.loop = some l)
    (hcuts : Cuts c.s l) (hclean : Clean c) (hv : Vacant c) (hl' : c'.loop = some l') :
    Switched c.s c'.s l'.st := by
  have hloop : ∀ {l₁}, c.loop = some l₁ → l₁ = l := fun h₁ => Option.some.inj (h₁.symm.trans hl)
  cases hs with
  | @turn l₁ loop lt stays =>
    obtain rfl := hloop loop
    exact absurd hcuts stays
  | @leave l₁ loop le =>
    obtain rfl := hloop loop
    exact absurd hcuts.1 (Nat.not_lt.mpr le)
  | @cut l₁ l₂ o obj s loop cuts registered known blk dests fnOf next st entered left =>
    obtain rfl := hloop loop
    obtain rfl := Option.some.inj (next.symm.trans hl')
    obtain ⟨body, s₀, f, pr, hr⟩ := h.run l₁ hl
    have hlaid : ∀ g, ∀ b ∈ s.blk.layout g, b < s.blk.nextBlock := by
      rw [blk]
      exact finish_laid p h.laid
    have hbase := entered.base hlaid
    have hn : s.blk.nextBlock = c.s.blk.nextBlock := by
      rw [blk, finish_nextBlock]
    refine ⟨fun k b hb => ?_, ⟨s.blk.nextBlock, ?_, ?_⟩, ?_⟩
    · rw [hbase.find] at hb
      split at hb
      · obtain rfl := Option.some.inj hb
        exact congrArg Prod.fst hbase.tag
      · cases hb
    · rw [hbase.find, if_pos rfl]
    · obtain ⟨old, hold, hname⟩ := known
      have hnil : s.blk.layout (s.fnOf obj.name) = [] := by
        rw [blk, finish_layout, fnOf, ← hname, hv l₁ o old hl cuts registered hold]
        rfl
      rw [hbase.layout, hnil]
      rfl
    · obtain ⟨obj', hobj', hmap⟩ := left
      refine ⟨obj', hobj', fun k b hb => .inl ?_, fun k k' b hk hk' => ?_⟩
      · rw [hmap, Map.get?_erase, if_pos (hclean l₁ hl cuts k b hb)]
        exact hb
      · rw [hmap, Map.get?_erase] at hk
        split at hk
        · have hlt := (hr.own.tracked k b hk).2.1
          rw [hbase.find] at hk'
          split at hk'
          · have := Option.some.inj hk'
            omega
          · cases hk'
        · cases hk
  | enter loop =>
    rw [hl] at loop
    cases loop
  | idle loop =>
    rw [hl] at loop
    cases loop

theorem Linked.init {pending : Map Nat PendingReloc} {sections : String → List Constant} :
    Linked (Config.init pending sections).s.blk (Config.init pending sections).s.dests :=
  ⟨fun _ h => (nomatch h), fun _ h => (nomatch h), fun _ h => (nomatch h),
    fun _ _ h => (nomatch h), fun _ _ => rfl⟩

/-- Branches of a run whose cuts are clean connect blocks of one function. -/
theorem Config.Reach.linked {good : Config → Prop} {pending : Map Nat PendingReloc}
    {sections : String → List Constant} (hp : p.Aligned)
    (hgood : ∀ c, Fresh p c → good c → Clean c) (h : Config.Reach p good pending sections c) :
    Linked c.s.blk c.s.dests := by
  obtain ⟨hout, hin⟩ := h.between hp hgood (linked_keeps p) Linked.init
  cases hl : c.loop with
  | none => exact hout hl
  | some l =>
    obtain ⟨body, s₀, f, pr, hr, hs⟩ := hin l hl
    exact hr.linked hs

/-- **Blocks after a switch.** In a run in which every function that is cut keeps its branches
and jumps to itself, and is followed by one with an empty LLVM function, branches connect
blocks of one function, and the next function gets an entry block of its own. -/
theorem blocks_owned (p : Program) (pending : Map Nat PendingReloc)
    (sections : String → List Constant) (hp : p.Aligned) (c : Config)
    (h : Config.Reach p (fun c => Apart p c ∧ Vacant c) pending sections c) :
    Linked c.s.blk c.s.dests ∧ ∀ l c' l', c.loop = some l → Cuts c.s l → Apart p c → Vacant c →
      c.step p = .ok c' → c'.loop = some l' → Switched c.s c'.s l'.st := by
  have hclean : ∀ c, Fresh p c → Apart p c ∧ Vacant c → Clean c := fun c hf hg => hf.clean hg.1
  have hfresh := h.fresh hp hclean
  refine ⟨h.linked hp hclean, fun l c' l' hl hcuts ha hv hs hl' => ?_⟩
  have hc := hfresh.clean ha
  exact (hfresh.step hp hc hs).1.switched hfresh hl hcuts hc hv hl'

/-- Whether the loop is at the next function. -/
def Config.cutting (c : Config) : Bool :=
  match c.loop with
  | some l =>
    l.addr ≠ l.st ∧ (c.s.objs c.s.cur).map (fun obj => c.s.nextFuncAddr obj.sec) = some l.addr
  | none => false

theorem not_cuts (h : c.cutting = false) (hl : c.loop = some l) : ¬ Cuts c.s l := by
  rintro ⟨-, hne, obj, hobj, hat⟩
  unfold Config.cutting at h
  rw [hl] at h
  have hnot := of_decide_eq_false h
  refine hnot ⟨hne, ?_⟩
  rw [hobj, hat]
  rfl

/-- Where no function is cut, nothing is asked. -/
theorem uncut (h : c.cutting = false) : Apart p c ∧ Vacant c :=
  ⟨fun _ _ hl hcuts => absurd hcuts (not_cuts h hl), fun _ _ _ hl hcuts => absurd hcuts
    (not_cuts h hl)⟩

/-- What a check says of the configuration after `n` steps. -/
def Config.checks (p : Program) (n : Nat) (c : Config) (P : Config → Bool) : Bool :=
  (iterate (Config.step p) n c).toOption.any P

theorem checks_spec {n : Nat} {P : Config → Bool} (h : c.checks p n P = true) :
    ∃ d, iterate (Config.step p) n c = .ok d ∧ P d = true := by
  unfold Config.checks at h
  cases hc : iterate (Config.step p) n c with
  | error e =>
    rw [hc] at h
    cases h
  | ok d =>
    rw [hc] at h
    exact ⟨d, rfl, h⟩

/-- A run without cuts. -/
theorem reach_uncut {pending : Map Nat PendingReloc} {sections : String → List Constant} {n : Nat}
    (h : ∀ m, m < n → (Config.init pending sections).checks p m (!·.cutting) = true)
    (hc : iterate (Config.step p) n (Config.init pending sections) = .ok c) :
    Config.Reach p (fun c => c.cutting = false) pending sections c := by
  refine Run.start.iterate n (fun m hm d hd => ?_) hc
  obtain ⟨d', hd', hcut⟩ := checks_spec (h m hm)
  obtain rfl := Except.ok.inj (hd.symm.trans hd')
  exact (Bool.not_eq_true' _).mp hcut

/-- A function that calls its own end. -/
def calledSection : Section where
  size := 12
  symbols := [{name := "a", addr := 0}]
  inst
    | 0 => .call 1 8
    | _ => .ret 1

def calledProgram : Program := {sections := [calledSection]}

theorem called_owned : ∃ c c' : Config, c.loop = some ⟨0, 12, 8⟩ ∧ Cuts c.s ⟨0, 12, 8⟩ ∧
    c.step calledProgram = .ok c' ∧ c'.loop = some ⟨8, 12, 8⟩ ∧ Linked c.s.blk c.s.dests ∧
    Switched c.s c'.s 8 := by
  have hrun : ∃ c c', iterate (Config.step calledProgram) 4 (Config.init Map.empty fun _ => []) =
    .ok c ∧
    c.loop = some ⟨0, 12, 8⟩ ∧ (c.s.objs c.s.cur).map Obj.sec = some 0 ∧
    c.s.nextFuncAddr 0 = 8 ∧ c.s.funcByAddr.get? 8 = some 1 ∧
    (c.s.objs 1).map (fun next => c.s.blk.layout (c.s.fnOf next.name)) = some [] ∧
    c.step calledProgram = .ok c' ∧ c'.loop = some ⟨8, 12, 8⟩ :=
    ⟨_, _, rfl, rfl, rfl, rfl, rfl, rfl, rfl, rfl⟩
  obtain ⟨c, c', hc, hl, hsec, hN, hreg, hlay, hs, hl'⟩ := hrun
  obtain ⟨obj, hobj, hsec⟩ := Option.map_eq_some_iff.mp hsec
  have hcuts : Cuts c.s ⟨0, 12, 8⟩ := ⟨by decide, by decide, obj, hobj, by rw [hsec, hN]⟩
  have hapart : Apart calledProgram c := by
    intro l obj' h₀ _ hobj' a k _ _ _ htgt
    obtain rfl := Option.some.inj (hl.symm.trans h₀)
    obtain rfl := Option.some.inj (hobj.symm.trans hobj')
    rw [hsec] at htgt
    have hnone : ((calledSection.inst a).act.target?) = none := by
      unfold calledSection
      dsimp only
      split <;> rfl
    cases hnone.symm.trans htgt
  have hvacant : Vacant c := by
    intro l o next h₀ _ ho hnext
    obtain rfl := Option.some.inj (hl.symm.trans h₀)
    obtain rfl := Option.some.inj (hreg.symm.trans ho)
    rw [hnext] at hlay
    exact Option.some.inj hlay
  have haligned : calledProgram.Aligned := by
    intro sec hsec sym hsym _
    obtain rfl := List.mem_singleton.mp hsec
    obtain rfl := List.mem_singleton.mp hsym
    rfl
  have hreach : Config.Reach calledProgram (fun c => c.cutting = false) Map.empty (fun _ => []) c :=
    reach_uncut (by decide +kernel) hc
  obtain ⟨hlinked, hsw⟩ := blocks_owned calledProgram Map.empty (fun _ => []) haligned c
    (hreach.mono fun _ => uncut)
  exact ⟨c, c', hl, hcuts, hs, hl', hlinked, hsw _ _ _ hl hcuts hapart hvacant hs hl'⟩

/-- A function with a branch over the start of the next one. -/
def crossedSection : Section where
  size := 16
  symbols := [{name := "a", addr := 0}]
  inst
    | 0 => .call 1 8
    | 4 => ⟨1, .branch 12, fun _ h => by cases h; rfl⟩
    | _ => .ret 1

/-- The function at 8 begins in a block of `a`, and its first branch target is one as well. -/
theorem block_crossed : ∃ c c' : Config,
    Config.Reach {sections := [crossedSection]} (fun _ => True) Map.empty (fun _ => []) c ∧
      c.loop = some ⟨0, 16, 8⟩ ∧ Cuts c.s ⟨0, 16, 8⟩ ∧
      c.step {sections := [crossedSection]} = .ok c' ∧ c'.loop = some ⟨8, 16, 8⟩ ∧
      ¬ Switched c.s c'.s 8 := by
  have hrun : ∃ c c', iterate (Config.step {sections := [crossedSection]}) 4
      (Config.init Map.empty fun _ => []) = .ok c ∧ c.loop = some ⟨0, 16, 8⟩ ∧
      (c.s.objs c.s.cur).map Obj.sec = some 0 ∧ c.s.nextFuncAddr 0 = 8 ∧
      c.step {sections := [crossedSection]} = .ok c' ∧ c'.loop = some ⟨8, 16, 8⟩ ∧
      c'.s.blk.findBB 8 = some 2 ∧ (c'.s.blk.bbs 2).f = 0 ∧ c'.s.blk.func.f = 1 :=
    ⟨_, _, rfl, rfl, rfl, rfl, rfl, rfl, rfl, rfl, rfl⟩
  obtain ⟨c, c', hc, hl, hsec, hN, hs, hl', hb, hf, hg⟩ := hrun
  obtain ⟨obj, hobj, hsec⟩ := Option.map_eq_some_iff.mp hsec
  refine ⟨c, c', Run.start.iterate 4 (fun _ _ _ _ => trivial) hc, hl,
    ⟨by decide, by decide, obj, hobj, by rw [hsec, hN]⟩, hs, hl', fun h => ?_⟩
  have := h.own 8 2 hb
  rw [hf, hg] at this
  cases this

end RiscvSbt.Context
