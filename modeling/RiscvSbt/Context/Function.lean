import RiscvSbt.Context.Erased

/-! The translation of one function, and how often its prologue runs.

A function is translated by the steps from the one that enters it to the one that ends it
(`Turns`). The code of `start` and the first instruction share the entry block, and a branch or
a jump back to the first instruction gets just that block. -/
namespace RiscvSbt.Context
open Library Block State

/-- In the loop of a function, that goes on. -/
def Turning (c : Config) : Prop := ∃ l, c.loop = some l ∧ l.addr < l.stop ∧ ¬ Cuts c.s l

/-- Steps inside of a function. -/
def Turns (p : Program) : Config → Config → Prop := Run (Config.step p) Turning

/-- The LLVM function of a function that is entered next has no blocks. -/
def Unfilled (c : Config) : Prop :=
  Vacant c ∧ ∀ F todo, c.loop = none → c.todo = F :: todo → c.s.blk.layout (c.s.fnOf F.name) = []

/-- In a function that has ended, the prologue of `pr` instructions runs once, before the
instruction at `st`: it is what the entry block `n` of the LLVM function begins with, and no
branch goes there. -/
structure Once (n st pr : Nat) (t : State) : Prop where
  find : t.blk.findBB st = some n
  entry : (t.blk.layout t.blk.func.f).head? = some n
  prologue : ∃ q m i r, (t.blk.bbs n).insts = q ++ m ++ i :: r ∧
    q.map Block.Instr.kind = List.replicate pr .op ∧ Quiet t.blk (q ++ m) ∧
    t.blk.marks i.id = some st
  branches : ∀ b, b < t.blk.nextBlock → ∀ i ∈ (t.blk.bbs b).insts,
    n ∉ i.kind.succs ∧ (i.kind = .indBr → n ∉ t.dests i.id)

variable {p : Program} {s t : State} {l l' : Loop} {c c' : Config} {body : Nat → Inst}
  {s₀ : Block.State} {f : FnId} {pr : Nat}

/-- **Entering a function.** -/
theorem Step.enters (hf : Fresh p c) (hb : Between p Linked c) (hs : Step p c c')
    (hl : c'.loop = some l) (hfirst : l.addr = l.st) :
    ∃ body s₀ f pr, Running p c'.s l body s₀ f pr ∧ Linked s₀ c'.s.dests ∧
      c'.s.blk.pending = s₀.pending ∧ (Unfilled c → s₀.layout f = []) := by
  have hpend : ∀ {s : State} {o : Nat} {obj : Obj}, Entered p s o obj c'.s l →
      c'.s.blk.pending = s.blk.pending := fun h => by
    rw [h.blk]
    exact (start_kept _ _ _ _).2.2.2.1
  cases hs with
  | @turn l₁ loop lt stays next keeps =>
    obtain rfl := Option.some.inj (next.symm.trans hl)
    obtain ⟨body, s₀, f, pr, hr⟩ := hf.run l₁ loop
    have := hr.le
    have hfirst : l₁.addr + 4 = l₁.st := hfirst
    omega
  | leave loop le next =>
    rw [next] at hl
    cases hl
  | @cut l₁ l₂ o obj s loop cuts registered known blk dests fnOf next st entered =>
    obtain rfl := Option.some.inj (next.symm.trans hl)
    obtain ⟨body, s₀, f, pr, hr, hlinked⟩ := hb.2 l₁ loop
    refine ⟨_, _, _, _, entered.running, ?_, hpend entered, fun hu => ?_⟩
    · rw [entered.dests, blk, dests]
      exact hr.finish_linked hlinked
    · obtain ⟨old, hold, hname⟩ := known
      rw [blk, finish_layout, fnOf, ← hname, hu.1 l₁ o old loop cuts registered hold]
      rfl
  | @enter l₁ o obj s loop named fnOf blk dests next entered =>
    obtain rfl := Option.some.inj (next.symm.trans hl)
    refine ⟨_, _, _, _, entered.running, ?_, hpend entered, fun hu => ?_⟩
    · rw [entered.dests, blk, dests]
      exact hb.1 loop
    · obtain ⟨F, todo, htodo, hname⟩ := named
      rw [blk, fnOf, hname]
      exact hu.2 F todo loop htodo
  | idle loop next =>
    rw [next] at hl
    cases hl

/-- **Inside of a function.** -/
theorem Turns.running (hp : p.Aligned) (hf : Fresh p c) (hl : c.loop = some l)
    (hr : Running p c.s l body s₀ f pr) (h : Turns p c c') :
    Fresh p c' ∧ c'.s.dests = c.s.dests ∧ ∃ l', c'.loop = some l' ∧ l'.st = l.st ∧
      Running p c'.s l' body s₀ f pr := by
  unfold Turns at h
  induction h with
  | start => exact ⟨hf, rfl, l, hl, rfl, hr⟩
  | step _ hgood hs ih =>
    obtain ⟨hfresh, hdests, l', hl', hst, hr'⟩ := ih
    obtain ⟨l₁, hl₁, hlt, hno⟩ := hgood
    obtain rfl := Option.some.inj (hl'.symm.trans hl₁)
    have hclean : Clean _ := fun l₂ hl₂ hcuts => by
      obtain rfl := Option.some.inj (hl'.symm.trans hl₂)
      exact absurd hcuts hno
    obtain ⟨hstep, hfresh'⟩ := hfresh.step hp hclean hs
    have hloop : ∀ {l₂}, _ = some l₂ → l₂ = l' := fun h₂ => Option.some.inj (h₂.symm.trans hl')
    cases hstep with
    | @turn l₂ loop lt stays next keeps dests =>
      obtain rfl := hloop loop
      exact ⟨hfresh', dests.trans hdests, _, next, hst, (keeps _ _ _ _ hr').2⟩
    | @leave l₂ loop le =>
      obtain rfl := hloop loop
      exact absurd hlt (Nat.not_lt.mpr le)
    | @cut l₂ l₃ o obj s loop cuts =>
      obtain rfl := hloop loop
      exact absurd cuts hno
    | enter loop =>
      rw [hl'] at loop
      cases loop
    | idle loop =>
      rw [hl'] at loop
      cases loop

/-- **A function of a run**, from where it is entered. -/
theorem Config.Reach.entered {good : Config → Prop} {pending : Map Nat PendingReloc}
    {sections : String → List Constant} {c₀ c₁ : Config} {l₀ : Loop} (hp : p.Aligned)
    (hclean : ∀ c, Fresh p c → good c → Clean c) (h : Config.Reach p good pending sections c₀)
    (hgood : good c₀) (hs : c₀.step p = .ok c₁) (hl₀ : c₁.loop = some l₀) (hfirst : l₀.addr = l₀.st)
    (hrun : Turns p c₁ c) (hl : c.loop = some l) :
    ∃ body s₀ f pr, Fresh p c ∧ Running p c₁.s l₀ body s₀ f pr ∧ Running p c.s l body s₀ f pr ∧
      Linked s₀ c.s.dests ∧ c₁.s.blk.pending = s₀.pending ∧ (Unfilled c₀ → s₀.layout f = []) := by
  have hf₀ := h.fresh hp hclean
  obtain ⟨hstep, hf₁⟩ := hf₀.step hp (hclean c₀ hf₀ hgood) hs
  have hb := h.between hp hclean (linked_keeps p) Linked.init
  obtain ⟨body, s₀, f, pr, hr₁, hlinked, hpend, hempty⟩ := hstep.enters hf₀ hb hl₀ hfirst
  obtain ⟨hfresh, hdests, l', hl', -, hr⟩ := hrun.running hp hf₁ hl₀ hr₁
  obtain rfl := Option.some.inj (hl'.symm.trans hl)
  exact ⟨body, s₀, f, pr, hfresh, hr₁, hr, hdests ▸ hlinked, hpend, hempty⟩

namespace Running

/-- The block of the first instruction is the one that `start` has made. -/
theorem find_entry (h : Running p s l body s₀ f pr) : s.blk.findBB l.st = some s₀.nextBlock := by
  obtain ⟨main, key, hinv, -⟩ := h.inv
  rcases hinv.heap.owned s₀.nextBlock (le_refl _) h.own.lt_nextBlock with ⟨k, hk⟩ | ⟨a, ha⟩
  · have haddr := (h.own.tracked k _ hk).2.2
    rw [h.own.head_addr] at haddr
    rw [Option.some.inj haddr]
    exact hk
  · have haddr := (h.own.helper a _ ha).2.2
    rw [h.own.head_addr] at haddr
    cases haddr

/-- The block that serves a label is found at the label. -/
theorem served_find (h : Running p s l body s₀ f pr) {b k : Nat} (hb : b ∈ s.blk.func.indBBs)
    (ha : (s.blk.bbs b).addr = some k) : s.blk.findBB k = some b := by
  obtain ⟨main, key, hinv, -⟩ := h.inv
  obtain ⟨hn, hlt, -⟩ := h.labelled.blocks b hb
  rcases hinv.heap.owned b hn hlt with ⟨c, hc⟩ | ⟨a, hmem⟩
  · have haddr := (h.own.tracked c b hc).2.2
    rw [ha] at haddr
    rw [Option.some.inj haddr]
    exact hc
  · have hnone := (h.own.helper a b hmem).2.2
    rw [ha] at hnone
    cases hnone

/-- The first guest instruction of a block is the one at its address. -/
theorem first_code (h : Running p s l body s₀ f pr) {k b : Nat} (hb : s.blk.findBB k = some b)
    (hlt : k < l.addr) : ∃ q i r, (s.blk.bbs b).insts = q ++ i :: r ∧ Quiet s.blk q ∧
      s.blk.marks i.id = some k := by
  obtain ⟨main, key, hinv, -⟩ := h.inv
  obtain ⟨w, e, hpre, hcode, -, -, -, -, hor⟩ := hinv.covered.block k b hb
  have hlt' : k < e := by omega
  obtain ⟨q, i, bottom, rfl, hi, hstr, hq, -⟩ := hcode.cut (le_refl _) hlt' rfl
  obtain ⟨r, hr⟩ := hpre
  refine ⟨q, i, bottom ++ r, ?_, hq.unmarked hstr, hi⟩
  rw [← hr, List.append_assoc]
  rfl

/-- The entry block begins with the prologue, and goes on with the first instruction. -/
theorem entry_code (h : Running p s l body s₀ f pr) (hlt : l.st < l.addr) :
    ∃ q m i r, (s.blk.bbs s₀.nextBlock).insts = q ++ m ++ i :: r ∧
      q.map Block.Instr.kind = List.replicate pr .op ∧ Quiet s.blk (q ++ m) ∧
      s.blk.marks i.id = some l.st := by
  obtain ⟨top, i, r, hins, htop, hi⟩ := h.first_code h.find_entry hlt
  -- The prologue has no marks, so it is all before the first one.
  obtain ⟨q', hq'⟩ := h.own.pre
  have hquiet : ∀ j ∈ (((s₀.newFunction f).start l.st pr).bbs s₀.nextBlock).insts,
      s.blk.marks j.id = none := fun j hj => by
    rw [h.own.marks _ (h.own.base.ids j hj)]
    exact (h.own.base.quiet j hj).2
  generalize hq : (((s₀.newFunction f).start l.st pr).bbs s₀.nextBlock).insts = q at *
  rw [← hq'] at hins
  obtain ⟨m, rfl⟩ : ∃ m, top = q ++ m := by
    rcases List.append_eq_append_iff.mp hins with ⟨m, htop, -⟩ | ⟨m, hqm, hm⟩
    · exact ⟨m, htop⟩
    · cases m with
      | nil => exact ⟨[], by rw [hqm, List.append_nil, List.append_nil]⟩
      | cons j m =>
        obtain ⟨rfl, -⟩ := List.cons.inj hm
        have hnone := hquiet i (by rw [hqm]; simp)
        rw [hi] at hnone
        cases hnone
  refine ⟨q, m, i, r, ?_, ?_, htop, hi⟩
  · rw [← hq', hins]
  · rw [← hq]
    exact (start_kept s₀ f l.st pr).2.2.2.2.2

section Ends
variable (h : Running p s l body s₀ f pr) (hlt : l.st < l.addr)
include h hlt

/-- **A prologue that runs once.** -/
theorem once (hs : Linked s₀ s.dests) (hempty : s₀.layout f = [])
    (htgt : ∀ a, l.st ≤ a → a < l.addr → a % 4 = 0 → (body a).act.target? ≠ some l.st)
    (hlab : s₀.pending.get? l.st = none ∨
      ∀ a, l.st ≤ a → a < l.addr → a % 4 = 0 → (body a).act ≠ .ijump) :
    Once s₀.nextBlock l.st pr (s.finish p) := by
  obtain ⟨main, key, hinv, ha⟩ := h.inv
  obtain ⟨w, hw, hk⟩ := returned_appends p s
  have hfind := h.find_entry
  have hbbs : ∀ b, (s.finish p).blk.bbs b = (s.returned p).bbs b := fun b => by rw [finish_blk]
  refine ⟨?_, ?_, ?_, fun b hb i hi => ⟨fun hx => ?_, fun hki hx => ?_⟩⟩
  · unfold State.findBB
    rw [finish_func]
    exact hfind
  · obtain ⟨rest, hrest⟩ := h.own.entry
    rw [start_func, hempty] at hrest
    rw [finish_func, h.func_f, finish_layout, hrest, List.nil_append, List.filter_cons_of_pos]
    · rfl
    · refine decide_eq_true fun he => ?_
      obtain ⟨-, k, hle, hk, -⟩ := h.erased_iff.mp he
      obtain rfl := hinv.heap.find_inj hfind hk
      omega
  · obtain ⟨q, m, i, r, hins, hq, hquiet, hi⟩ := h.entry_code hlt
    obtain ⟨x, hx, -⟩ := finish_insts p s s₀.nextBlock
    have hids : ∀ j ∈ (s.blk.bbs s₀.nextBlock).insts, j.id < s.blk.nextInstr :=
      hinv.heap.ids _ (le_refl _) h.own.lt_nextBlock
    rw [hins] at hids
    refine ⟨q, m, i, r ++ x, ?_, hq, hquiet.grow fun j hj => ?_, ?_⟩
    · rw [hx, hins, List.append_assoc (q ++ m)]
      rfl
    · exact finish_marks p s (hids j (List.mem_append_left _ hj))
    · rw [finish_marks p s (hids i (List.mem_append_right _ List.mem_cons_self))]
      exact hi
  · rw [finish_nextBlock] at hb
    rw [hbbs] at hi
    rcases hw.insts hi with hi | hi
    · by_cases hn : b < s₀.nextBlock
      · rw [h.bbs hn] at hi
        exact lt_irrefl _ (hs.succs b hn i hi _ hx).1
      · rcases (hinv.origin ha (Nat.not_lt.mp hn) hb i hi).succ hx with ⟨c, hc⟩ | ⟨c, hc, hor⟩
        · exact hinv.heap.find_ubbs hfind hc
        · obtain rfl := hinv.heap.find_inj hfind hc
          rcases hor with ⟨a, h₁, h₂, h₃, h₄⟩ | ⟨a, tgt, h₁, h₂, h₃, h₄, h₅⟩ | hrange
          · exact htgt a h₁ h₂ h₃ h₄
          · omega
          · exact lt_irrefl _ hrange.1
    · rw [(ending_kinds (hk ▸ List.mem_map_of_mem hi)).1] at hx
      cases hx
  · rw [finish_nextBlock] at hb
    rw [hbbs] at hi
    have hold : s₀.nextBlock ∉ s.dests i.id := fun hx => lt_irrefl _ (hs.bound _ _ hx)
    rw [finish_dests] at hx
    split at hx
    next hbr =>
      rcases List.mem_append.mp hx with hx | hx
      · exact hold hx
      · have hi := (hw.insts hi).resolve_right fun hi =>
          (ending_kinds (hk ▸ List.mem_map_of_mem hi)).2 hki
        have hn : ¬ b < s₀.nextBlock := fun hn => by
          rw [h.bbs hn] at hi
          have := hs.ids b hn i hi
          have := (h.own.noted _ hbr).1
          have := (start_kept s₀ f l.st pr).2.1
          omega
        obtain ⟨-, -, k, hp, hk, hk'⟩ := h.labelled.blocks _ hx
        rw [h.own.head_addr] at hk'
        obtain rfl := Option.some.inj hk'
        rw [(start_kept s₀ f l.st pr).2.2.2.1] at hk
        have horigin := hinv.origin ha (Nat.not_lt.mp hn) hb i hi
        rw [hki] at horigin
        obtain ⟨a, h₁, h₂, h₃, h₄⟩ := horigin.ijump
        exact hlab.resolve_left hk a h₁ h₂ h₃ h₄
    next => exact hold hx

/-- Otherwise the entry block is branched to. -/
theorem not_once {n : Nat} (ho : Once n l.st pr (s.finish p)) :
    (∀ a, l.st ≤ a → a < l.addr → a % 4 = 0 → (body a).act.target? ≠ some l.st) ∧
      (s₀.pending.get? l.st = none ∨
        ∀ a, l.st ≤ a → a < l.addr → a % 4 = 0 → (body a).act ≠ .ijump) := by
  have hfind := h.find_entry
  obtain rfl : s₀.nextBlock = n := by
    have hn := ho.find
    unfold State.findBB at hn
    rw [finish_func] at hn
    exact Option.some.inj (hfind.symm.trans hn)
  refine ⟨fun a h₁ h₂ h₃ h₄ => ?_, ?_⟩
  · obtain ⟨b, -, hb, i, -, hi, ht⟩ := h.finish_ending h₁ h₂ h₃ (Act.stays_target h₄)
    exact (ho.branches b (by rw [finish_nextBlock]; exact hb) i hi).1 (ht.target h₄ hfind)
  · by_contra hno
    obtain ⟨hpend, hij⟩ := not_or.mp hno
    refine hij fun a h₁ h₂ h₃ h₄ => ?_
    obtain ⟨b, hn, hb, i, hi, hi', ht⟩ := h.finish_ending h₁ h₂ h₃ (by rw [h₄]; rfl)
    have hki := ht.indirect h₄
    obtain ⟨x, hx, haddr⟩ := h.labelled.served l.st ⟨le_refl _, hlt, rfl⟩ (by
      rw [(start_kept s₀ f l.st pr).2.2.2.1]
      exact hpend)
    refine (ho.branches b (by rw [finish_nextBlock]; exact hb) i hi').2 hki ?_
    rw [finish_dests, if_pos (h.own.indirect b hn hb i hi hki)]
    obtain rfl := Option.some.inj (h.find_entry.symm.trans (h.served_find hx haddr))
    exact List.mem_append_right _ hx

end Ends
end Running

/-- **When a prologue runs once.** From where a function is entered to any point where it may
end, in a run in which every function that is cut keeps its branches and jumps to itself and
every function that is entered has an empty LLVM function: no branch or jump goes back to the
first instruction, and if that has a label, there is no indirect jump. -/
theorem prologue_once (p : Program) (pending : Map Nat PendingReloc)
    (sections : String → List Constant) (hp : p.Aligned) (c₀ c₁ c : Config)
    (h : Config.Reach p (fun c => Apart p c ∧ Unfilled c) pending sections c₀)
    (hgood : Apart p c₀ ∧ Unfilled c₀) (hs : c₀.step p = .ok c₁) (l₀ : Loop)
    (hl₀ : c₁.loop = some l₀) (hfirst : l₀.addr = l₀.st) (obj : Obj)
    (hobj : c₁.s.objs c₁.s.cur = some obj) (hrun : Turns p c₁ c) (l : Loop)
    (hl : c.loop = some l) (hlt : l.st < l.addr) :
    (∃ n, Once n l.st (p.prologueOf obj.name) (c.s.finish p)) ↔
      (∀ a, l.st ≤ a → a < l.addr → a % 4 = 0 →
        (p.body obj.sec a).act.target? ≠ some l.st) ∧
      (c₁.s.blk.pending.get? l.st = none ∨
        ∀ a, l.st ≤ a → a < l.addr → a % 4 = 0 → (p.body obj.sec a).act ≠ .ijump) := by
  obtain ⟨body, s₀, f, pr, -, hr₁, hr, hlinked, hpend, hempty⟩ :=
    h.entered hp (fun _ hf hg => hf.clean hg.1) hgood hs hl₀ hfirst hrun hl
  obtain ⟨rfl, -, rfl, -⟩ := hr₁.obj obj hobj
  rw [hpend]
  constructor
  · rintro ⟨n, ho⟩
    exact hr.not_once hlt ho
  · rintro ⟨htgt, hlab⟩
    exact ⟨_, hr.once hlt hlinked (hempty hgood.2) htgt hlab⟩

def Config.turning (c : Config) : Bool :=
  match c.loop with
  | some l => l.addr < l.stop && !c.cutting
  | none => false

theorem turns_of {i j : Nat} {c₀ c₁ c : Config} (hi : iterate (Config.step p) i c₀ = .ok c₁)
    (hij : i ≤ j) (h : ∀ m, m < j → i ≤ m → c₀.checks p m Config.turning = true)
    (hj : iterate (Config.step p) j c₀ = .ok c) : Turns p c₁ c := by
  induction j generalizing c with
  | zero =>
    obtain rfl : i = 0 := by omega
    obtain rfl := Except.ok.inj (hi.symm.trans hj)
    exact .start
  | succ j ih =>
    rcases Nat.lt_or_eq_of_le hij with hlt | rfl
    · rw [iterate_succ] at hj
      obtain ⟨d, hd, hs⟩ := bind_ok hj
      have hle : i ≤ j := by omega
      refine .step (ih hle (fun m hm => h m (by omega)) hd) ?_ hs
      obtain ⟨d', hd', hturn⟩ := checks_spec (h j (Nat.lt_succ_self j) hle)
      obtain rfl := Except.ok.inj (hd.symm.trans hd')
      unfold Config.turning at hturn
      cases hl : d.loop with
      | none =>
        rw [hl] at hturn
        cases hturn
      | some l =>
        rw [hl] at hturn
        obtain ⟨hlt, hcut⟩ := (Bool.and_eq_true_iff.mp hturn : _ ∧ _)
        exact ⟨l, hl, of_decide_eq_true hlt, not_cuts ((Bool.not_eq_true' _).mp hcut) hl⟩
    · obtain rfl := Except.ok.inj (hi.symm.trans hj)
      exact .start

/-- A function of four instructions, whose third one branches. -/
def loopProgram (tgt : Nat) (h : tgt % 4 = 0) : Program where
  sections := [{
    size := 16
    symbols := [{name := "a", addr := 0}]
    inst := fun
      | 8 => .branch 1 tgt h
      | 12 => .ret 0
      | _ => .straight 1 }]
  prologue := 2

theorem loop_aligned (tgt : Nat) (h : tgt % 4 = 0) : (loopProgram tgt h).Aligned := by
  intro sec hsec sym hsym _
  obtain rfl := List.mem_singleton.mp hsec
  obtain rfl := List.mem_singleton.mp hsym
  rfl

/-- The run of `loopProgram` up to where its function is entered. -/
theorem loop_enters (tgt : Nat) (h : tgt % 4 = 0) : ∃ c₀ c₁ : Config,
    iterate (Config.step (loopProgram tgt h)) 2 (Config.init Map.empty fun _ => []) = .ok c₁ ∧
      Config.Reach (loopProgram tgt h) (fun c => Apart (loopProgram tgt h) c ∧ Unfilled c) Map.empty
        (fun _ => []) c₀ ∧
      (Apart (loopProgram tgt h) c₀ ∧ Unfilled c₀) ∧ c₀.step (loopProgram tgt h) = .ok c₁ ∧
      c₁.loop = some ⟨0, 16, 0⟩ ∧ c₁.s.blk.pending.get? 0 = none ∧
      ∃ obj, c₁.s.objs c₁.s.cur = some obj ∧ obj.name = "a" ∧ obj.sec = 0 := by
  have hgood : ∀ d : Config, d.cutting = false →
      (∀ F todo, d.todo = F :: todo → d.s.blk.layout (d.s.fnOf F.name) = []) →
      Apart (loopProgram tgt h) d ∧ Unfilled d := fun d h₁ h₂ =>
    ⟨(uncut h₁).1, (uncut (p := loopProgram tgt h) h₁).2, fun F todo _ => h₂ F todo⟩
  have hrun : ∃ c₀ c₁, iterate (Config.step (loopProgram tgt h)) 1
    (Config.init Map.empty fun _ => []) =
      .ok c₀ ∧ c₀.todo = [⟨"a", 0, 16⟩] ∧ c₀.cutting = false ∧
      c₀.s.blk.layout (c₀.s.fnOf "a") = [] ∧ c₀.step (loopProgram tgt h) = .ok c₁ ∧
      c₁.loop = some ⟨0, 16, 0⟩ ∧ c₁.s.blk.pending.get? 0 = none ∧
      (c₁.s.objs c₁.s.cur).map (fun obj => (obj.name, obj.sec)) = some ("a", 0) :=
    ⟨_, _, rfl, rfl, rfl, rfl, rfl, rfl, rfl, rfl⟩
  obtain ⟨c₀, c₁, hc₀, htodo, hcut, hlay, hs, hl, hpend, hobj⟩ := hrun
  obtain ⟨obj, hobj, heq⟩ := Option.map_eq_some_iff.mp hobj
  obtain ⟨hname, hsec⟩ := Prod.mk.inj heq
  refine ⟨c₀, c₁, ?_, Run.start.iterate 1 (fun m hm d hd => ?_) hc₀,
    hgood c₀ hcut fun F todo hF => ?_,
    hs, hl, hpend, obj, hobj, hname, hsec⟩
  · rw [iterate_succ, hc₀]
    exact hs
  · obtain rfl : m = 0 := by omega
    obtain rfl := Except.ok.inj hd
    exact hgood _ rfl nofun
  · obtain ⟨rfl, -⟩ := List.cons.inj (htodo.symm.trans hF)
    exact hlay

theorem loop_once : ∃ c : Config, c.loop = some ⟨0, 16, 16⟩ ∧
    ∃ n, Once n 0 2 (c.s.finish (loopProgram 4 rfl)) := by
  obtain ⟨c₀, c₁, hc₁, hreach, hgood, hs, hl₁, hpend, obj, hobj, hname, hsec⟩ := loop_enters 4 rfl
  obtain ⟨c, hc, hl⟩ := checks_spec (P := fun c => c.loop = some ⟨0, 16, 16⟩)
    (show (Config.init Map.empty fun _ => []).checks (loopProgram 4 rfl)
      6 _ = true by decide +kernel)
  have hl := of_decide_eq_true hl
  have honce := (prologue_once (loopProgram 4 rfl) Map.empty (fun _ => [])
    (loop_aligned 4 rfl) c₀ c₁ c
    hreach hgood hs _ hl₁ rfl obj hobj (turns_of hc₁ (by decide) (by decide +kernel) hc) _ hl
    (by decide)).mpr
  rw [hname, hsec] at honce
  refine ⟨c, hl, honce ⟨fun a _ h₂ h₃ => ?_, .inl hpend⟩⟩
  have h₂ : a < 16 := h₂
  obtain rfl | rfl | rfl | rfl : a = 0 ∨ a = 4 ∨ a = 8 ∨ a = 12 := by omega
  · nofun
  · nofun
  · exact fun he => absurd (Option.some.inj he) (by decide)
  · nofun

/-- A branch back to the first instruction gets the entry block, and runs the prologue again. -/
theorem prologue_again : ∃ c₀ c₁ c : Config,
    Config.Reach (loopProgram 0 rfl) (fun c => Apart (loopProgram 0 rfl) c ∧ Unfilled c) Map.empty
      (fun _ => []) c₀ ∧ c₀.step (loopProgram 0 rfl) = .ok c₁ ∧ c₁.loop = some ⟨0, 16, 0⟩ ∧
      Turns (loopProgram 0 rfl) c₁ c ∧ c.loop = some ⟨0, 16, 16⟩ ∧
      ((c.s.finish (loopProgram 0 rfl)).blk.bbs 0).insts = [⟨0, .op⟩, ⟨1, .op⟩, ⟨2, .op⟩, ⟨3, .op⟩,
        ⟨4, .op⟩, ⟨5, .condBr (.guest 8) 0 1⟩] ∧
      ¬ ∃ n, Once n 0 2 (c.s.finish (loopProgram 0 rfl)) := by
  obtain ⟨c₀, c₁, hc₁, hreach, hgood, hs, hl₁, hpend, obj, hobj, hname, hsec⟩ := loop_enters 0 rfl
  obtain ⟨c, hc, hP⟩ := checks_spec (P := fun c => c.loop = some ⟨0, 16, 16⟩ ∧
      ((c.s.finish (loopProgram 0 rfl)).blk.bbs 0).insts = [⟨0, .op⟩, ⟨1, .op⟩, ⟨2, .op⟩, ⟨3, .op⟩,
        ⟨4, .op⟩, ⟨5, .condBr (.guest 8) 0 1⟩] ∧
      (c.s.finish (loopProgram 0 rfl)).blk.findBB 0 = some 0 ∧
      0 < (c.s.finish (loopProgram 0 rfl)).blk.nextBlock)
    (show (Config.init Map.empty fun _ => []).checks (loopProgram 0 rfl)
      6 _ = true by decide +kernel)
  obtain ⟨hl, hinsts, hfind, hlt⟩ := of_decide_eq_true hP
  refine ⟨c₀, c₁, c, hreach, hs, hl₁, turns_of hc₁ (by decide) (by decide +kernel) hc, hl, hinsts,
    fun ⟨n, ho⟩ => ?_⟩
  obtain rfl := Option.some.inj (hfind.symm.trans ho.find)
  refine (ho.branches 0 hlt ⟨5, .condBr (.guest 8) 0 1⟩ ?_).1 ?_
  · rw [hinsts]
    simp
  · simp [Kind.succs]

end RiscvSbt.Context
