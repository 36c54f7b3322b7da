import RiscvSbt.Block.Placed
import RiscvSbt.Context.Function
import RiscvSbt.Context.Walk

/-! The end of a range that guest control runs over.

No branch leaves the blocks of a function, and none of them has code from behind the range. So
the instruction behind it is not reached, whatever is there. `finish` closes the block that is
open: what the last instruction falls through to is the return of the function, or
`unreachable` in main. -/
namespace RiscvSbt.Context
open Library Block State

/-- The block `b` has the code of the instruction at `a`, and from there control passes `a`, no
other guest instruction and, at last, instructions of the given kinds, which end the function. -/
def LastAt (t : Block.State) (b a : Nat) (kinds : List Kind) : Prop :=
  ∃ l i r, (t.bbs b).insts = l ++ i :: r ∧ t.marks i.id = some a ∧
    ∀ taken, Leads t a taken (fun m => m.map Block.Instr.kind = kinds ∧
      ∀ j ∈ m, t.marks j.id = none) False (i :: r) [a]

/-- Control may get from the first of some instructions to another one, whatever is tested on
the way. -/
inductive Flows (s : State) : List Block.Instr → Block.Instr → Prop where
  | here {i : Block.Instr} {r : List Block.Instr} : Flows s (i :: r) i
  | next {i j : Block.Instr} {r : List Block.Instr} (kind : i.kind = .op) (rest : Flows s r j) :
      Flows s (i :: r) j
  | branch {i j : Block.Instr} {r : List Block.Instr} {x : Nat} (succ : x ∈ i.kind.succs)
      (rest : Flows s (s.blk.bbs x).insts j) : Flows s (i :: r) j
  | indirect {i j : Block.Instr} {r : List Block.Instr} {x : Nat} (kind : i.kind = .indBr)
      (dest : x ∈ s.dests i.id) (rest : Flows s (s.blk.bbs x).insts j) : Flows s (i :: r) j

/-- From the code of the instruction at `a` in one of the blocks `own`, control may go on with
the code of the one at `a + 4`. -/
def GoesOn (s : State) (own : Nat → Prop) (a : Nat) : Prop :=
  ∃ b l i r j, own b ∧ (s.blk.bbs b).insts = l ++ i :: r ∧ s.blk.marks i.id = some a ∧
    Flows s (i :: r) j ∧ s.blk.marks j.id = some (a + 4)

/-- A block of the function that is being translated. -/
def State.Owns (s : State) (b : Nat) : Prop :=
  (∃ k, s.blk.findBB k = some b) ∨ ∃ a, b ∈ s.blk.ubbs a

variable {p : Program} {s t : State} {l l' : Loop} {c c' : Config} {body : Nat → Inst}
  {s₀ : Block.State} {f : FnId} {pr a : Nat}

namespace Running

/-- What the end of a function does to its blocks. -/
theorem finish_frame (h : Running p s l body s₀ f pr) :
    Frame s₀.nextBlock (· = s.blk.bld.insertBlock) s.blk (s.finish p).blk := by
  obtain ⟨m, hm, -⟩ := returned_appends p s
  obtain ⟨main, key, hinv, -⟩ := h.inv
  rw [finish_blk]
  refine ⟨⟨fun k b hk => ?_, fun c b hb => ?_⟩, fun b _ hne => hm.other b hne,
    le_of_eq hm.nextBlock.symm,
    fun b hn hlt _ i hi => hm.marks _ (hinv.heap.ids b hn hlt i hi)⟩
  · show (s.returned p).func.bbMap.get? k = some b
    rw [hm.func]
    exact hk
  · show b ∈ ((s.returned p).func.ubbMap.get? c).getD []
    rw [hm.func]
    exact hb

/-- **The last instruction of a range.** -/
theorem last (h : Running p s l body s₀ f pr) (ha : a + 4 = l.addr) (hle : l.st ≤ a)
    (hf : (body a).act.falls = true) (ht : (body a).act.target? = none)
    (hopen : (body a).act.leaves p.opts = true → ¬ Open p.opts body l.st s₀.pending a) :
    ∃ k b, s.blk.findBB k = some b ∧ LastAt (s.finish p).blk b a (p.closing s.inMain) := by
  obtain ⟨main, key, hinv, -⟩ := h.inv
  obtain ⟨w, hw, hk⟩ := returned_appends p s
  have hrests := h.reach.rests h.aligned ha hle
  have hframe := h.finish_frame
  have hmod := hinv.aligned
  have hkey := (hinv.bounds key ⟨main, hinv.key⟩).2
  have hka : key ≤ a := by
    rcases hinv.start with hk | ⟨-, hk⟩ <;> omega
  have hcode := hinv.code
  rw [← ha] at hcode
  obtain ⟨top, i, m, hins, hi, -, -, hcode⟩ := hcode.cut hka (by omega) (by omega)
  have hmain := (hinv.heap.tracked key main hinv.key).2.1
  have hids : ∀ j ∈ (s.blk.bbs main).insts, j.id < s.blk.nextInstr :=
    hinv.heap.ids main (hinv.heap.tracked key main hinv.key).1 hmain
  have hmarks : ∀ j ∈ (s.blk.bbs main).insts, (s.finish p).blk.marks j.id = s.blk.marks j.id :=
    fun j hj => finish_marks p s (hids j hj)
  have hmem : i ∈ (s.blk.bbs main).insts := by
    rw [hins]
    simp
  have hi' : (s.finish p).blk.marks i.id = some a := (hmarks i hmem).trans hi
  have hcode' : Code p.opts body (s.finish p).blk a (i :: m) (a + 4) := by
    refine hcode.grow hframe.toGrows fun j hj => hmarks j ?_
    rw [hins]
    exact List.mem_append_right _ hj
  -- Behind what was there, the block that was open holds the end of the function.
  have hself : ((s.finish p).blk.bbs s.blk.bld.insertBlock).insts = s.blk.insertBB.insts ++ w := by
    rw [finish_blk]
    show ((s.returned p).bbs s.blk.bld.insertBlock).insts = _
    rw [hw.self]
  have hquiet : ∀ j ∈ w, (s.finish p).blk.marks j.id = none := fun j hj => by
    rw [finish_blk]
    exact (hw.fresh j hj).2.2
  rcases Act.stays_or_leaves hf ht with hs | hl
  · have hopen := hrests.runs hs
    rw [ending_open hopen] at hk
    have hins' : s.blk.bld.insertBlock = main := by
      refine hinv.insert.resolve_right fun ⟨c, hc, hmem⟩ => ?_
      obtain rfl : c = a := by omega
      rw [Act.stays_of_leaves (hinv.helpers c _ hmem).2.2.2] at hs
      exact nomatch hs
    have hstr : Straight (s.blk.bbs main).insts := by
      by_contra hno
      have hterm := terminator_isSome hno hinv.code
      unfold State.insertBB BasicBlock.terminated at hopen
      rw [hins', hterm] at hopen
      exact nomatch hopen
    rw [hins'] at hself
    have hself : ((s.finish p).blk.bbs main).insts = top ++ i :: (m ++ w) := by
      rw [hself]
      unfold State.insertBB
      rw [hins', hins, List.append_assoc]
      rfl
    refine ⟨key, main, hinv.key, top, i, m ++ w, hself, hi', fun taken => ?_⟩
    refine hcode'.leads_open hi' (fun j hj => hstr j ?_) ⟨hk, hquiet⟩ hs
    rw [hins]
    exact List.mem_append_right _ (List.mem_cons_of_mem _ hj)
  · have hregion := hrests.region hl (hopen hl)
    have hq := hrests.quiet hl (hopen hl)
    have hopen : s.blk.insertBB.terminated = false := by
      unfold BasicBlock.terminated
      rw [hq.straight.terminator]
      rfl
    rw [ending_open hopen] at hk
    have hne : main ≠ s.blk.bld.insertBlock := fun he =>
      hinv.heap.find_ubbs hinv.key (he ▸ hregion.exit)
    refine ⟨key, main, hinv.key, top, i, m, ?_, hi',
      fun taken => hcode'.leads_away hi' hl fun y hy => ?_⟩
    · rw [hframe.bbs main hmain hne]
      exact hins
    · have hub : (s.finish p).blk.ubbs = s.blk.ubbs := by
        unfold State.ubbs
        rw [finish_func]
      have hregion' : Region (s.finish p).blk a s.blk.bld.insertBlock :=
        hregion.frame hframe hinv.heap (fun b hb => by rwa [hub] at hb) fun y _ hne => hne
      refine hregion'.leads (fun y hy => ?_) ?_ hy
      · rw [hub] at hy
        rw [finish_nextBlock]
        exact (hinv.heap.helper a y hy).2.1
      · rw [hself]
        refine .quiet (hq.grow fun j hj => ?_) (.here ⟨hk, hquiet⟩)
        exact finish_marks p s (hinv.heap.ids _ (hinv.heap.helper a _ hregion.exit).1
          (hinv.heap.helper a _ hregion.exit).2.1 j hj)

end Running

/-- Later functions do not change where code leads. -/
theorem kept_leads {u v : Block.State} {d e : Nat → List Nat} {taken : Bool} {stop : Prop}
    {P Q : List Block.Instr → Prop} {m : List Block.Instr} {tr : List Nat} (hs : Linked u d)
    (hk : Kept u d v e) (h : Leads u a taken P stop m tr)
    (hm : ∀ i ∈ m, i.id < u.nextInstr ∧ ∀ x ∈ i.kind.succs, x < u.nextBlock)
    (hP : ∀ m, (∀ i ∈ m, i.id < u.nextInstr) → P m → Q m) : Leads v a taken Q stop m tr := by
  have hblock : ∀ {x}, x < u.nextBlock → v.bbs x = u.bbs x ∧
      ∀ i ∈ (u.bbs x).insts, i.id < u.nextInstr ∧ ∀ y ∈ i.kind.succs, y < u.nextBlock :=
    fun hx => ⟨hk.bbs _ hx, fun i hi => ⟨hs.ids _ hx i hi, fun y hy => (hs.succs _ hx i hi y hy).1⟩⟩
  induction h with
  | here h => exact .here (hP _ (fun i hi => (hm i hi).1) h)
  | @op i l tr kind _ ih =>
    rw [← hk.marks i.id (hm i List.mem_cons_self).1]
    exact .op kind (ih fun j hj => hm j (List.mem_cons_of_mem _ hj))
  | @br i b tr kind _ ih =>
    obtain ⟨hi, hsucc⟩ := hm i List.mem_cons_self
    obtain ⟨hb, hin⟩ := hblock (hsucc b (by rw [kind]; simp [Kind.succs]))
    rw [← hk.marks i.id hi]
    exact .br kind (hb ▸ ih hin)
  | @guest i x y kind _ ih =>
    obtain ⟨hi, hsucc⟩ := hm i List.mem_cons_self
    obtain ⟨hb, hin⟩ := hblock (hsucc (if taken then x else y) (by
      rw [kind]
      cases taken <;> simp [Kind.succs]))
    rw [← hk.marks i.id hi]
    exact .guest kind (hb ▸ ih hin)
  | @helper i x y tr kind _ _ yes no =>
    obtain ⟨hi, hsucc⟩ := hm i List.mem_cons_self
    obtain ⟨hx, hinx⟩ := hblock (hsucc x (by rw [kind]; simp [Kind.succs]))
    obtain ⟨hy, hiny⟩ := hblock (hsucc y (by rw [kind]; simp [Kind.succs]))
    rw [← hk.marks i.id hi]
    exact .helper kind (hx ▸ yes hinx) (hy ▸ no hiny)
  | @stop i kind h =>
    rw [← hk.marks i.id (hm i List.mem_cons_self).1]
    exact .stop kind h

theorem LastAt.kept {u v : Block.State} {d e : Nat → List Nat} {b : Nat} {kinds : List Kind}
    (hs : Linked u d) (hk : Kept u d v e) (hb : b < u.nextBlock) (h : LastAt u b a kinds) :
    LastAt v b a kinds := by
  obtain ⟨l, i, r, hins, hi, hleads⟩ := h
  have hmem : ∀ j ∈ i :: r, j ∈ (u.bbs b).insts := fun j hj => by
    rw [hins]
    exact List.mem_append_right _ hj
  have hid : ∀ j ∈ i :: r, j.id < u.nextInstr := fun j hj => hs.ids b hb j (hmem j hj)
  refine ⟨l, i, r, ?_, ?_, fun taken => kept_leads hs hk (hleads taken) (fun j hj => ?_) ?_⟩
  · rw [hk.bbs b hb, hins]
  · rw [hk.marks i.id (hid i List.mem_cons_self), hi]
  · exact ⟨hid j hj, fun x hx => (hs.succs b hb j (hmem j hj) x hx).1⟩
  · rintro m hm ⟨hkinds, hnone⟩
    refine ⟨hkinds, fun j hj => ?_⟩
    rw [hk.marks j.id (hm j hj)]
    exact hnone j hj

/-! ### Where control may get -/

/-- Control does not leave blocks that no branch leaves. -/
theorem Flows.stays {own : Nat → Prop} {m : List Block.Instr} {j : Block.Instr} {b : Nat}
    (hown : ∀ b, own b → ∀ i ∈ (s.blk.bbs b).insts,
      (∀ x ∈ i.kind.succs, own x) ∧ (i.kind = .indBr → ∀ x ∈ s.dests i.id, own x))
    (h : Flows s m j) (hb : own b) (hm : ∀ i ∈ m, i ∈ (s.blk.bbs b).insts) :
    ∃ b, own b ∧ j ∈ (s.blk.bbs b).insts := by
  induction h generalizing b with
  | here => exact ⟨b, hb, hm _ List.mem_cons_self⟩
  | next kind _ ih => exact ih hb fun i hi => hm i (List.mem_cons_of_mem _ hi)
  | branch succ _ ih => exact ih ((hown b hb _ (hm _ List.mem_cons_self)).1 _ succ) fun _ hi => hi
  | indirect kind dest _ ih =>
    exact ih ((hown b hb _ (hm _ List.mem_cons_self)).2 kind _ dest) fun _ hi => hi

namespace Running

theorem owns_iff (h : Running p s l body s₀ f pr) {b : Nat} :
    s.Owns b ↔ s₀.nextBlock ≤ b ∧ b < s.blk.nextBlock := by
  obtain ⟨main, key, hinv, -⟩ := h.inv
  constructor
  · rintro (⟨k, hk⟩ | ⟨a, ha⟩)
    · exact ⟨(h.own.tracked k b hk).1, (h.own.tracked k b hk).2.1⟩
    · exact ⟨(h.own.helper a b ha).1, (h.own.helper a b ha).2.1⟩
  · exact fun ⟨hn, hlt⟩ => hinv.heap.owned b hn hlt

/-- **What the blocks of a function are left with**: branches to each other, and the code of
instructions of the range. -/
theorem finish_own (h : Running p s l body s₀ f pr) (hs : Linked s₀ s.dests) {b : Nat}
    (hb : s.Owns b) {i : Block.Instr} (hi : i ∈ ((s.finish p).blk.bbs b).insts) :
    (∀ x ∈ i.kind.succs, s.Owns x) ∧ (i.kind = .indBr → ∀ x ∈ (s.finish p).dests i.id, s.Owns x) ∧
      ∀ a, (s.finish p).blk.marks i.id = some a → a < l.addr := by
  obtain ⟨w, hw, hk⟩ := returned_appends p s
  obtain ⟨hn, hlt⟩ := h.owns_iff.mp hb
  have hbbs : (s.finish p).blk.bbs b = (s.returned p).bbs b := by rw [finish_blk]
  rw [hbbs] at hi
  rcases hw.insts hi with hi | hi
  · obtain ⟨main, key, hinv, -⟩ := h.inv
    obtain ⟨-, first, hplaced⟩ := h.reach.placed h.aligned
    have hid := hinv.heap.ids b hn hlt i hi
    refine ⟨fun x hx => h.owns_iff.mpr (h.succ_own hn hlt hi hx), fun hki x hx => ?_,
      fun a ha => ?_⟩
    · have hbr := h.own.indirect b hn hlt i hi hki
      have hnext := (start_kept s₀ f l.st pr).2.1
      rw [finish_dests, if_pos hbr, hs.later i.id (le_trans hnext (h.own.noted _ hbr).1)] at hx
      obtain ⟨hxn, hxlt, -⟩ := h.labelled.blocks x hx
      exact h.owns_iff.mpr ⟨hxn, hxlt⟩
    · rw [finish_marks p s hid] at ha
      exact ((hplaced.mark i.id a (hplaced.ids i ⟨b, hn, hlt, hi⟩) hid).mp ha).1.2.1
  · obtain ⟨hsucc, hki⟩ := ending_kinds (hk ▸ List.mem_map_of_mem hi)
    refine ⟨fun x hx => ?_, fun hki' => absurd hki' hki, fun a ha => ?_⟩
    · rw [hsucc] at hx
      cases hx
    · rw [finish_blk] at ha
      cases (hw.fresh i hi).2.2.symm.trans ha

/-- **Nothing goes on behind the range of a function that has ended.** -/
theorem not_goesOn (h : Running p s l body s₀ f pr) (hs : Linked s₀ s.dests) (ha : a + 4 = l.addr)
    (hk : Kept (s.finish p).blk (s.finish p).dests t.blk t.dests) : ¬ GoesOn t s.Owns a := by
  rintro ⟨b, top, i, r, j, hb, hins, -, hflows, hj⟩
  have hlinked := h.finish_linked hs
  have hlt : ∀ {b}, s.Owns b → b < (s.finish p).blk.nextBlock := fun hb => by
    rw [finish_nextBlock]
    exact (h.owns_iff.mp hb).2
  have hown : ∀ b, s.Owns b → ∀ i ∈ (t.blk.bbs b).insts,
      (∀ x ∈ i.kind.succs, s.Owns x) ∧ (i.kind = .indBr → ∀ x ∈ t.dests i.id, s.Owns x) := by
    intro b hb i hi
    rw [hk.bbs b (hlt hb)] at hi
    rw [hk.dests i.id (hlinked.ids b (hlt hb) i hi)]
    exact ⟨(h.finish_own hs hb hi).1, (h.finish_own hs hb hi).2.1⟩
  obtain ⟨c, hc, hmem⟩ := hflows.stays hown hb fun i hi => by
    rw [hins]
    exact List.mem_append_right _ hi
  rw [hk.bbs c (hlt hc)] at hmem
  rw [hk.marks j.id (hlinked.ids c (hlt hc) j hmem)] at hj
  have := (h.finish_own hs hc hmem).2.2 _ hj
  omega

end Running

/-- **When control goes on behind a range.** At every end of a function, in a run in which every
function that is cut keeps its branches and jumps to itself: where the last instruction can fall
through, control goes on with the next one just if the last instruction cannot fall through. Of
what it does instead, if it is no branch: the function returns, or is at an `unreachable` if it is
main. -/
theorem falls_through (p : Program) (pending : Map Nat PendingReloc)
    (sections : String → List Constant) (hp : p.Aligned) (c₀ c₁ c : Config)
    (h : Config.Reach p (Apart p) pending sections c₀) (hgood : Apart p c₀)
    (hs : c₀.step p = .ok c₁) (l₀ : Loop) (hl₀ : c₁.loop = some l₀) (hfirst : l₀.addr = l₀.st)
    (hrun : Turns p c₁ c) (l : Loop) (hl : c.loop = some l)
    (hend : Cuts c.s l ∨ l.stop ≤ l.addr) (obj : Obj) (hobj : c.s.objs c.s.cur = some obj)
    (a : Nat) (ha : a + 4 = l.addr) (hle : l.st ≤ a) (c₂ : Config) (hapart : Apart p c)
    (hs₂ : c.step p = .ok c₂) :
    c₂.s.calls = c.s.calls ∧
      (∀ c', Run (Config.step p) (Apart p) c₂ c' →
        (((p.body obj.sec a).act.falls = true → GoesOn c'.s c.s.Owns a) ↔
          (p.body obj.sec a).act.falls = false)) ∧
      ((p.body obj.sec a).act.falls = true → (p.body obj.sec a).act.target? = none →
        ((p.body obj.sec a).act.leaves p.opts = true →
          ¬ Open p.opts (p.body obj.sec) l.st c₁.s.blk.pending a) →
        ∃ k b, c.s.blk.findBB k = some b ∧ ∀ c', Run (Config.step p) (Apart p) c₂ c' →
          LastAt c'.s.blk b a (p.closing (obj.name = "main"))) := by
  have hclean : ∀ c, Fresh p c → Apart p c → Clean c := fun _ hf hg => hf.clean hg
  obtain ⟨body, s₀, f, pr, hfresh, -, hr, hlinked, hpend, -⟩ :=
    h.entered hp hclean hgood hs hl₀ hfirst hrun hl
  obtain ⟨rfl, -, -, hmain⟩ := hr.obj obj hobj
  have hkept : ∀ c', Run (Config.step p) (Apart p) c₂ c' →
      Kept (c.s.finish p).blk (c.s.finish p).dests c'.s.blk c'.s.dests := fun c' hc' => by
    obtain ⟨hstep, hf₂⟩ := hfresh.step hp (hclean c hfresh hapart) hs₂
    exact (Between.run hp hclean (kept_keeps p _ _) hf₂ (hstep.ended hl hend (.refl _ _))
      hc').2.kept
  refine ⟨ended_calls hl hend hs₂, fun c' hc' => ⟨fun hgo => ?_, fun hf hf' => ?_⟩,
    fun hf ht hopen => ?_⟩
  · by_contra hne
    exact hr.not_goesOn hlinked ha (hkept c' hc') (hgo (Bool.not_eq_false _ ▸ hne))
  · cases hf.symm.trans hf'
  · rw [hpend] at hopen
    rw [← hmain]
    obtain ⟨k, b, hk, hlast⟩ := hr.last ha hle hf ht hopen
    refine ⟨k, b, hk, fun c' hc' => hlast.kept (hr.finish_linked hlinked) (hkept c' hc') ?_⟩
    rw [finish_nextBlock]
    exact (hr.own.tracked k b hk).2.1

/-- A function of one instruction, and the next one behind it. -/
def openProgram : Program where
  sections := [{
    size := 8
    symbols := [{name := "a", addr := 0}, {name := "b", addr := 4}]
    inst := fun
      | 4 => .ret 0
      | _ => .straight 1 }]
  epilogue := 1

theorem open_aligned : openProgram.Aligned := by
  intro sec hsec sym hsym _
  obtain rfl := List.mem_singleton.mp hsec
  rcases List.mem_cons.mp hsym with rfl | hsym
  · rfl
  · rcases List.mem_cons.mp hsym with rfl | hsym
    · rfl
    · cases hsym

theorem open_returns : ∃ c c₂ : Config, c.loop = some ⟨0, 4, 4⟩ ∧ c.step openProgram = .ok c₂ ∧
    ¬ GoesOn c₂.s c.s.Owns 0 ∧ ∃ k b, c.s.blk.findBB k = some b ∧
      ∀ c', Run (Config.step openProgram) (Apart openProgram) c₂ c' →
        LastAt c'.s.blk b 0 [.op, .ret] := by
  have hrun : ∃ c₀ c₁ c c₂, iterate (Config.step openProgram) 1
    (Config.init Map.empty fun _ => []) =
      .ok c₀ ∧ c₀.cutting = false ∧ c₀.step openProgram = .ok c₁ ∧ c₁.loop = some ⟨0, 4, 0⟩ ∧
      iterate (Config.step openProgram) 3 (Config.init Map.empty fun _ => []) = .ok c ∧
      c.cutting = false ∧ c.loop = some ⟨0, 4, 4⟩ ∧ c.step openProgram = .ok c₂ ∧
      (c.s.objs c.s.cur).map (fun obj => (obj.name, obj.sec)) = some ("a", 0) :=
    ⟨_, _, _, _, rfl, rfl, rfl, rfl, rfl, rfl, rfl, rfl, rfl⟩
  obtain ⟨c₀, c₁, c, c₂, hc₀, hcut, hs, hl₁, hc, hcut', hl, hs₂, hobj⟩ := hrun
  obtain ⟨obj, hobj, heq⟩ := Option.map_eq_some_iff.mp hobj
  obtain ⟨hname, hsec⟩ := Prod.mk.inj heq
  have hreach : Config.Reach openProgram (fun c => c.cutting = false) Map.empty (fun _ => []) c₀ :=
    reach_uncut (by decide +kernel) hc₀
  have hc₁ : iterate (Config.step openProgram) 2 (Config.init Map.empty fun _ => []) = .ok c₁ := by
    rw [iterate_succ, hc₀]
    exact hs
  obtain ⟨-, hgo, hlast⟩ := falls_through openProgram Map.empty (fun _ => []) open_aligned c₀ c₁ c
    (hreach.mono fun _ hc => (uncut hc).1) (uncut hcut).1 hs _ hl₁ rfl
    (turns_of hc₁ (by decide) (by decide +kernel) hc) _ hl (.inr (le_refl _)) obj hobj 0 rfl
    (le_refl _) c₂ (uncut hcut').1 hs₂
  rw [hname, hsec] at hlast
  rw [hsec] at hgo
  refine ⟨c, c₂, hl, hs₂, fun h => ?_, hlast rfl rfl fun h => by cases h⟩
  cases (hgo c₂ .start).mp fun _ => h

/-- The first function returns where the guest goes on in the second one. -/
theorem early_return : ∃ c : Config,
    Config.Reach openProgram (fun _ => True) Map.empty (fun _ => []) c ∧
      c.loop = none ∧ c.todo = [] ∧ c.next = 1 ∧ (openProgram.body 0 0).act.succ? 0 false = some 4 ∧
      (c.s.blk.bbs 0).insts = [⟨0, .op⟩, ⟨1, .op⟩, ⟨2, .ret⟩] ∧
      ¬ GoesOn c.s (· < c.s.blk.nextBlock) 0 := by
  obtain ⟨c, hc, hP⟩ := checks_spec (P := fun c => c.loop = none ∧ c.todo = [] ∧ c.next = 1 ∧
      c.s.blk.nextBlock = 2 ∧ (c.s.blk.bbs 0).insts = [⟨0, .op⟩, ⟨1, .op⟩, ⟨2, .ret⟩] ∧
      (c.s.blk.bbs 1).insts = [⟨3, .ret⟩] ∧ c.s.blk.marks 0 = some 0 ∧ c.s.blk.marks 1 = none ∧
      c.s.blk.marks 2 = none ∧ c.s.blk.marks 3 = some 4 ∧ c.s.calls = [])
    (show (Config.init Map.empty fun _ => []).checks openProgram 7 _ = true by decide +kernel)
  obtain ⟨hl, htodo, hnext, hblocks, h₀, h₁, m₀, m₁, m₂, m₃, hcalls⟩ := of_decide_eq_true hP
  refine ⟨c, Run.start.iterate 7 (fun _ _ _ _ => trivial) hc, hl, htodo, hnext, rfl, h₀, ?_⟩
  rintro ⟨b, top, i, r, j, hb, hins, hi, hflows, hj⟩
  have hmem : i ∈ (c.s.blk.bbs b).insts := by
    rw [hins]
    simp
  -- The code of the instruction at 0 is in the first block, which nothing leaves.
  obtain rfl : b = 0 := by
    obtain rfl | rfl : b = 0 ∨ b = 1 := by omega
    · rfl
    · rw [h₁] at hmem
      obtain rfl := List.mem_singleton.mp hmem
      cases hi.symm.trans m₃
  have hown : ∀ b, b = 0 → ∀ i ∈ (c.s.blk.bbs b).insts,
      (∀ x ∈ i.kind.succs, x = 0) ∧ (i.kind = .indBr → ∀ x ∈ c.s.dests i.id, x = 0) := by
    rintro b rfl i hi
    rw [h₀] at hi
    simp only [List.mem_cons, List.not_mem_nil, or_false] at hi
    rcases hi with rfl | rfl | rfl <;> simp [Kind.succs]
  obtain ⟨b, rfl, hj'⟩ := hflows.stays hown rfl fun i hi => by
    rw [hins]
    exact List.mem_append_right _ hi
  rw [h₀] at hj'
  simp only [List.mem_cons, List.not_mem_nil, or_false] at hj'
  rcases hj' with rfl | rfl | rfl
  · cases hj.symm.trans m₀
  · cases hj.symm.trans m₁
  · cases hj.symm.trans m₂

end RiscvSbt.Context
