import RiscvSbt.Block.Ready

/-! The end of a turn: the instruction is marked and recorded, its label is served, and
the block is closed if it cannot go on. -/
namespace RiscvSbt.Block
open Library State

section Predicates
variable (opts : Options) (body : Nat → Inst) (n st : Nat) (bad : Nat → Prop) (s : State)

/-- The instruction at `addr` is recorded. -/
structure Post (addr main k : Nat) : Prop where
  heap : Heap n s
  bounds : ∀ c, HasBB s c → st ≤ c ∧ c % 4 = 0
  entry : HasBB s st
  key : s.findBB k = some main
  le : k ≤ addr
  gap : ∀ c, HasBB s c → c ≤ k ∨ addr < c
  code : Code opts body s k (s.bbs main).insts (addr + 4)
  recorded : Recorded s main (s.bbs main).insts
  rest : ∀ c b, s.findBB c = some b → c ≠ k → Recorded s b (s.bbs b).insts ∧
    (Sealed opts body s addr c b ∨ (addr < c ∧ (s.bbs b).insts = []))
  exits : ∀ a, st ≤ a → a < addr → a % 4 = 0 → (body a).act.leaves opts → Exit bad s a
  helpers : ∀ a b, b ∈ s.ubbs a → st ≤ a ∧ a ≤ addr ∧ a % 4 = 0 ∧ (body a).act.leaves opts
  ends : (terminator (s.bbs main).insts).isSome ↔ (body addr).act.stays opts = false
  place : (s.bld.insertBlock = main ∧
      ((body addr).act.leaves opts = true → bad addr ∧ Exit bad s addr)) ∨
    ((body addr).act.leaves opts = true ∧ Region s addr s.bld.insertBlock ∧
      Quiet s s.insertBB.insts)

end Predicates

variable {opts : Options} {body : Nat → Inst} {n st : Nat} {bad : Nat → Prop} {s t : State}
  {addr main k m₀ tgt : Nat} {l m c r : List Instr} {i : Instr}

/-! ### Marking -/

/-- The instruction's first one carries its address, and is in the map of the block. -/
def State.enter (s : State) (addr main i : Nat) : State :=
  State.addInstr addr {s with marks := Function.update s.marks i (some addr)} main i

theorem enter_bbs_of_ne {i b : Nat} (h : b ≠ main) : (s.enter addr main i).bbs b = s.bbs b :=
  Function.update_of_ne h _ _

theorem enter_bbs_self (s : State) (addr main i : Nat) : (s.enter addr main i).bbs main =
    {s.bbs main with instrMap := (s.bbs main).instrMap.upsert addr i} :=
  Function.update_self _ _ _

theorem enter_insts (s : State) (addr main i b : Nat) :
    ((s.enter addr main i).bbs b).insts = (s.bbs b).insts := by
  by_cases h : b = main
  · rw [h, enter_bbs_self]
  · rw [enter_bbs_of_ne h]

/-- Only the marked instruction changes. -/
theorem enter_marks {i j : Nat} (hj : j ≠ i) : (s.enter addr main i).marks j = s.marks j :=
  Function.update_of_ne hj _ _

theorem enter_mark (s : State) (addr main i : Nat) :
    (s.enter addr main i).marks i = some addr :=
  Function.update_self _ _ _

namespace Ready

/-- No instruction of the code is marked yet. -/
theorem unmarked (h : Ready opts body n st bad s addr m₀ main k l c) :
    ∀ x ∈ c, s.marks x.id = Option.none := by
  have hends : ∀ {m : List Instr} {x : Instr}, c = m ++ [x] → Quiet s m → s.marks x.id = .none →
      ∀ x ∈ c, s.marks x.id = Option.none := by
    rintro m x rfl hm hx y hy
    rcases List.mem_append.mp hy with hy | hy
    · exact (hm y hy).2
    · rw [List.mem_singleton.mp hy, hx]
  cases h.finish with
  | stays act insert quiet => exact fun x hx => (quiet x hx).2
  | ends act insert eq quiet mark term => exact hends eq quiet mark
  | leaves act same region open_ eq quiet mark term => exact hends eq quiet mark

/-- A nop stands for an instruction that emitted nothing. -/
theorem getFirst (h : Ready opts body n st bad s addr m₀ main k l c) :
    ∃ i r, Ready opts body n st bad s.getFirst addr m₀ main k l (i :: r) ∧
      s.getFirst.bld.first = some i.id ∧ s.getFirst.func = s.func ∧
      s.getFirst.pending = s.pending ∧ s.getFirst.sections = s.sections := by
  unfold State.getFirst
  cases c with
  | cons i r =>
    have hfirst : s.bld.first = some i.id := h.first
    rw [if_neg (by rw [hfirst]; exact nofun)]
    exact ⟨i, r, h, hfirst, rfl, rfl, rfl⟩
  | nil =>
    have hfirst : s.bld.first = Option.none := h.first
    rw [if_pos hfirst]
    cases h.finish with
    | stays act insert quiet =>
      have hl : (body addr).act.leaves opts = false := by
        by_contra hl
        rw [Act.stays_of_leaves (Bool.not_eq_false _ ▸ hl)] at act
        exact nomatch act
      have hmid : Mid opts body n st bad s addr main k l [] :=
        ⟨h.toWork, h.insts, .nil, insert, h.first, h.none hl⟩
      refine ⟨⟨s.nextInstr, .op⟩, [], ⟨hmid.op.toWork, hmid.op.insts, hmid.op.first,
        .stays act insert hmid.op.quiet, h.none, h.origin⟩, hmid.op.first, rfl, rfl, rfl⟩
    | ends act insert eq => simp at eq
    | leaves act same region open_ eq => simp at eq

section Enter
variable (h : Ready opts body n st bad s addr m₀ main k l (i :: r))
include h

theorem mem_main : i ∈ (s.bbs main).insts := by
  rw [h.insts]
  exact List.mem_append_right _ List.mem_cons_self

theorem nodup_main : ((l ++ i :: r).map Instr.id).Nodup := by
  rw [← h.insts]
  exact h.heap.nodup main h.own.1 h.own.2

theorem above_ne : ∀ x ∈ l, x.id ≠ i.id := by
  have hd := h.nodup_main
  rw [List.map_append, List.nodup_append] at hd
  exact fun x hx => hd.2.2 _ (List.mem_map_of_mem hx) _ (List.mem_map_of_mem List.mem_cons_self)

theorem below_ne : ∀ x ∈ r, x.id ≠ i.id := by
  have hd := h.nodup_main
  rw [List.map_append, List.nodup_append, List.map_cons, List.nodup_cons] at hd
  exact fun x hx he => hd.2.1.1 (he ▸ List.mem_map_of_mem hx)

theorem enter_frame : Frame n (· = main) s (s.enter addr main i.id) where
  find _ _ hk := hk
  ubbs _ _ hb := hb
  bbs b _ hB := enter_bbs_of_ne hB
  nextBlock := le_refl _
  marks b hn hb hB x hx := by
    refine enter_marks fun he => hB ?_
    exact h.heap.disjoint b main hn hb h.own.1 h.own.2 x hx i h.mem_main he

theorem enter_heap : Heap n (s.enter addr main i.id) := by
  refine h.heap.of_eq (fun b => ?_) rfl rfl h.heap.insert rfl rfl rfl
  by_cases hb : b = main
  · rw [hb, enter_bbs_self]
    exact ⟨rfl, rfl, rfl⟩
  · rw [enter_bbs_of_ne hb]
    exact ⟨rfl, rfl, rfl⟩

/-- The code of the instruction, now that its first one is marked. -/
theorem enter_code : Code opts body (s.enter addr main i.id) addr (i :: r) (addr + 4) := by
  have g : Grows s (s.enter addr main i.id) := h.enter_frame.toGrows
  have hquiet : ∀ {q : List Instr}, Quiet s q → (∀ x ∈ q, x ∈ r) →
      Quiet (s.enter addr main i.id) q := fun hq hr =>
    hq.grow fun x hx => enter_marks (h.below_ne x (hr x hx))
  have hends : ∀ {m : List Instr} {x : Instr}, i :: r = m ++ [x] → Quiet s m →
      s.marks x.id = .none → Term opts body s addr x.kind →
      Code opts body (s.enter addr main i.id) addr (i :: r) (addr + 4) := by
    intro m x heq hm hx ht
    cases m with
    | nil =>
      obtain ⟨rfl, rfl⟩ := List.cons.inj heq
      exact .term (enter_mark s addr main i.id) (ht.grow g)
    | cons y m =>
      obtain ⟨rfl, rfl⟩ := List.cons.inj heq
      refine .enter (hm i List.mem_cons_self).1 (enter_mark s addr main i.id)
        (Quiet.ends (hquiet (q := m) ?_ ?_) ?_)
      · exact fun x hx => hm x (List.mem_cons_of_mem _ hx)
      · exact fun x hx => List.mem_append_left _ hx
      · refine .term ((enter_marks ?_).trans hx) (ht.grow g)
        exact h.below_ne x (List.mem_append_right _ (List.mem_singleton.mpr rfl))
  cases h.finish with
  | stays act insert quiet =>
    have hr : Quiet s r := fun x hx => quiet x (List.mem_cons_of_mem _ hx)
    have hstop : Code opts body (s.enter addr main i.id) (addr + 4) [] (addr + 4) := .stop _
    have hcode := (hquiet hr fun _ hx => hx).code hstop
    rw [List.append_nil] at hcode
    exact .visit (quiet i List.mem_cons_self).1 (enter_mark s addr main i.id) act hcode
  | ends act insert eq quiet mark term => exact hends eq quiet mark term
  | leaves act same region open_ eq quiet mark term => exact hends eq quiet mark term

theorem enter_recorded : Recorded (s.enter addr main i.id) main (l ++ i :: r) := by
  intro a j
  rw [enter_bbs_self]
  simp only [Map.get?_upsert]
  have hmark : ∀ j, (s.enter addr main i.id).marks j =
      if j = i.id then some addr else s.marks j := fun j => by
    by_cases hj : j = i.id
    · rw [if_pos hj, hj]
      exact enter_mark s addr main i.id
    · rw [if_neg hj]
      exact enter_marks hj
  have hunmarked := h.unmarked
  by_cases ha : a = addr
  · subst ha
    rw [if_pos rfl]
    constructor
    · rintro ⟨⟩
      exact ⟨i, by simp, rfl, enter_mark _ _ _ _⟩
    · rintro ⟨x, hx, rfl, hm⟩
      by_cases hxi : x.id = i.id
      · rw [hxi]
      · rw [hmark, if_neg hxi] at hm
        rcases List.mem_append.mp hx with hx | hx
        · have := (h.code.marked.mp ⟨x, hx, hm⟩).2.1
          exact absurd this (lt_irrefl _)
        · rw [hunmarked x hx] at hm
          exact nomatch hm
  · rw [if_neg ha, h.recorded]
    constructor
    · rintro ⟨x, hx, rfl, hm⟩
      refine ⟨x, List.mem_append_left _ hx, rfl, ?_⟩
      rw [hmark, if_neg (h.above_ne x hx), hm]
    · rintro ⟨x, hx, rfl, hm⟩
      by_cases hxi : x.id = i.id
      · rw [hmark, if_pos hxi] at hm
        exact absurd (Option.some.inj hm).symm ha
      · rw [hmark, if_neg hxi] at hm
        rcases List.mem_append.mp hx with hx | hx
        · exact ⟨x, hx, rfl, hm⟩
        · rw [hunmarked x hx] at hm
          exact nomatch hm

theorem ends : (terminator (l ++ i :: r)).isSome ↔ (body addr).act.stays opts = false := by
  have hends : ∀ {m : List Instr} {x : Instr}, i :: r = m ++ [x] → Term opts body s addr x.kind →
      ((terminator (l ++ i :: r)).isSome ↔ (body addr).act.stays opts = false) := by
    intro m x heq ht
    rw [heq, ← List.append_assoc, terminator_append, if_pos ht.isTerminator]
    exact ⟨fun _ => ht.not_stays, fun _ => rfl⟩
  cases h.finish with
  | stays act insert quiet =>
    rw [(h.straight.append quiet.straight).terminator, act]
    exact ⟨nofun, nofun⟩
  | ends act insert eq quiet mark term => exact hends eq term
  | leaves act same region open_ eq quiet mark term => exact hends eq term

/-- **The recorded instruction.** -/
theorem post : Post opts body n st bad (s.enter addr main i.id) addr main k := by
  have f := h.enter_frame
  have hinsts : ((s.enter addr main i.id).bbs main).insts = l ++ i :: r := by
    rw [enter_insts, h.insts]
  refine ⟨h.enter_heap, h.bounds, h.entry, h.key, h.toWork.le, h.gap, ?_, ?_, fun c b hb hne => ?_,
    fun a hst ha hm hl => ?_, fun a b hb => ?_, ?_, ?_⟩
  · rw [hinsts]
    exact .append h.straight (h.code.grow f.toGrows fun x hx => enter_marks (h.above_ne x hx))
      h.enter_code
  · rw [hinsts]
    exact h.enter_recorded
  · obtain ⟨hrec, hrest⟩ := h.rest c b hb hne
    obtain ⟨hn, hlt, -⟩ := h.heap.tracked c b hb
    have hB : ¬ b = main := h.heap.find_ne hb h.key hne
    have hbbs := f.bbs b hlt hB
    refine ⟨?_, ?_⟩
    · rw [hbbs]
      exact hrec.keep (by rw [hbbs]) (f.marks b hn hlt hB)
    · rcases hrest with hs | ⟨hk, hnil⟩
      · exact .inl (hs.frame f h.heap hb hB fun e _ _ hsep => hsep)
      · exact .inr ⟨hk, by rw [hbbs, hnil]⟩
  · refine (h.exits a hst ha hm hl).frame f h.heap (fun _ hb => hb) (fun y hy hym => ?_)
      fun y _ hne => hne
    exact h.heap.find_ubbs h.key (hym ▸ hy)
  · change b ∈ s.ubbs a at hb
    rcases h.helpers a b hb with rfl | ⟨hst, hlt, hm, hl⟩
    · refine ⟨h.st_le, le_refl _, h.aligned, ?_⟩
      by_contra hl
      rw [h.none (Bool.not_eq_true _ ▸ hl)] at hb
      exact nomatch hb
    · exact ⟨hst, le_of_lt hlt, hm, hl⟩
  · rw [hinsts]
    exact h.ends
  · cases h.finish with
    | stays act insert quiet =>
      refine .inl ⟨insert, fun hl => ?_⟩
      rw [Act.stays_of_leaves hl] at act
      exact nomatch act
    | ends act insert =>
      refine .inl ⟨insert, fun hl => ?_⟩
      rw [act] at hl
      exact nomatch hl
    | leaves act same region open_ =>
      have hne : s.bld.insertBlock ≠ main := fun e => h.heap.find_ubbs h.key (e ▸ region.exit)
      obtain ⟨hn, hlt⟩ := h.heap.insert
      refine .inr ⟨act, region.frame f h.heap (fun _ hb => hb) (fun y hy _ hym => ?_), ?_⟩
      · exact h.heap.find_ubbs h.key (hym ▸ hy)
      · show Quiet _ ((s.enter addr main i.id).bbs s.bld.insertBlock).insts
        rw [enter_insts]
        exact open_.grow (f.marks _ hn hlt hne)

/-- Marking and recording an instruction enters it in the main block. -/
theorem record (hfirst : s.bld.first = some i.id) :
    State.record addr {s with marks := Function.update s.marks i.id (some addr)} m₀ =
      .ok (main, s.enter addr main i.id) := by
  obtain ⟨c, ho⟩ := h.origin
  obtain ⟨hn, hlt, -⟩ := h.heap.tracked c m₀ ho
  have hmain : (s.bbs main).insts.any (·.id = i.id) = true := by
    rw [List.any_eq_true]
    exact ⟨i, h.mem_main, decide_eq_true rfl⟩
  have hfb : State.firstBB {s with marks := Function.update s.marks i.id (some addr)} m₀ i.id =
      .ok main := by
    unfold State.firstBB
    show (if (s.bbs m₀).insts.any (·.id = i.id) = true then _ else _) = _
    by_cases hm : m₀ = main
    · rw [hm, if_pos hmain]
      rfl
    · have hany : ¬ (s.bbs m₀).insts.any (·.id = i.id) = true := by
        rw [List.any_eq_true]
        rintro ⟨x, hx, he⟩
        exact hm (h.heap.disjoint m₀ main hn hlt h.own.1 h.own.2 x hx i h.mem_main
          (of_decide_eq_true he))
      -- A jump back has split the block: the builder is on the lower part.
      have hins : s.bld.insertBlock = main := by
        cases h.finish with
        | stays act insert => exact insert
        | ends act insert => exact insert
        | leaves act same => exact absurd same hm
      rw [if_neg hany]
      show (if (s.bbs s.bld.insertBlock).untracked = true then _ else
        if (s.bbs s.bld.insertBlock).insts.any (·.id = i.id) = true then
          Except.ok s.bld.insertBlock else _) = _
      rw [hins, (h.heap.tracked k main h.key).2.2.2, if_neg Bool.false_ne_true, if_pos hmain]
  unfold State.record State.getFirst
  rw [if_neg (by rw [hfirst]; exact nofun)]
  simp only [hfirst, hfb]
  rfl

end Enter
end Ready

/-! ### Labels -/

/-- Serving a label once its block `nbb` is there. -/
def State.serve (t : State) (addr nbb : Nat) (prel : PendingReloc) : Except String (Nat × State) :=
  match prel.secs.foldlM (patch nbb) t.sections with
  | .ok sections => .ok (nbb, { t with
      sections := sections
      pending := t.pending.remove addr
      func := {t.func with indBBs := t.func.indBBs ++ [nbb]} })
  | .error e => .error e

theorem processPending_here {prel : PendingReloc} (hp : s.pending.get? addr = some prel)
    (haddr : (s.bbs main).addr = some addr) :
    s.processPending addr main = s.serve addr main prel := by
  unfold State.processPending State.serve
  simp only [hp, BasicBlock.getAddr, haddr, pure_bind, if_true]
  cases prel.secs.foldlM (patch main) s.sections <;> rfl

theorem processPending_split {prel : PendingReloc} {nbb : Nat}
    (hp : s.pending.get? addr = some prel) (haddr : (s.bbs main).addr = some k) (hk : k ≠ addr)
    (hsplit : s.split main addr = .ok (nbb, t)) :
    s.processPending addr main =
      ((t.addBB addr nbb).setInsertBlock nbb).serve addr nbb prel := by
  unfold State.processPending State.serve
  simp only [hp, BasicBlock.getAddr, haddr, pure_bind, if_neg hk, hsplit]
  show (prel.secs.foldlM (patch nbb) ((t.addBB addr nbb).setInsertBlock nbb).sections >>= _) = _
  cases prel.secs.foldlM (patch nbb) ((t.addBB addr nbb).setInsertBlock nbb).sections <;> rfl

namespace Post

theorem own (h : Post opts body n st bad s addr main k) : n ≤ main ∧ main < s.nextBlock :=
  ⟨(h.heap.tracked k main h.key).1, (h.heap.tracked k main h.key).2.1⟩

theorem aligned (h : Post opts body n st bad s addr main k) : addr % 4 = 0 := by
  have := h.code.mod
  have := (h.bounds k ⟨main, h.key⟩).2
  omega

theorem st_le (h : Post opts body n st bad s addr main k) : st ≤ addr :=
  le_trans (h.bounds k ⟨main, h.key⟩).1 h.le

/-- Changes beside blocks, instructions and the maps of blocks. -/
theorem of_eq (h : Post opts body n st bad s addr main k) (hbbs : t.bbs = s.bbs)
    (hb : t.nextBlock = s.nextBlock) (hi : t.nextInstr = s.nextInstr) (hm : t.marks = s.marks)
    (hbld : t.bld = s.bld) (hbm : t.func.bbMap = s.func.bbMap)
    (hub : t.func.ubbMap = s.func.ubbMap) : Post opts body n st bad t addr main k := by
  have hfind : ∀ k, t.findBB k = s.findBB k := fun k => by unfold State.findBB; rw [hbm]
  have hubbs : ∀ a, t.ubbs a = s.ubbs a := fun a => by unfold State.ubbs; rw [hub]
  have hhas : ∀ c, HasBB t c ↔ HasBB s c := fun c => by unfold HasBB; rw [hfind]
  have g : Grows s t := ⟨fun c b hc => (hfind c).trans hc, fun a b hb => by rw [hubbs]; exact hb⟩
  have f : Frame n (fun _ => False) s t := .of_eq _ g hbbs hb hm
  have hexit : ∀ {a}, Exit bad s a → Exit bad t a := fun he =>
    he.frame f h.heap (fun b hb => by rw [← hubbs]; exact hb) (fun _ _ => id)
      fun y _ hne => by rw [hbld]; exact hne
  refine ⟨h.heap.of_eq (fun b => by rw [hbbs]; exact ⟨rfl, rfl, rfl⟩) hb hi (hbld ▸ h.heap.insert)
    (by rw [hbld]) hbm hub, fun c hc => h.bounds c ((hhas c).mp hc), h.entry.grow g,
    g.find _ _ h.key, h.le, fun c hc => h.gap c ((hhas c).mp hc), ?_, ?_, fun c b hb hne => ?_,
    fun a hst ha hm hl => hexit (h.exits a hst ha hm hl), fun a b hb => h.helpers a b ?_, ?_, ?_⟩
  · rw [hbbs]
    exact h.code.grow g fun _ _ => by rw [hm]
  · have hr : Recorded t main (s.bbs main).insts :=
      Recorded.keep (s := s) (by rw [hbbs]) (fun _ _ => by rw [hm]) h.recorded
    rw [hbbs]
    exact hr
  · rw [hfind] at hb
    obtain ⟨hrec, hrest⟩ := h.rest c b hb hne
    have hr : Recorded t b (s.bbs b).insts :=
      Recorded.keep (s := s) (by rw [hbbs]) (fun _ _ => by rw [hm]) hrec
    rw [hbbs]
    refine ⟨hr, hrest.imp_left fun hs => ?_⟩
    exact hs.frame f h.heap hb id fun e _ _ hsep c' hc' => hsep c' ((hhas c').mp hc')
  · rw [← hubbs]
    exact hb
  · rw [hbbs]
    exact h.ends
  · refine h.place.imp (fun ⟨hi, he⟩ => ⟨by rw [hbld]; exact hi, fun hl => (he hl).imp_right hexit⟩)
      fun ⟨hl, hr, hq⟩ => ⟨hl, ?_, ?_⟩
    · rw [hbld]
      exact hr.frame f h.heap (fun b hb => by rw [← hubbs]; exact hb) fun _ _ _ => id
    · unfold State.insertBB
      rw [hbld, hbbs]
      exact hq.grow fun _ _ => by rw [hm]

/-- The code of the main block may be cut before the last instruction. -/
theorem cut (h : Post opts body n st bad s addr main k) (hk : k < addr) :
    ∃ top i bottom, (s.bbs main).insts = top ++ i :: bottom ∧
      Cut opts body n s k main addr (addr + 4) top i bottom [] := by
  have hmod := h.aligned
  have hkmod := (h.bounds k ⟨main, h.key⟩).2
  obtain ⟨top, i, bottom, heq, hi, hs, hu, hl⟩ :=
    h.code.cut (le_of_lt hk) (by omega) (hmod.trans hkmod.symm)
  have hrec := h.recorded
  rw [heq] at hrec
  refine ⟨top, i, bottom, heq, h.heap, h.key, ?_, hk, fun c hc => ?_, by omega, ?_, hs, hu, hl,
    hrec, hi⟩
  · by_contra hne
    obtain ⟨b, hb⟩ := Option.ne_none_iff_exists'.mp hne
    rcases h.gap addr ⟨b, hb⟩ with hc | hc <;> omega
  · have := (h.bounds c hc).2
    rcases h.gap c hc with hc' | hc' <;> omega
  · rw [heq, List.append_nil]

/-- **Splitting at a label.** The last instruction moves to a block of its own, that the
builder goes on in. -/
theorem split (h : Post opts body n st bad s addr main k) {top bottom : List Instr} {i : Instr}
    (heq : (s.bbs main).insts = top ++ i :: bottom)
    (c : Cut opts body n s k main addr (addr + 4) top i bottom [])
    (hh : Halves s main addr top (i :: (bottom ++ [])) t)
    (hbad : (body addr).act.leaves opts = true → bad addr) :
    Post opts body n st bad ((t.addBB addr s.nextBlock).setInsertBlock s.nextBlock) addr
      s.nextBlock addr := by
  have f := hh.frame c.heap c.fresh
  have hheap := h.heap.halves h.key c.insts c.fresh hh
  have hk := c.lt
  have hub : ∀ a, ∀ y ∈ s.ubbs a, y ≠ main ∧ y ≠ s.nextBlock := fun a y hy =>
    ⟨fun e => h.heap.find_ubbs h.key (e ▸ hy), Nat.ne_of_lt (h.heap.helper a y hy).2.1⟩
  have hub' : ∀ a b, b ∈ (t.addBB addr s.nextBlock).ubbs a → b ∈ s.ubbs a := fun a b hb => by
    rw [← hh.ubbs_eq]
    exact hb
  -- The builder moves to the new block, which no untracked one is.
  have g : Grows (t.addBB addr s.nextBlock)
      ((t.addBB addr s.nextBlock).setInsertBlock s.nextBlock) :=
    ⟨fun _ _ hk => hk, fun _ _ hb => hb⟩
  have f' : Frame n (· = main) s ((t.addBB addr s.nextBlock).setInsertBlock s.nextBlock) :=
    f.trans (.of_eq _ g rfl rfl rfl)
  have hexit : ∀ {a}, Exit bad s a →
      Exit bad ((t.addBB addr s.nextBlock).setInsertBlock s.nextBlock) a := fun he =>
    he.frame f' h.heap (hub' _) (fun y hy => (hub _ y hy).1) fun y hy _ => (hub _ y hy).2
  have hinsts : (t.bbs s.nextBlock).insts = i :: bottom := by
    rw [hh.new, List.append_nil]
  have hkeys : ∀ c', HasBB (t.addBB addr s.nextBlock) c' → HasBB s c' ∨ c' = addr := by
    rintro c' ⟨b, hb⟩
    rw [hh.find] at hb
    split at hb
    next heq => exact .inr heq
    next => exact .inl ⟨b, hb⟩
  have hlt : s.nextBlock < t.nextBlock := by
    rw [hh.nextBlock]
    exact Nat.lt_succ_self _
  refine ⟨hheap.setInsertBlock (le_trans h.own.1 (le_of_lt h.own.2)) hlt, fun c' hc => ?_,
    h.entry.grow f'.toGrows, g.find _ _ (by rw [hh.find, if_pos rfl]), le_refl _, fun c' hc => ?_,
    ?_, ?_, fun c' b hb hne => ?_, fun a hst ha hm hl => hexit (h.exits a hst ha hm hl),
    fun a b hb => h.helpers a b (hub' a b hb), ?_, .inl ⟨rfl, fun hl => ?_⟩⟩
  · rcases hkeys c' hc with hc | rfl
    · exact h.bounds c' hc
    · exact ⟨h.st_le, h.aligned⟩
  · rcases hkeys c' hc with hc | rfl
    · rcases h.gap c' hc with hc | hc
      · exact .inl (by omega)
      · exact .inr hc
    · exact .inl (le_refl _)
  · show Code _ _ _ addr (t.bbs s.nextBlock).insts _
    rw [hinsts]
    exact (c.lower_after hh).grow g fun _ _ => rfl
  · show Recorded _ s.nextBlock (t.bbs s.nextBlock).insts
    rw [hinsts]
    exact Recorded.keep (s := t.addBB addr s.nextBlock) rfl (fun _ _ => rfl) (c.recorded_lower hh)
  · have hb : (t.addBB addr s.nextBlock).findBB c' = some b := hb
    have hb' := hb
    rw [hh.find, if_neg hne] at hb'
    obtain ⟨hrec, hrest⟩ : Recorded (t.addBB addr s.nextBlock) b
        ((t.addBB addr s.nextBlock).bbs b).insts ∧
        (Sealed opts body (t.addBB addr s.nextBlock) addr c' b ∨
          (addr < c' ∧ ((t.addBB addr s.nextBlock).bbs b).insts = [])) := by
      by_cases hc : c' = k
      · subst hc
        obtain rfl : main = b := Option.some.inj (h.key.symm.trans hb')
        exact ⟨c.recorded_upper hh, .inl (c.sealed_upper hh (le_refl _))⟩
      · exact c.rest_after hh hb' hc ⟨main, h.key⟩ (h.rest c' b hb' hc)
    refine ⟨Recorded.keep (s := t.addBB addr s.nextBlock) rfl (fun _ _ => rfl) hrec,
      hrest.imp_left fun hs => ?_⟩
    have f₀ : Frame n (fun _ => False) (t.addBB addr s.nextBlock)
        ((t.addBB addr s.nextBlock).setInsertBlock s.nextBlock) := .of_eq _ g rfl rfl rfl
    exact hs.frame f₀ hheap hb id fun e _ _ hsep => hsep
  · show (terminator (t.bbs s.nextBlock).insts).isSome ↔ _
    rw [hinsts, ← terminator_append_cons top, ← heq]
    exact h.ends
  · rcases h.place with ⟨-, he⟩ | ⟨-, hr, hq⟩
    · exact (he hl).imp_right hexit
    · -- The untracked code of the instruction is left open.
      obtain ⟨hne, hnew⟩ := hub addr _ hr.exit
      obtain ⟨hn, hlt'⟩ := h.heap.insert
      refine ⟨hbad hl, s.bld.insertBlock, hr.frame f' h.heap
        (hub' addr) fun y hy _ => (hub _ y hy).1,
        fun hb => absurd (hbad hl) hb, fun _ => ⟨?_, hnew⟩⟩
      rw [f'.bbs _ hlt' hne]
      exact hq.grow (f'.marks _ hn hlt' hne)

/-- **The label of an instruction.** -/
theorem processPending (h : Post opts body n st bad s addr main k)
    (hbad : (body addr).act.leaves opts = true →
      (bad addr ↔ s.pending.get? addr ≠ none ∧ k ≠ addr)) :
    (∃ e, s.processPending addr main = .error e ∧ s.pending.get? addr ≠ none) ∨
    ∃ bb t main' k, s.processPending addr main = .ok (bb, t) ∧
      Post opts body n st bad t addr main' k ∧ (t.bld.insertBlock ≠ main' → ¬ bad addr) ∧
      (∀ c, addr < c → (HasBB t c ↔ HasBB s c)) ∧ t.func.nextBB = s.func.nextBB ∧
      ∀ c, c ≠ addr → t.pending.get? c = s.pending.get? c := by
  have hopen : ¬ (s.pending.get? addr ≠ none ∧ k ≠ addr) → s.bld.insertBlock ≠ main →
      ¬ bad addr := by
    intro hn hne hb
    rcases h.place with ⟨hi, -⟩ | ⟨hl, -⟩
    · exact hne hi
    · exact hn ((hbad hl).mp hb)
  have haddr := (h.heap.tracked k main h.key).2.2.1
  cases hp : s.pending.get? addr with
  | none =>
    refine .inr ⟨main, s, main, k, ?_, h, hopen (fun hn => hn.1 hp), fun _ _ => .rfl, rfl,
      fun _ _ => rfl⟩
    unfold State.processPending
    rw [hp]
    rfl
  | some prel =>
    -- Once the block of the label is there, only the words are left.
    have hserve : ∀ {u : State} {nbb main' k' : Nat}, s.processPending addr main =
        u.serve addr nbb prel → Post opts body n st bad u addr main' k' →
        (u.bld.insertBlock ≠ main' → ¬ bad addr) →
        (∀ c, addr < c → (HasBB u c ↔ HasBB s c)) → u.func.nextBB = s.func.nextBB →
        u.pending = s.pending →
        (∃ e, s.processPending addr main = .error e ∧ some prel ≠ none) ∨
        ∃ bb t main' k, s.processPending addr main = .ok (bb, t) ∧
          Post opts body n st bad t addr main' k ∧ (t.bld.insertBlock ≠ main' → ¬ bad addr) ∧
          (∀ c, addr < c → (HasBB t c ↔ HasBB s c)) ∧ t.func.nextBB = s.func.nextBB ∧
          ∀ c, c ≠ addr → t.pending.get? c = s.pending.get? c := by
      intro u nbb main' k' hrun hpost hins hkeys hnext hpend
      rw [hrun]
      unfold State.serve
      cases prel.secs.foldlM (patch nbb) u.sections with
      | error e => exact .inl ⟨e, rfl, nofun⟩
      | ok sections =>
        refine .inr ⟨nbb, _, main', k', rfl, hpost.of_eq rfl rfl rfl rfl rfl rfl rfl, hins, hkeys,
          hnext, fun c hc => ?_⟩
        show (u.pending.remove addr).get? c = _
        rw [Map.get?_remove, if_neg hc, hpend]
    by_cases hk : k = addr
    · subst hk
      exact hserve (processPending_here hp haddr) h (hopen fun hn => hn.2 rfl) (fun _ _ => .rfl) rfl
        rfl
    · obtain ⟨top, i, bottom, heq, c⟩ := h.cut (lt_of_le_of_ne h.le hk)
      obtain ⟨t, hsplit, hh⟩ := c.split (h.code.not_succ h.heap)
      refine hserve (processPending_split hp haddr hk hsplit) (h.split heq c hh fun hl => ?_)
        (fun hne => absurd rfl hne) (fun c' hc => ?_) ?_ hh.pending
      · exact (hbad hl).mpr ⟨by rw [hp]; exact nofun, hk⟩
      · show (∃ b, (t.addBB addr s.nextBlock).findBB c' = some b) ↔ _
        rw [hh.find, if_neg (by omega)]
        exact .rfl
      · show t.func.nextBB = _
        rw [hh.func]

end Post
end RiscvSbt.Block
