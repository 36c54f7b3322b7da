import RiscvSbt.Block.Helpers

/-! One turn of the loop.

`Inv` holds at the head of the loop. The turn moves to the block of the address
(`head`), emits the code of the instruction there (`Ready`), marks and records its first
instruction (`After`), and leaves by `Inv` of the next address. -/
namespace RiscvSbt.Block
open Library State

section Predicates
variable (opts : Options) (body : Nat → Inst) (n st : Nat) (bad : Nat → Prop) (s : State)

/-- The head of the loop at `addr`, with the block of the last instruction. -/
structure Inv (addr main k : Nat) : Prop where
  heap : Heap n s
  bounds : ∀ c, HasBB s c → st ≤ c ∧ c % 4 = 0
  entry : HasBB s st
  key : s.findBB k = some main
  start : k < addr ∨ (k = addr ∧ addr = st)
  gap : ∀ c, HasBB s c → c ≤ k ∨ addr ≤ c
  code : Code opts body s k (s.bbs main).insts addr
  recorded : Recorded s main (s.bbs main).insts
  rest : ∀ c b, s.findBB c = some b → c ≠ k → Recorded s b (s.bbs b).insts ∧
    (Sealed opts body s addr c b ∨ (addr ≤ c ∧ (s.bbs b).insts = []))
  exits : ∀ a, st ≤ a → a < addr → a % 4 = 0 → (body a).act.leaves opts → Exit bad s a ∨
    (a + 4 = addr ∧ ¬ bad a ∧ Region s a s.bld.insertBlock ∧ Quiet s s.insertBB.insts)
  helpers : ∀ a b, b ∈ s.ubbs a → st ≤ a ∧ a < addr ∧ a % 4 = 0 ∧ (body a).act.leaves opts
  insert : s.bld.insertBlock = main ∨ ∃ a, a + 4 = addr ∧ s.bld.insertBlock ∈ s.ubbs a
  shut : s.bld.insertBlock ≠ main → (terminator (s.bbs main).insts).isSome
  cursor : s.insertBB.terminated ∨ s.insertBB.untracked → s.func.nextBB = addr ∧ st < addr
  turn : s.func.nextBB ≠ 0 → addr = s.func.nextBB → st < addr
  next : ∀ c, HasBB s c → addr ≤ c → c ≠ k →
    st < addr ∧ addr ≤ s.func.nextBB ∧ s.func.nextBB ≤ c
  ahead : addr < s.func.nextBB → HasBB s s.func.nextBB

/-- Whether the loop opens a block at `addr`. -/
def Turns (addr : Nat) : Prop := s.func.nextBB ≠ 0 ∧ addr = s.func.nextBB

/-- After the head of the loop, the cursor points at the next block. -/
structure Cursor (addr : Nat) : Prop where
  next : ∀ c, HasBB s c → addr < c → addr < s.func.nextBB ∧ s.func.nextBB ≤ c
  ahead : addr < s.func.nextBB → HasBB s s.func.nextBB

end Predicates

variable {opts : Options} {body : Nat → Inst} {n st : Nat} {bad : Nat → Prop} {s t : State}
  {addr main k : Nat} {l c : List Instr}

namespace Inv

theorem aligned (h : Inv opts body n st bad s addr main k) : addr % 4 = 0 := by
  rw [h.code.mod]
  exact (h.bounds k ⟨main, h.key⟩).2

theorem own (h : Inv opts body n st bad s addr main k) : n ≤ main ∧ main < s.nextBlock :=
  ⟨(h.heap.tracked k main h.key).1, (h.heap.tracked k main h.key).2.1⟩

/-- An open main block is the insert block, and goes on if no block is opened. -/
theorem stays (h : Inv opts body n st bad s addr main k) (hturn : ¬ Turns s addr) :
    s.bld.insertBlock = main ∧ Straight (s.bbs main).insts ∧ ∀ c, HasBB s c → c ≤ k ∨ addr < c := by
  have hcur : ¬ (s.insertBB.terminated ∨ s.insertBB.untracked) := by
    intro hc
    obtain ⟨hn, hst⟩ := h.cursor hc
    exact hturn ⟨by omega, hn.symm⟩
  have hins : s.bld.insertBlock = main := by
    rcases h.insert with hins | ⟨a, -, hub⟩
    · exact hins
    · exact absurd (.inr (h.heap.helper a _ hub).2.2) hcur
  refine ⟨hins, ?_, fun c hc => ?_⟩
  · rcases h.code.straight_or with hs | ⟨m, i, heq, -, hi, -⟩
    · exact hs
    · refine absurd (.inl ?_) hcur
      show (terminator (s.bbs s.bld.insertBlock).insts).isSome = true
      rw [hins, heq, terminator_append, if_pos hi]
      rfl
  · by_cases hck : c = k
    · exact .inl (le_of_eq hck)
    · rcases h.gap c hc with hle | hle
      · exact .inl hle
      · obtain ⟨hst, h₁, h₂⟩ := h.next c hc hle hck
        exact .inr (lt_of_le_of_ne hle fun heq => hturn ⟨by omega, by omega⟩)

/-- Going on in the main block. -/
theorem goOn (h : Inv opts body n st bad s addr main k) (hturn : ¬ Turns s addr) :
    Mid opts body n st bad s.reset addr main k (s.bbs main).insts [] := by
  obtain ⟨hins, hs, hgap⟩ := h.stays hturn
  have hnone : s.ubbs addr = [] := by
    refine List.eq_nil_iff_forall_not_mem.mpr fun b hb => ?_
    have := (h.helpers addr b hb).2.1
    omega
  have hk : k ≤ addr := by
    rcases h.start with hk | ⟨hk, -⟩ <;> omega
  have hw : Work opts body n st bad s addr main k (s.bbs main).insts := by
    refine ⟨h.heap, h.bounds, h.entry, h.key, hk, hgap, List.prefix_refl _, h.code, hs, h.recorded,
      fun c b hb hne => ?_, fun a hst ha hm hact => ?_, fun a b hb => .inr (h.helpers a b hb)⟩
    · obtain ⟨hrec, hrest⟩ := h.rest c b hb hne
      refine ⟨hrec, hrest.imp_right fun ⟨hle, hnil⟩ => ⟨?_, hnil⟩⟩
      rcases hgap c ⟨b, hb⟩ with hc | hc
      · have := lt_of_le_of_ne hc hne
        omega
      · exact hc
    · rcases h.exits a hst ha hm hact with he | ⟨-, -, hr, -⟩
      · exact he
      · exact absurd (hins ▸ hr.exit) (h.heap.find_ubbs h.key)
  exact ⟨hw.of_eq rfl rfl rfl rfl rfl rfl rfl rfl, by simp only [List.append_nil]; rfl, .nil, hins,
    rfl, hnone⟩

/-! ### Opening a block -/

/-- The block to open, made if it is not there yet. -/
theorem newBB (h : Inv opts body n st bad s addr main k) (hst : st < addr)
    (hnext : s.func.nextBB = addr) (before : Option Nat) (hnone : s.findBB addr = none) :
    Inv opts body n st bad (s.newBB addr before).2 addr main k := by
  have g := newBB_grows before hnone
  have hne : ∀ {b}, b < s.nextBlock → (s.newBB addr before).2.bbs b = s.bbs b := fun hb =>
    newBB_bbs_of_ne (Nat.ne_of_lt hb)
  have f : Frame n (fun _ => False) s (s.newBB addr before).2 :=
    { g with
      bbs := fun b hb _ => hne hb
      nextBlock := Nat.le_succ _
      marks := fun _ _ _ _ _ _ => rfl }
  have hkeys : ∀ c, HasBB (s.newBB addr before).2 c → HasBB s c ∨ c = addr := by
    rintro c ⟨b, hb⟩
    rw [newBB_find] at hb
    split at hb
    next heq => exact .inr heq
    next => exact .inl ⟨b, hb⟩
  have hinsert : (s.newBB addr before).2.insertBB = s.insertBB := hne h.heap.insert.2
  refine ⟨h.heap.newBB before hnone, fun c hc => ?_, h.entry.grow g, g.find _ _ h.key, h.start,
    fun c hc => ?_, ?_, ?_, fun c b hb hck => ?_, fun a ha hlt hm hact => ?_, h.helpers, h.insert,
    fun hins => ?_, fun hc => ?_, h.turn, fun c hc hle hck => ?_, fun hlt => (h.ahead hlt).grow g⟩
  · rcases hkeys c hc with hc | rfl
    · exact h.bounds c hc
    · exact ⟨le_of_lt hst, h.aligned⟩
  · rcases hkeys c hc with hc | rfl
    · exact h.gap c hc
    · exact .inr (le_refl _)
  · rw [hne h.own.2]
    exact h.code.grow g fun _ _ => rfl
  · have hr : Recorded (s.newBB addr before).2 main (s.bbs main).insts :=
      Recorded.keep (s := s) (by rw [hne h.own.2]) (fun _ _ => rfl) h.recorded
    rw [hne h.own.2]
    exact hr
  · rw [newBB_find] at hb
    split at hb
    next heq =>
      rw [← Option.some.inj hb, newBB_bbs_self]
      refine ⟨fun a i => ?_, .inr ⟨le_of_eq heq.symm, rfl⟩⟩
      rw [newBB_bbs_self]
      simp
    next =>
      obtain ⟨hrec, hrest⟩ := h.rest c b hb hck
      obtain ⟨-, hlt, -⟩ := h.heap.tracked c b hb
      have hr : Recorded (s.newBB addr before).2 b (s.bbs b).insts :=
        Recorded.keep (s := s) (by rw [hne hlt]) (fun _ _ => rfl) hrec
      rw [hne hlt]
      refine ⟨hr, hrest.imp_left fun hs => ?_⟩
      refine hs.frame f h.heap hb id fun e _ he hsep c' hc' => ?_
      rcases hkeys c' hc' with hc' | rfl
      · exact hsep c' hc'
      · exact .inr he
  · refine (h.exits a ha hlt hm hact).imp (fun he => ?_) fun ⟨h₁, h₂, h₃, h₄⟩ => ⟨h₁, h₂, ?_, ?_⟩
    · exact he.frame f h.heap (fun _ hb => hb) (fun _ _ => id) fun _ _ hne => hne
    · exact h₃.frame f h.heap (fun _ hb => hb) fun _ _ _ => id
    · rw [hinsert]
      exact h₄
  · rw [hne h.own.2]
    exact h.shut hins
  · rw [hinsert] at hc
    exact h.cursor hc
  · rcases hkeys c hc with hc | rfl
    · exact h.next c hc hle hck
    · exact ⟨hst, le_of_eq hnext.symm, le_of_eq hnext⟩

/-! ### Closing the block before -/

/-- The insert block is closed by a branch to `b`, unless it has been. -/
structure Glued (n : Nat) (s : State) (b : Nat) (t : State) : Prop where
  heap : Heap n t
  frame : Frame n (· = s.bld.insertBlock) s t
  func : t.func = s.func
  insert : t.bld.insertBlock = s.bld.insertBlock
  shut : s.insertBB.terminated = true → t = s
  branch : s.insertBB.terminated = false →
    ∃ i, (t.bbs s.bld.insertBlock).insts = s.insertBB.insts ++ [i] ∧ i.kind = .br b ∧
      t.marks i.id = none ∧ (t.bbs s.bld.insertBlock).instrMap = s.insertBB.instrMap ∧
      ∀ x ∈ s.insertBB.insts, t.marks x.id = s.marks x.id

theorem glue (h : Heap n s) (b : Nat) :
    Glued n s b (if s.insertBB.terminated then s else s.br b) := by
  cases hterm : s.insertBB.terminated with
  | true =>
    rw [if_pos rfl]
    exact ⟨h, .of_eq _ ⟨fun _ _ hk => hk, fun _ _ hb => hb⟩ rfl rfl rfl, rfl, rfl, fun _ => rfl,
      fun hno => absurd hno (by rw [hterm]; decide)⟩
  | false =>
    rw [if_neg Bool.false_ne_true]
    refine ⟨h.emit _, .emit h _, rfl, rfl, fun hyes => absurd hyes (by rw [hterm]; decide), fun _ =>
      ⟨⟨s.nextInstr, .br b⟩, emit_insts_self s _, rfl, emit_marks_self s _, (emit_bbs s _ _).2.2,
        fun x hx => ?_⟩⟩
    exact emit_marks (h.ids _ h.insert.1 h.insert.2 x hx)

namespace Glued
variable {b : Nat} (g : Glued n s b t)
include g

theorem find (c : Nat) : t.findBB c = s.findBB c := by
  unfold State.findBB
  rw [g.func]

theorem ubbs (a : Nat) : t.ubbs a = s.ubbs a := by
  unfold State.ubbs
  rw [g.func]

theorem has (c : Nat) : HasBB t c ↔ HasBB s c := by
  unfold HasBB
  rw [g.find]

end Glued

/-- The last block is complete. -/
theorem closed (h : Inv opts body n st bad s addr main k) {b : Nat} (g : Glued n s b t)
    (hka : k < addr) (hb : s.findBB addr = some b) :
    Recorded t main (t.bbs main).insts ∧ Sealed opts body t addr k main := by
  have hsep : ∀ c, HasBB t c → c ≤ k ∨ addr ≤ c := fun c hc => h.gap c ((g.has c).mp hc)
  have hend : HasBB t addr := ⟨b, by rw [g.find]; exact hb⟩
  by_cases hopen : main = s.bld.insertBlock ∧ s.insertBB.terminated = false
  · obtain ⟨hins, hterm⟩ := hopen
    obtain ⟨i, hi, hk, hm, hmap, hmarks⟩ := g.branch hterm
    unfold State.insertBB at hi hmap hmarks
    rw [← hins] at hi hmap hmarks
    have hstraight : Straight (s.bbs main).insts := by
      rcases h.code.straight_or with hs | ⟨m, j, heq, -, hj, -⟩
      · exact hs
      · unfold BasicBlock.terminated State.insertBB at hterm
        rw [← hins, heq, terminator_append, if_pos hj] at hterm
        exact nomatch hterm
    rw [hi]
    refine ⟨fun a x => ?_, ?_, addr, ?_, hka, le_refl _, hend, hsep⟩
    · rw [(h.recorded.keep hmap hmarks) a x]
      refine ⟨fun ⟨y, hy, hyx⟩ => ⟨y, List.mem_append_left _ hy, hyx⟩, fun ⟨y, hy, hyx, hma⟩ => ?_⟩
      rcases List.mem_append.mp hy with hy | hy
      · exact ⟨y, hy, hyx, hma⟩
      · rw [← hyx, List.mem_singleton.mp hy, hm] at hma
        exact nomatch hma
    · rw [hi, terminator_append, hk]
      rfl
    · rw [hi]
      exact .append hstraight (h.code.grow g.frame.toGrows hmarks)
        (.glue hm hk (by rw [g.find]; exact hb))
  · have hshut : (terminator (s.bbs main).insts).isSome := by
      by_cases hi : s.bld.insertBlock = main
      · rw [not_and, Bool.not_eq_false] at hopen
        have := hopen hi.symm
        unfold BasicBlock.terminated State.insertBB at this
        rw [← hi]
        exact this
      · exact h.shut hi
    have hsame : t.bbs main = s.bbs main ∧
        ∀ x ∈ (s.bbs main).insts, t.marks x.id = s.marks x.id := by
      by_cases hi : main = s.bld.insertBlock
      · rw [not_and, Bool.not_eq_false] at hopen
        rw [g.shut (hopen hi)]
        exact ⟨rfl, fun _ _ => rfl⟩
      · exact ⟨g.frame.bbs main h.own.2 hi, g.frame.marks main h.own.1 h.own.2 hi⟩
    rw [hsame.1]
    exact ⟨h.recorded.keep (by rw [hsame.1]) hsame.2, by rw [hsame.1]; exact hshut, addr,
      by rw [hsame.1]; exact h.code.grow g.frame.toGrows hsame.2, hka, le_refl _, hend, hsep⟩

/-- The blocks but the last one are what they were. -/
theorem rest_glued (h : Inv opts body n st bad s addr main k) {b c b' : Nat} (g : Glued n s b t)
    (hb' : t.findBB c = some b') (hck : c ≠ k) (hne : c ≠ addr) :
    Recorded t b' (t.bbs b').insts ∧
      (Sealed opts body t addr c b' ∨ (addr < c ∧ (t.bbs b').insts = [])) := by
  rw [g.find] at hb'
  obtain ⟨hrec, hrest⟩ := h.rest c b' hb' hck
  obtain ⟨hn', hlt', -⟩ := h.heap.tracked c b' hb'
  have hB : ¬ b' = s.bld.insertBlock := by
    rcases h.insert with hi | ⟨a, -, hub⟩
    · rw [hi]
      exact h.heap.find_ne hb' h.key hck
    · exact fun e => h.heap.find_ubbs hb' (e ▸ hub)
  have hbbs := g.frame.bbs b' hlt' hB
  rw [hbbs]
  refine ⟨hrec.keep (by rw [hbbs]) (g.frame.marks b' hn' hlt' hB), ?_⟩
  rcases hrest with hs | ⟨hle, hnil'⟩
  · refine .inl (hs.frame g.frame h.heap hb' hB fun e _ _ hsep c' hc' => ?_)
    exact hsep c' ((g.has c').mp hc')
  · exact .inr ⟨lt_of_le_of_ne hle (Ne.symm hne), hnil'⟩

/-- An exit among whose blocks the insert block is has that one open only. -/
theorem stay_of_exit {a b : Nat} (g : Glued n s b t) (he : Exit bad s a)
    (hmem : s.bld.insertBlock ∈ s.ubbs a) : t = s := by
  obtain ⟨x, hr, hclosed, hopen⟩ := he
  by_cases hterm : s.insertBB.terminated = true
  · exact g.shut hterm
  · exfalso
    apply hterm
    show (terminator (s.bbs s.bld.insertBlock).insts).isSome = true
    by_cases hi : s.bld.insertBlock = x
    · by_cases hb' : bad a
      · exact absurd hi.symm (hopen hb').2
      · obtain ⟨m, i, b₁, hm, -, -, hk, -⟩ := hclosed hb'
        rw [hi, hm, terminator_append, hk]
        rfl
    · obtain ⟨m, i, hm, -, -, hk, -⟩ := hr.forward _ hmem hi
      rw [hm, terminator_append]
      rcases hk with ⟨z, hk⟩ | ⟨z, w, hk⟩ <;> rw [hk] <;> rfl

/-- The exits are still there, and that of the instruction before gets the branch. -/
theorem exits_glued (h : Inv opts body n st bad s addr main k) {a b : Nat} (g : Glued n s b t)
    (hb : s.findBB addr = some b) (ha : st ≤ a) (hlt : a < addr) (hm : a % 4 = 0)
    (hact : (body a).act.leaves opts) : Exit bad t a := by
  rcases h.exits a ha hlt hm hact with he | ⟨haddr, hbad, hr, hq⟩
  · by_cases hmem : s.bld.insertBlock ∈ s.ubbs a
    · rw [stay_of_exit g he hmem]
      exact he
    · refine he.frame g.frame h.heap (fun b' hb' => ?_) (fun y hy hyi => hmem (hyi ▸ hy))
        fun y _ hne => ?_
      · rw [← g.ubbs]
        exact hb'
      · rw [g.insert]
        exact hne
  · have hterm : s.insertBB.terminated = false := by
      show (terminator s.insertBB.insts).isSome = false
      rw [hq.straight.terminator]
      rfl
    obtain ⟨i, hi, hk, hm, -, hmarks⟩ := g.branch hterm
    refine ⟨s.bld.insertBlock, ⟨by rw [g.ubbs]; exact hr.exit, fun y hy hne => ?_⟩, fun _ => ?_,
      fun hb' => absurd hb' hbad⟩
    · rw [g.ubbs] at hy
      exact (hr.forward y hy hne).frame g.frame h.heap hy hne
    · refine ⟨_, i, b, hi, hq.grow hmarks, hm, hk, ?_⟩
      rw [g.find, haddr]
      exact hb

/-- The block before is closed by a branch, unless it has been, and the block of `addr`
becomes the main block. -/
theorem switch (h : Inv opts body n st bad s addr main k) (hst : st < addr) {b : Nat}
    (hb : s.findBB addr = some b) :
    let t := (if s.insertBB.terminated then s else s.br b).setInsertBlock b
    Work opts body n st bad t addr b addr [] ∧ (t.bbs b).insts = [] := by
  have hka : k < addr := by
    rcases h.start with hk | ⟨-, hk⟩ <;> omega
  obtain ⟨hrecb, hrestb⟩ := h.rest addr b hb (Nat.ne_of_gt hka)
  have hnil : (s.bbs b).insts = [] := by
    rcases hrestb with hs | ⟨-, hnil⟩
    · obtain ⟨e, -, h₁, h₂, -⟩ := hs.code
      omega
    · exact hnil
  obtain ⟨hbn, hblt, -⟩ := h.heap.tracked addr b hb
  have hbins : b ≠ s.bld.insertBlock := by
    rcases h.insert with hi | ⟨a, -, hub⟩
    · rw [hi]
      exact h.heap.find_ne hb h.key (Nat.ne_of_gt hka)
    · exact fun e => h.heap.find_ubbs hb (e ▸ hub)
  have g := glue h.heap b
  generalize (if s.insertBB.terminated then s else s.br b) = t at g
  have hbt : t.bbs b = s.bbs b := g.frame.bbs b hblt hbins
  have hmain := h.closed g hka hb
  intro t'
  have hw : Work opts body n st bad t addr b addr [] := by
    refine ⟨g.heap, fun c hc => h.bounds c ((g.has c).mp hc), h.entry.grow g.frame.toGrows,
      by rw [g.find]; exact hb, le_refl _, fun c hc => ?_, List.nil_prefix, .stop addr, .nil, ?_,
      fun c b' hb' hne => ?_, fun a ha hlt hm hact => h.exits_glued g hb ha hlt hm hact,
      fun a b' hb' => .inr ?_⟩
    · rcases h.gap c ((g.has c).mp hc) with hc' | hc'
      · exact .inl (by omega)
      · exact (Nat.eq_or_lt_of_le hc').imp (fun e => le_of_eq e.symm) id
    · intro a i
      rw [hbt, hrecb, hnil]
      simp only [List.not_mem_nil, false_and, exists_false]
    · by_cases hck : c = k
      · subst hck
        rw [g.find] at hb'
        obtain rfl : main = b' := Option.some.inj (h.key.symm.trans hb')
        exact ⟨hmain.1, .inl hmain.2⟩
      · exact h.rest_glued g hb' hck hne
    · rw [g.ubbs] at hb'
      exact h.helpers a b' hb'
  refine ⟨hw.setInsertBlock, ?_⟩
  show (t.bbs b).insts = []
  rw [hbt, hnil]

theorem ubbs_nil (h : Inv opts body n st bad s addr main k) : s.ubbs addr = [] := by
  refine List.eq_nil_iff_forall_not_mem.mpr fun b hb => ?_
  have := (h.helpers addr b hb).2.1
  omega

/-- Opening the block of `addr`, that is there. -/
theorem turnTo (h : Inv opts body n st bad s addr main k) (hst : st < addr)
    (hnext : s.func.nextBB = addr) {b : Nat} (hb : s.findBB addr = some b) :
    let t := (if s.insertBB.terminated then s else s.br b).setInsertBlock b
    let u := match t.nextBBAddr addr with
      | some nextBB => t.updateNextBB nextBB
      | none => t
    Mid opts body n st bad u.reset addr b addr [] [] ∧ Cursor u addr ∧
      (∀ c, u.findBB c = s.findBB c) ∧ u.pending = s.pending ∧ u.sections = s.sections := by
  obtain ⟨hw, hnil⟩ := h.switch hst hb
  intro t u
  have hfunc : t.func = s.func := by
    show (if s.insertBB.terminated then s else s.br b).func = _
    split <;> rfl
  have hside : t.pending = s.pending ∧ t.sections = s.sections := by
    show (if s.insertBB.terminated then s else s.br b).pending = _ ∧
      (if s.insertBB.terminated then s else s.br b).sections = _
    split <;> exact ⟨rfl, rfl⟩
  have hfind : ∀ c, t.findBB c = s.findBB c := fun c => by unfold State.findBB; rw [hfunc]
  have hnone : t.ubbs addr = [] := by
    show (t.func.ubbMap.get? addr).getD [] = []
    rw [hfunc]
    exact h.ubbs_nil
  have hmod := h.aligned
  cases hlb : t.func.bbMap.lowerBound (addr + 4) with
  | none =>
    have hu : u = t := by
      show (match t.nextBBAddr addr with | some nextBB => t.updateNextBB nextBB | none => t) = t
      unfold State.nextBBAddr
      rw [hlb]
      rfl
    rw [hu]
    refine ⟨⟨hw.of_eq rfl rfl rfl rfl rfl rfl rfl rfl, hnil, .nil, rfl, rfl, hnone⟩, ⟨?_, ?_⟩,
      hfind, hside⟩
    · rintro c ⟨b', hb'⟩ hc
      have := Map.lowerBound_eq_none.mp hlb c b' hb'
      have := (hw.bounds c ⟨b', hb'⟩).2
      omega
    · intro hlt
      rw [hfunc] at hlt
      omega
  | some i =>
    obtain ⟨hget, hle, hmin⟩ := Map.lowerBound_eq_some.mp hlb
    have hu : u = t.updateNextBB i.1 := by
      show (match t.nextBBAddr addr with | some nextBB => t.updateNextBB nextBB | none => t) = _
      unfold State.nextBBAddr
      rw [hlb]
      rfl
    rw [hu, Mid.updateNextBB_eq]
    refine ⟨⟨hw.of_eq rfl rfl rfl rfl rfl rfl rfl rfl, hnil, .nil, rfl, rfl, hnone⟩, ⟨?_, ?_⟩,
      hfind, hside⟩
    · rintro c ⟨b', hb'⟩ hc
      have := (hw.bounds c ⟨b', hb'⟩).2
      have hc := hmin c b' hb' (by omega)
      show addr < i.1 ∧ i.1 ≤ c
      omega
    · exact fun _ => ⟨i.2, hget⟩

theorem updateCurrentBB_some (hturn : Turns s addr) {b : Nat} (hb : s.findBB addr = some b) :
    s.updateCurrentBB addr =
      (let t := (if s.insertBB.terminated then s else s.br b).setInsertBlock b
      match t.nextBBAddr addr with
      | some nextBB => t.updateNextBB nextBB
      | none => t) := by
  unfold State.updateCurrentBB
  rewrite [if_pos (show s.func.nextBB ≠ 0 ∧ addr = s.func.nextBB from hturn), hb]
  rfl

theorem updateCurrentBB_none (hturn : Turns s addr) (hb : s.findBB addr = none) :
    s.updateCurrentBB addr =
      (let s' := (s.newBB addr (s.lowerBoundBB addr)).2
      let t := (if s'.insertBB.terminated then s' else s'.br s.nextBlock).setInsertBlock s.nextBlock
      match t.nextBBAddr addr with
      | some nextBB => t.updateNextBB nextBB
      | none => t) := by
  unfold State.updateCurrentBB
  rw [if_pos (show s.func.nextBB ≠ 0 ∧ addr = s.func.nextBB from hturn), hb]
  rfl

/-- **The head of a turn.** -/
theorem head (h : Inv opts body n st bad s addr main k) :
    ∃ main k l, Mid opts body n st bad (s.updateCurrentBB addr).reset addr main k l [] ∧
      Cursor (s.updateCurrentBB addr) addr ∧ (k = addr ↔ addr = st ∨ Turns s addr) ∧
      (∀ c, HasBB (s.updateCurrentBB addr) c ↔ HasBB s c ∨ (c = addr ∧ Turns s addr)) ∧
      (s.updateCurrentBB addr).pending = s.pending ∧
      (s.updateCurrentBB addr).sections = s.sections := by
  by_cases hturn : Turns s addr
  · have hst := h.turn hturn.1 hturn.2
    cases hb : s.findBB addr with
    | some b =>
      rw [updateCurrentBB_some hturn hb]
      obtain ⟨hmid, hcur, hfind, hside⟩ := h.turnTo hst hturn.2.symm hb
      refine ⟨b, addr, [], hmid, hcur, ⟨fun _ => .inr hturn, fun _ => rfl⟩, fun c => ?_, hside⟩
      unfold HasBB
      rw [hfind]
      refine ⟨.inl, fun hc => hc.elim id ?_⟩
      rintro ⟨rfl, -⟩
      exact ⟨b, hb⟩
    | none =>
      rw [updateCurrentBB_none hturn hb]
      have hnew := newBB_find s addr (s.lowerBoundBB addr)
      obtain ⟨hmid, hcur, hfind, hside⟩ :=
        (h.newBB hst hturn.2.symm (s.lowerBoundBB addr) hb).turnTo hst hturn.2.symm
          ((hnew addr).trans (if_pos rfl))
      refine ⟨s.nextBlock, addr, [], hmid, hcur, ⟨fun _ => .inr hturn, fun _ => rfl⟩,
        fun c => ?_, hside⟩
      unfold HasBB
      rw [hfind, hnew]
      split
      next heq => exact ⟨fun _ => .inr ⟨heq, hturn⟩, fun _ => ⟨_, rfl⟩⟩
      next hne => exact ⟨.inl, fun hc => hc.resolve_right fun hc => hne hc.1⟩
  · have heq : s.updateCurrentBB addr = s := by
      unfold State.updateCurrentBB
      exact if_neg hturn
    rw [heq]
    refine ⟨main, k, _, h.goOn hturn, ⟨fun c hc hlt => ?_, h.ahead⟩, ⟨fun hk => ?_, fun hk => ?_⟩,
      fun c => ⟨.inl, fun hc => hc.resolve_right fun hc => hturn hc.2⟩, rfl, rfl⟩
    · have hk : c ≠ k := by
        rcases h.start with hk | ⟨hk, -⟩ <;> omega
      obtain ⟨hst, h₁, h₂⟩ := h.next c hc (le_of_lt hlt) hk
      exact ⟨lt_of_le_of_ne h₁ fun heq => hturn ⟨by omega, heq⟩, h₂⟩
    · rcases h.start with hk' | ⟨-, hk'⟩
      · omega
      · exact .inl hk'
    · have hk := hk.resolve_right hturn
      have := (h.bounds k ⟨main, h.key⟩).1
      rcases h.start with hk' | ⟨hk', -⟩ <;> omega

end Inv
end RiscvSbt.Block
