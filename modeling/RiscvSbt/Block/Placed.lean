import RiscvSbt.Block.Partition
import RiscvSbt.Block.Together

/-! Where the code of guest instructions is.

A turn of the loop adds one guest instruction, and what it computes with in one piece (`Adds`).
Over a run every instruction keeps its piece (`Placed`), so that a block is made of the pieces of
its instructions (`Placed.segmented`). -/
namespace RiscvSbt.Block
open Library State

variable {opts : Options} {body : Nat → Inst} {n st : Nat} {bad : Nat → Prop} {s t : State}
  {addr main k : Nat} {m : List Instr}

/-! ### A turn -/

theorem Carries.updateCurrentBB (s : State) : Carries n s (s.updateCurrentBB addr) := by
  unfold State.updateCurrentBB
  split
  · have hins : ∀ (v : State) (b : Nat), Carries n s v →
        Carries n s ((if v.insertBB.terminated = true then v else v.br b).setInsertBlock b) := by
      intro v b hv
      split
      · exact hv.trans (.setInsertBlock v b)
      · exact hv.trans ((Carries.br v b).trans (.setInsertBlock _ b))
    cases hf : s.findBB addr with
    | some b =>
      dsimp only
      split
      · exact (hins s b (.refl s)).trans (.updateNextBB _ _)
      · exact hins s b (.refl s)
    | none =>
      have hnew := hins _ (s.newBB addr (s.lowerBoundBB addr)).1
        (.newBB s addr (s.lowerBoundBB addr))
      dsimp only
      split
      · exact hnew.trans (.updateNextBB _ _)
      · exact hnew
  · exact .refl s

/-- The instructions that are made first. -/
theorem ops_spec (s : State) (c : Nat) : (s.ops c).nextInstr = s.nextInstr + c ∧
    ((s.ops c).bbs s.bld.insertBlock).insts = s.insertBB.insts ++ piece s.nextInstr c := by
  induction c generalizing s with
  | zero => exact ⟨rfl, (List.append_nil _).symm⟩
  | succ c ih =>
    obtain ⟨hnext, hinsts⟩ := ih (s.emit .op)
    refine ⟨?_, ?_⟩
    · show ((s.emit .op).ops c).nextInstr = _
      rw [hnext]
      show s.nextInstr + 1 + c = s.nextInstr + (c + 1)
      omega
    · show (((s.emit .op).ops c).bbs (s.emit .op).bld.insertBlock).insts = _
      rw [hinsts, piece_succ]
      show ((s.emit .op).bbs s.bld.insertBlock).insts ++ _ = _
      rw [emit_insts_self, List.append_assoc]
      rfl

theorem ops_together (hn : n ≤ s.bld.insertBlock) (hlt : s.bld.insertBlock < s.nextBlock)
    (c : Nat) :
    Together n (s.ops c) (piece s.nextInstr c) := by
  obtain ⟨hnext, hinsts⟩ := ops_spec s c
  have hops := Carries.ops (n := n) s c
  refine ⟨fun i hi => ?_, fun i hi => ?_, s.bld.insertBlock, hn,
    lt_of_lt_of_le hlt hops.nextBlock, ?_⟩
  · obtain ⟨-, -, h⟩ := mem_piece.mp hi
    omega
  · obtain ⟨-, h₁, h₂⟩ := mem_piece.mp (List.mem_of_mem_tail hi)
    exact hops.fresh i.id h₁ (by omega)
  · rw [hinsts]
    exact (List.suffix_append _ _).isInfix

theorem ops_first (hu : s.bld.updateFirst = true) (hfirst : s.bld.first = none)
    {c : Nat} (hc : 0 < c) :
    (s.ops c).bld.first = some s.nextInstr := by
  obtain ⟨c, rfl⟩ := Nat.exists_eq_succ_of_ne_zero (Nat.ne_of_gt hc)
  refine (Carries.ops (n := 0) (s.emit .op) c).first s.nextInstr ?_
  show (if s.bld.first = none ∧ s.bld.updateFirst then some s.nextInstr else s.bld.first) = _
  rw [if_pos ⟨hfirst, hu⟩]

/-- What a turn at `addr` adds: the guest instruction starts at the LLVM instruction `i`, where the
`c` instructions are that it computes with. -/
structure Adds (n addr c : Nat) (s t : State) (i : Nat) : Prop where
  le : s.nextInstr ≤ i
  lt : i < t.nextInstr
  stop : i + c ≤ t.nextInstr
  marks : ∀ j, j < s.nextInstr → t.marks j = s.marks j
  fresh : ∀ j, s.nextInstr ≤ j → j < t.nextInstr → t.marks j = if j = i then some addr else none
  together : ∀ m, Together n s m → Together n t m
  within : ∀ j, Within n t j → Within n s j ∨ s.nextInstr ≤ j.id
  piece : 0 < c → Together n t (piece i c)
  /-- The builder remembers it. -/
  first : t.bld.first = some i

/-- Marking an instruction that is in front of what is together, or not in it. -/
theorem Together.mark (h : Together n s m) {i : Nat} (hi : ∀ j ∈ m.tail, j.id ≠ i)
    (hb : t.nextBlock = s.nextBlock) (hn : t.nextInstr = s.nextInstr)
    (hbbs : ∀ b, (t.bbs b).insts = (s.bbs b).insts)
    (hmarks : t.marks = Function.update s.marks i (some addr)) : Together n t m := by
  refine ⟨fun j hj => hn ▸ h.ids j hj, fun j hj => ?_, ?_⟩
  · rw [hmarks, Function.update_of_ne (hi j hj)]
    exact h.unmarked j hj
  · obtain ⟨b, h₁, h₂, h₃⟩ := h.block
    exact ⟨b, h₁, hb ▸ h₂, hbbs b ▸ h₃⟩

theorem dbgprint_bld (s : State) (addr : Nat) : (s.dbgprint addr).bld = s.getFirst.bld := by
  unfold State.dbgprint
  cases hf : s.getFirst.bld.first with
  | none => simp only [hf]
  | some i => simp only [hf]

theorem Carries.addInstr (s : State) (b i : Nat) : Carries n s (s.addInstr addr b i) := by
  refine .note rfl rfl rfl rfl fun c => ?_
  by_cases hc : c = b
  · rw [hc, show (State.addInstr addr s b i).bbs b = _ from Function.update_self _ _ _]
  · exact congrArg BasicBlock.insts (Function.update_of_ne hc _ _)

theorem Carries.closeBB (s : State) : Carries n s (s.closeBB addr) := by
  unfold State.closeBB
  split
  · exact updateNextBB s _
  · exact .refl s

/-- **A turn keeps together what was, and the code of the instruction.** -/
theorem Inv.adds (h : Inv opts body n st bad s addr main k)
    (ht : s.translateInstr opts addr (body addr) = .ok t) :
    ∃ i, Adds n addr (body addr).ops s t i := by
  obtain ⟨m₀, k₀, l₀, hmid, -⟩ := h.head
  have hm₀ : (s.updateCurrentBB addr).bld.insertBlock = m₀ := hmid.insert
  rw [translateInstr_eq hm₀] at ht
  have hup : Carries n s (s.updateCurrentBB addr) := .updateCurrentBB s
  generalize s.updateCurrentBB addr = u at *
  obtain ⟨d, hd, ht⟩ := bind_ok ht
  obtain ⟨v, hv, rfl⟩ := hmid.carries hd
  obtain ⟨⟨b, r⟩, hr, ht⟩ := bind_ok ht
  obtain ⟨⟨b', q⟩, hq, ht⟩ := bind_ok ht
  obtain rfl := Except.ok.inj ht
  -- The instruction is marked and recorded in the main block.
  rcases hmid.translate with ⟨e, tgt, he, -⟩ | ⟨v', main', k', l', c, hv', hready, -⟩
  · rw [hd] at he
    cases he
  obtain ⟨i, r', hready', hfirst, -⟩ := hready.getFirst
  have hdbg : v.dbgprint addr = v'.dbgprint addr := Except.ok.inj (hd.symm.trans hv')
  have hr' : State.record addr (v'.dbgprint addr) m₀ = .ok (b, r) := hdbg ▸ hr
  rw [dbgprint_eq hfirst, hready'.record hfirst] at hr'
  obtain ⟨rfl, rfl⟩ := Prod.mk.inj (Except.ok.inj hr')
  have hclose : Carries n q (q.closeBB addr) := .closeBB q
  have hq' := (hready'.post.carries hq).trans hclose
  have hi : v.getFirst.bld.first = some i.id := by
    rw [← dbgprint_bld v addr, hdbg, dbgprint_bld]
    exact hfirst
  have hg : Carries n (u.reset.ops (body addr).ops) v.getFirst := hv.trans (.getFirst v)
  have hreset : Carries n u.reset v.getFirst := (Carries.ops _ _).trans hg
  have hnext : u.reset.nextInstr = u.nextInstr := rfl
  rw [dbgprint_eq hi, dbgprint_eq hfirst] at hdbg
  generalize v.getFirst = g at *
  have ht' : Carries n {g with marks := Function.update g.marks i.id (some addr)}
      (q.closeBB addr) := by
    refine .trans ?_ hq'
    rw [hdbg]
    exact .addInstr _ _ _
  clear hdbg hq' hv hd hr hq
  generalize q.closeBB addr = t at *
  have hsince := (hreset.since i.id hi).resolve_left nofun
  have h₁ := hup.nextInstr
  have h₂ : g.nextInstr ≤ t.nextInstr := ht'.nextInstr
  have hmark : ∀ m, Together n g m → (∀ j ∈ m.tail, j.id ≠ i.id) → Together n t m := fun m hm hne =>
    ht'.together m (hm.mark hne rfl rfl (fun _ => rfl) rfl)
  have hstart : Unmarked u u.reset := .of_eq rfl rfl
  have hnew : Unmarked s g := hup.toUnmarked.trans (hstart.trans hreset.toUnmarked)
  have hmarks : ∀ j, j < g.nextInstr → t.marks j = if j = i.id then some addr else g.marks j :=
    fun j hj => (ht'.marks j hj).trans (Function.update_apply _ _ _ _)
  have hfirst' : 0 < (body addr).ops → i.id = u.nextInstr := fun hc =>
    Option.some.inj (hi.symm.trans (hg.first _ (ops_first hmid.heap.updateFirst rfl hc)))
  have hcode : Together n g (piece u.nextInstr (body addr).ops) := by
    obtain ⟨hn, hlt⟩ := hmid.heap.insert
    exact hg.together _ (ops_together (s := u.reset) hn hlt _)
  have hlen := hg.nextInstr
  rw [(ops_spec u.reset (body addr).ops).1] at hlen
  refine ⟨i.id, ⟨by omega, by omega, ?_, fun j hj => ?_, fun j hj hjt => ?_,
    fun m hm => ?_, fun j hj => ?_,
    fun hc => ?_, ht'.first i.id hi⟩⟩
  · by_cases hc : 0 < (body addr).ops
    · have := hfirst' hc
      omega
    · omega
  · rw [hmarks j (by omega), if_neg (by omega), hnew.marks j hj]
  · by_cases hlt : j < g.nextInstr
    · rw [hmarks j hlt, hnew.fresh j hj hlt]
    · rw [if_neg (by omega)]
      exact ht'.fresh j (Nat.not_lt.mp hlt) hjt
  · have hu := hup.together m hm
    refine hmark m (hreset.together m ⟨hu.ids, hu.unmarked, hu.block⟩) fun j hj => ?_
    have := hm.ids j (List.mem_of_mem_tail hj)
    omega
  · rcases ht'.within j hj with hj | hj
    · rcases hreset.within j hj with hj | hj
      · exact hup.within j hj
      · exact .inr (le_trans h₁ hj)
    · exact .inr (le_trans hnew.nextInstr hj)
  · rw [hfirst' hc]
    refine hmark _ hcode fun j hj => ?_
    obtain ⟨c, hc'⟩ := Nat.exists_eq_succ_of_ne_zero (Nat.ne_of_gt hc)
    rw [hc', Nat.succ_eq_add_one, piece_succ, List.tail_cons] at hj
    have := (mem_piece.mp hj).2.1
    have := hfirst' hc
    omega

/-! ### A run -/

/-- Where the instructions of the loop from `st` up to `addr` start, and where their code is. The
marks of the loop are among the instructions from `base` on. -/
structure Placed (body : Nat → Inst) (n st base addr : Nat) (t : State) (first : Nat → Nat) :
    Prop where
  start : ∀ a, Past st addr a → base ≤ first a ∧ first a < t.nextInstr ∧
    first a + (body a).ops ≤ t.nextInstr
  mark : ∀ i a, base ≤ i → i < t.nextInstr →
    (t.marks i = some a ↔ Past st addr a ∧ i = first a)
  ids : ∀ i, Within n t i → base ≤ i.id
  code : ∀ a, Past st addr a → 0 < (body a).ops → Together n t (piece (first a) (body a).ops)
  apart : ∀ a c, Past st addr a → Past st addr c → a < c → first a + (body a).ops ≤ first c

theorem Placed.turn {base i : Nat} {first : Nat → Nat} (h : Placed body n st base addr s first)
    (hst : st ≤ addr) (hmod : addr % 4 = st % 4) (hbase : base ≤ s.nextInstr)
    (ht : Adds n addr (body addr).ops s t i) :
    Placed body n st base (addr + 4) t (Function.update first addr i) := by
  have hold : ∀ a, Past st addr a → Function.update first addr i a = first a := fun a ha =>
    Function.update_of_ne (Nat.ne_of_lt ha.2.1) _ _
  have hnew : Function.update first addr i addr = i := Function.update_self _ _ _
  have hle := ht.le
  have hlt := ht.lt
  refine ⟨fun a ha => ?_, fun j a hj hjt => ?_, fun j hj => ?_, fun a ha hc => ?_,
    fun a c ha hc hac => ?_⟩
  · rcases (Past.next hst hmod).mp ha with ha | rfl
    · obtain ⟨h₁, h₂, h₃⟩ := h.start a ha
      rw [hold a ha]
      omega
    · rw [hnew]
      have := ht.stop
      omega
  · rw [Past.next hst hmod]
    by_cases hjs : j < s.nextInstr
    · rw [ht.marks j hjs, h.mark j a hj hjs]
      constructor
      · rintro ⟨ha, hja⟩
        exact ⟨.inl ha, by rw [hold a ha]; exact hja⟩
      · rintro ⟨ha | rfl, hja⟩
        · exact ⟨ha, by rw [← hold a ha]; exact hja⟩
        · rw [hnew] at hja
          omega
    · rw [ht.fresh j (Nat.not_lt.mp hjs) hjt]
      constructor
      · intro hm
        split at hm
        next hji =>
          obtain rfl := Option.some.inj hm
          exact ⟨.inr rfl, by rw [hnew]; exact hji⟩
        next => cases hm
      · rintro ⟨ha | rfl, hja⟩
        · rw [hold a ha] at hja
          have := (h.start a ha).2.1
          omega
        · rw [if_pos (by rw [hja, hnew])]
  · rcases ht.within j hj with hj | hj
    · exact h.ids j hj
    · exact le_trans hbase hj
  · rcases (Past.next hst hmod).mp ha with ha | rfl
    · rw [hold a ha]
      exact ht.together _ (h.code a ha hc)
    · rw [hnew]
      exact ht.piece hc
  · rcases (Past.next hst hmod).mp hc with hc | rfl
    · rcases (Past.next hst hmod).mp ha with ha | rfl
      · rw [hold a ha, hold c hc]
        exact h.apart a c ha hc hac
      · have := hc.2.1
        omega
    · rcases (Past.next hst hmod).mp ha with ha | rfl
      · have := (h.start a ha).2.2
        rw [hold a ha, hnew]
        omega
      · omega

/-- **The code of every instruction stays together**, over a whole run. -/
theorem Reach.placed {f : FnId} {prologue : Nat} (hst : st % 4 = 0)
    (h : Reach opts body st ((s.newFunction f).start st prologue) addr t) :
    s.nextInstr ≤ t.nextInstr ∧ ∃ first, Placed body s.nextBlock st s.nextInstr addr t first := by
  induction h with
  | start =>
    have hnew : Unmarked s (((s.newFunction f).newBB st none).2.setInsertBlock s.nextBlock) :=
      .of_eq rfl rfl
    have hops : Carries s.nextBlock
        (((s.newFunction f).newBB st none).2.setInsertBlock s.nextBlock)
        ((s.newFunction f).start st prologue) := .ops _ prologue
    have hs : Unmarked s ((s.newFunction f).start st prologue) := hnew.trans hops.toUnmarked
    have hnone : ∀ a, ¬ Past st st a := fun a ha => absurd ha.1 (Nat.not_le.mpr ha.2.1)
    refine ⟨hs.nextInstr, id, fun a ha => absurd ha (hnone a), fun i a h₁ h₂ => ?_, fun i hi => ?_,
      fun a ha => absurd ha (hnone a), fun a _ ha => absurd ha (hnone a)⟩
    · rw [hs.fresh i h₁ h₂]
      exact ⟨fun hm => (nomatch hm), fun hm => absurd hm.1 (hnone a)⟩
    · -- The entry block is empty before the prologue.
      refine (hops.within i hi).resolve_left ?_
      rintro ⟨b, hn, hlt, hmem⟩
      obtain rfl : b = s.nextBlock := Nat.le_antisymm (Nat.lt_succ_iff.mp hlt) hn
      rw [show (((s.newFunction f).newBB st none).2.setInsertBlock s.nextBlock).bbs
        s.nextBlock = _ from
        newBB_bbs_self (s.newFunction f) st none] at hmem
      cases hmem
  | turn before run ih =>
    obtain ⟨hle, first, hp⟩ := ih
    obtain ⟨main, k, hinv, -⟩ := before.inv hst
    obtain ⟨i, hi⟩ := hinv.adds run
    have hmod := hinv.aligned
    exact ⟨le_trans hle (le_trans hi.le (le_of_lt hi.lt)), _, hp.turn before.le (by omega) hle hi⟩

/-- The code of one of the instructions that a loop is past. -/
def Coded (body : Nat → Inst) (st addr : Nat) (first : Nat → Nat) (m : List Instr) : Prop :=
  ∃ a, Past st addr a ∧ 0 < (body a).ops ∧ m = piece (first a) (body a).ops

/-- A block is made of the codes of its instructions, and of what belongs to none. -/
theorem Placed.segmented {base : Nat} {first : Nat → Nat} (h : Placed body n st base addr t first)
    (hheap : Heap n t) {b : Nat} (hn : n ≤ b) (hlt : b < t.nextBlock) :
    Segmented (Coded body st addr first) (t.bbs b).insts := by
  refine .of_parts (List.Nodup.of_map Instr.id (hheap.nodup b hn hlt)) ?_ ?_
  · rintro _ _ ⟨a, ha, -, rfl⟩ ⟨c, hc, -, rfl⟩ x hx hx'
    obtain ⟨-, h₁, h₂⟩ := mem_piece.mp hx
    obtain ⟨-, h₃, h₄⟩ := mem_piece.mp hx'
    have hac : a = c := by
      rcases Nat.lt_trichotomy a c with hac | hac | hac
      · have := h.apart a c ha hc hac
        omega
      · exact hac
      · have := h.apart c a hc ha hac
        omega
    rw [hac]
  · rintro _ ⟨a, ha, hpos, rfl⟩ ⟨x, hx, hxb⟩
    obtain ⟨c, hc, hclt, hin⟩ := (h.code a ha hpos).block
    obtain rfl := hheap.disjoint c b hc hclt hn hlt x (hin.subset hx) x hxb rfl
    exact hin

end RiscvSbt.Block
