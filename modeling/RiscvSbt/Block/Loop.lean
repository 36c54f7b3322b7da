import RiscvSbt.Block.Post

/-! The loop: `Inv` from one address to the next, and over a whole run. -/
namespace RiscvSbt.Block
open Library State

variable {opts : Options} {body : Nat → Inst} {n st : Nat} {bad : Nat → Prop} {s t : State}
  {addr main k : Nat}

/-- Where the builder stands after the instruction at `addr`: in an open block if the
instruction stays in its block, and in the last of its untracked ones if it leaves it. -/
structure Rests (opts : Options) (bad : Nat → Prop) (act : Act) (addr : Nat) (s : State) :
    Prop where
  runs : act.stays opts = true → s.insertBB.terminated = false
  region : act.leaves opts = true → ¬ bad addr → Region s addr s.bld.insertBlock
  quiet : act.leaves opts = true → ¬ bad addr → Quiet s s.insertBB.insts

namespace Post

/-- At the next address, given where the cursor stands. -/
theorem inv (h : Post opts body n st bad s addr main k)
    (hopen : s.bld.insertBlock ≠ main → ¬ bad addr)
    (hcur : s.insertBB.terminated ∨ s.insertBB.untracked → s.func.nextBB = addr + 4)
    (hnext : ∀ c, HasBB s c → addr < c → addr + 4 ≤ s.func.nextBB ∧ s.func.nextBB ≤ c)
    (hahead : addr + 4 < s.func.nextBB → HasBB s s.func.nextBB) :
    Inv opts body n st bad s (addr + 4) main k := by
  have hmod := h.aligned
  have hst := h.st_le
  have hle := h.le
  have hkeys : ∀ c, HasBB s c → c ≤ k ∨ addr + 4 ≤ c := fun c hc => by
    have := (h.bounds c hc).2
    rcases h.gap c hc with hc | hc
    · exact .inl hc
    · exact .inr (by omega)
  refine ⟨h.heap, h.bounds, h.entry, h.key, .inl (by omega), hkeys, h.code, h.recorded,
    fun c b hb hne => ?_, fun a ha hlt hm hl => ?_, fun a b hb => ?_, ?_, fun hne => ?_,
    fun hc => ⟨hcur hc, by omega⟩, fun _ _ => by omega, fun c hc hle hne => ?_, hahead⟩
  · refine ⟨(h.rest c b hb hne).1, (h.rest c b hb hne).2.imp (fun hs => ⟨hs.terminated, ?_⟩) ?_⟩
    · obtain ⟨e, hcode, hk, he, hrest⟩ := hs.code
      exact ⟨e, hcode, hk, by omega, hrest⟩
    · rintro ⟨hlt, hnil⟩
      have := (h.bounds c ⟨b, hb⟩).2
      exact ⟨by omega, hnil⟩
  · by_cases ha' : a = addr
    · subst ha'
      rcases h.place with ⟨-, he⟩ | ⟨-, hr, hq⟩
      · exact .inl (he hl).2
      · refine .inr ⟨rfl, hopen fun e => ?_, hr, hq⟩
        exact h.heap.find_ubbs h.key (e ▸ hr.exit)
    · exact .inl (h.exits a ha (by omega) hm hl)
  · obtain ⟨ha, hlt, hm, hl⟩ := h.helpers a b hb
    exact ⟨ha, by omega, hm, hl⟩
  · exact h.place.imp (fun hp => hp.1) fun hp => ⟨addr, rfl, hp.2.1.exit⟩
  · rcases h.place with ⟨hi, -⟩ | ⟨hl, -⟩
    · exact absurd hi hne
    · exact h.ends.mpr (Act.stays_of_leaves hl)
  · exact ⟨by omega, hnext c hc (by omega)⟩

/-- The block is closed unless the instruction stays in it. -/
theorem closes (h : Post opts body n st bad s addr main k) :
    (s.insertBB.terminated = true ∨ s.insertBB.untracked = true) ↔
      (body addr).act.stays opts = false := by
  rcases h.place with ⟨hi, -⟩ | ⟨hl, hr, -⟩
  · have hunt : (s.bbs main).untracked = false := (h.heap.tracked k main h.key).2.2.2
    unfold State.insertBB BasicBlock.terminated
    rw [hi, hunt, h.ends]
    exact ⟨fun hc => hc.elim id nofun, .inl⟩
  · refine ⟨fun _ => Act.stays_of_leaves hl, fun _ => .inr ?_⟩
    exact (h.heap.helper addr _ hr.exit).2.2

/-- Where the builder stands is open if the next instruction goes on there. -/
theorem rests (h : Post opts body n st bad s addr main k) :
    Rests opts bad (body addr).act addr s := by
  have hregion : (body addr).act.leaves opts = true → ¬ bad addr →
      Region s addr s.bld.insertBlock ∧ Quiet s s.insertBB.insts := fun hl hb => by
    rcases h.place with ⟨-, he⟩ | ⟨-, hr, hq⟩
    · exact absurd (he hl).1 hb
    · exact ⟨hr, hq⟩
  refine ⟨fun hs => ?_, fun hl hb => (hregion hl hb).1, fun hl hb => (hregion hl hb).2⟩
  by_contra ht
  rw [h.closes.mp (.inl (Bool.not_eq_false _ ▸ ht))] at hs
  exact nomatch hs

/-- **The end of a turn.** -/
theorem closeBB (h : Post opts body n st bad s addr main k)
    (hopen : s.bld.insertBlock ≠ main → ¬ bad addr)
    (hcur : (body addr).act.stays opts = true → Cursor s addr) :
    Inv opts body n st bad (s.closeBB addr) (addr + 4) main k ∧
      (Turns (s.closeBB addr) (addr + 4) ↔
        (body addr).act.stays opts = false ∨ HasBB s (addr + 4)) ∧
      (∀ c, (s.closeBB addr).findBB c = s.findBB c) ∧ (s.closeBB addr).pending = s.pending ∧
      Rests opts bad (body addr).act addr (s.closeBB addr) := by
  have hmod := h.aligned
  unfold State.closeBB
  by_cases hs : (body addr).act.stays opts = true
  · have hc : ¬ (s.insertBB.terminated = true ∨ s.insertBB.untracked = true) := by
      rw [h.closes, hs]
      exact nofun
    obtain ⟨hnext, hahead⟩ := hcur hs
    rw [if_neg hc]
    refine ⟨h.inv hopen (fun hc' => absurd hc' hc) (fun c hc hlt => ?_) (fun hlt => ?_), ?_,
      fun _ => rfl, rfl, h.rests⟩
    · obtain ⟨h₁, h₂⟩ := hnext c hc hlt
      have := (h.bounds _ (hahead h₁)).2
      exact ⟨by omega, h₂⟩
    · exact hahead (by omega)
    · rw [hs]
      refine ⟨fun ht => .inr ?_, fun hor => ?_⟩
      · rw [ht.2]
        exact hahead (by have := ht.2; omega)
      · obtain ⟨h₁, h₂⟩ := hnext _ (hor.resolve_left nofun) (by omega)
        have := (h.bounds _ (hahead h₁)).2
        exact ⟨by omega, by omega⟩
  · rw [Bool.not_eq_true] at hs
    have hpost : Post opts body n st bad {s with func := {s.func with nextBB := addr + 4}}
        addr main k :=
      h.of_eq rfl rfl rfl rfl rfl rfl rfl
    have hinv := hpost.inv hopen (fun _ => rfl) (fun c hc hlt => by
      have := (h.bounds c hc).2
      exact ⟨le_refl _, show addr + 4 ≤ c by omega⟩) fun hlt => absurd hlt (lt_irrefl _)
    rw [if_pos (h.closes.mpr hs), Mid.updateNextBB_eq]
    exact ⟨hinv, ⟨fun _ => .inl hs, fun _ => ⟨Nat.succ_ne_zero _, rfl⟩⟩, fun _ => rfl,
      rfl, hpost.rests⟩

end Post

/-- What a turn at `addr` does to the blocks ahead and to the labels. -/
structure Turned (opts : Options) (act : Act) (addr : Nat) (s t : State) : Prop where
  turns : Turns t (addr + 4) ↔ act.stays opts = false ∨ HasBB s (addr + 4)
  here : HasBB t (addr + 4) ↔ HasBB s (addr + 4) ∨ act.target?.isSome
  ahead : ∀ c, addr + 4 < c → (HasBB t c ↔ HasBB s c ∨ act.target? = some c)
  pending : ∀ c, c ≠ addr → t.pending.get? c = s.pending.get? c

theorem Act.stays_target {act : Act} {tgt : Nat} (h : act.target? = some tgt) :
    act.stays opts = false := by
  cases act with
  | branch _ => rfl
  | jump _ => rfl
  | _ => exact nomatch h

namespace Inv

theorem dbgprint_eq {a i : Nat} (h : s.getFirst.bld.first = some i) :
    s.dbgprint a = {s.getFirst with marks := Function.update s.getFirst.marks i (some a)} := by
  simp only [State.dbgprint, h]

theorem translateInstr_eq {inst : Inst} {m₀ : Nat}
    (h : (s.updateCurrentBB addr).bld.insertBlock = m₀) :
    s.translateInstr opts addr inst = (do
      let s ← (s.updateCurrentBB addr).translate opts addr inst
      let (bb, s) ← s.record addr m₀
      let (_, s) ← s.processPending addr bb
      pure (s.closeBB addr)) := by
  subst h
  rfl

/-- **One turn of the loop.** It fails on a jump to itself or to before the function, or on
a label's words. -/
theorem translateInstr (h : Inv opts body n st bad s addr main k)
    (hbad : (body addr).act.leaves opts = true →
      (bad addr ↔ s.pending.get? addr ≠ none ∧ ¬ (addr = st ∨ Turns s addr))) :
    (∃ e, s.translateInstr opts addr (body addr) = .error e ∧ (s.pending.get? addr ≠ none ∨
      ∃ tgt, (body addr).act.target? = some tgt ∧ (tgt = addr ∨ tgt < st))) ∨
    ∃ t main k, s.translateInstr opts addr (body addr) = .ok t ∧
      Inv opts body n st bad t (addr + 4) main k ∧ Turned opts (body addr).act addr s t ∧
      Rests opts bad (body addr).act addr t := by
  obtain ⟨m₀, k₀, l₀, hmid, hcur, hk₀, hkeys, hpend, -⟩ := h.head
  have hm₀ : (s.updateCurrentBB addr).bld.insertBlock = m₀ := hmid.insert
  rw [translateInstr_eq hm₀]
  generalize s.updateCurrentBB addr = u at *
  rcases hmid.translate with ⟨e, tgt, he, htgt, hor⟩ | ⟨v, main, k, l, c, hv, hready, heff, hk⟩
  · refine .inl ⟨e, ?_, .inr ⟨tgt, htgt, hor⟩⟩
    simp only [he]
    rfl
  obtain ⟨i, r, hready', hfirst, hfunc, hvp, -⟩ := hready.getFirst
  have hdbg := dbgprint_eq (a := addr) hfirst
  have hpost := hready'.post
  have hentered : (v.getFirst.enter addr main i.id).pending = s.pending :=
    hvp.trans (heff.pending.trans hpend)
  have hvkeys : ∀ c, HasBB (v.getFirst.enter addr main i.id) c ↔ HasBB v c := fun c => by
    show (∃ b, v.getFirst.func.bbMap.get? c = some b) ↔ _
    rw [hfunc]
    rfl
  simp only [hv, hdbg]
  rcases hpost.processPending (fun hl => by rw [hbad hl, hentered, hk hl, ne_eq k₀, hk₀]) with
    ⟨e, he, hp⟩ | ⟨bb, w, main', k', hw, hpost', hopen, hwkeys, hwnext, hwpend⟩
  · refine .inl ⟨e, ?_, .inl ?_⟩
    · show (State.record addr _ m₀ >>= _) = _
      rw [hready'.record hfirst]
      show (State.processPending addr _ main >>= _) = _
      rw [he]
      rfl
    · rw [← hentered]
      exact hp
  · have hahead : ∀ c, addr < c → (HasBB w c ↔ HasBB s c ∨ (body addr).act.target? = some c ∨
        (c = addr + 4 ∧ (body addr).act.target?.isSome)) := by
      intro c hc
      rw [hwkeys c hc, hvkeys, heff.keys c hc, hkeys]
      exact or_congr_left ⟨fun hor => hor.resolve_right fun hx => by omega, .inl⟩
    have hcur' : (body addr).act.stays opts = true → Cursor w addr := by
      intro hs
      have hnt : (body addr).act.target? = none := by
        by_contra hne
        obtain ⟨tgt, htgt⟩ := Option.ne_none_iff_exists'.mp hne
        rw [Act.stays_target htgt] at hs
        cases hs
      have hnb : w.func.nextBB = u.func.nextBB := by
        rw [hwnext, ← heff.cursor hs, ← hfunc]
        rfl
      have hwu : ∀ c, addr < c → (HasBB w c ↔ HasBB u c) := fun c hc => by
        rw [hahead c hc, hnt, hkeys]
        constructor
        · exact fun hor => .inl (hor.resolve_right (by rintro (hx | ⟨-, hx⟩) <;> exact nomatch hx))
        · exact fun hor => .inl (hor.resolve_right fun hx => by omega)
      refine ⟨fun c hc hlt => ?_, fun hlt => ?_⟩
      · rw [hnb]
        exact hcur.next c ((hwu c hlt).mp hc) hlt
      · rw [hnb] at hlt ⊢
        exact (hwu _ hlt).mpr (hcur.ahead hlt)
    obtain ⟨hinv, hturns, hfind, hcp, hrests⟩ := hpost'.closeBB hopen hcur'
    refine .inr ⟨w.closeBB addr, main', k', ?_, hinv, ⟨?_, ?_, fun c hc => ?_, fun c hc => ?_⟩,
      hrests⟩
    · show (State.record addr _ m₀ >>= _) = _
      rw [hready'.record hfirst]
      show (State.processPending addr _ main >>= _) = _
      rw [hw]
      rfl
    · rw [hturns, hahead _ (by omega)]
      refine or_congr_right' fun hs => ⟨fun hor => hor.resolve_right fun hx => hs ?_, .inl⟩
      rcases hx with hx | ⟨-, hx⟩
      · exact Act.stays_target hx
      · obtain ⟨tgt, htgt⟩ := Option.isSome_iff_exists.mp hx
        exact Act.stays_target htgt
    · have hhas : HasBB (w.closeBB addr) (addr + 4) ↔
          HasBB w (addr + 4) := by unfold HasBB; rw [hfind]
      rw [hhas, hahead _ (by omega)]
      refine or_congr_right ⟨fun hx => ?_, fun hx => .inr ⟨rfl, hx⟩⟩
      rcases hx with hx | ⟨-, hx⟩
      · rw [hx]
        rfl
      · exact hx
    · have hhas : HasBB (w.closeBB addr) c ↔ HasBB w c := by unfold HasBB; rw [hfind]
      rw [hhas, hahead c (by omega)]
      refine or_congr_right ⟨fun hx => hx.resolve_right fun hx => by omega, .inl⟩
    · rw [hcp, hwpend c hc, hentered]

end Inv

/-! ### Whole runs -/

/-- The state in which the translation of a new function begins. Outside of `dummyRet` the
builder counts first instructions. -/
def State.newFunction (s : State) (f : FnId) : State :=
  {s with func := {f := f}, bld := {s.bld with updateFirst := true}}

/-- The entry block and nothing else. -/
structure Init (n st : Nat) (s : State) (b : Nat) : Prop where
  heap : Heap n s
  find : ∀ c, s.findBB c = if c = st then some b else none
  ubbs : ∀ a, s.ubbs a = []
  quiet : Quiet s (s.bbs b).insts
  map : (s.bbs b).instrMap = Map.empty
  insert : s.bld.insertBlock = b
  nextBB : s.func.nextBB = 0

namespace Init
variable {b : Nat}

theorem emit (h : Init n st s b) : Init n st (s.emit .op) b := by
  refine ⟨h.heap.emit .op, h.find, h.ubbs, ?_, (emit_bbs s .op b).2.2.trans h.map,
    h.insert, h.nextBB⟩
  obtain ⟨hn, hlt⟩ := h.heap.insert
  rw [← h.insert, emit_insts_self]
  have hq : Quiet s s.insertBB.insts := by
    unfold State.insertBB
    rw [h.insert]
    exact h.quiet
  refine Quiet.append (hq.grow fun i hi => emit_marks (h.heap.ids _ hn hlt i hi)) fun i hi => ?_
  · rw [List.mem_singleton.mp hi]
    exact ⟨rfl, emit_marks_self s .op⟩

theorem ops (h : Init n st s b) (c : Nat) : Init n st (s.ops c) b ∧ (s.ops c).pending =
    s.pending := by
  induction c generalizing s with
  | zero => exact ⟨h, rfl⟩
  | succ c ih => exact ih h.emit

theorem inv (h : Init n st s b) (hst : st % 4 = 0) : Inv opts body n st bad s st b st := by
  have hkeys : ∀ c, HasBB s c → c = st := by
    rintro c ⟨b', hb⟩
    rw [h.find] at hb
    split at hb
    next heq => exact heq
    next => exact nomatch hb
  have hkey : s.findBB st = some b := (h.find st).trans (if_pos rfl)
  have hunt := (h.heap.tracked st b hkey).2.2.2
  refine ⟨h.heap, fun c hc => ?_, ⟨b, hkey⟩, hkey, .inr ⟨rfl, rfl⟩,
    fun c hc => .inl (le_of_eq (hkeys c hc)), ?_, fun a i => ?_,
    fun c b' hb hne => absurd (hkeys c ⟨b', hb⟩) hne, fun a ha hlt => by omega, fun a b' hb => ?_,
    .inl h.insert, fun hne => absurd h.insert hne, fun hc => ?_, fun hne => absurd h.nextBB hne,
    fun c hc _ hne => absurd (hkeys c hc) hne, fun hlt => ?_⟩
  · rw [hkeys c hc]
    exact ⟨le_refl _, hst⟩
  · have hstop : Code opts body s st [] st := .stop st
    have hcode := h.quiet.code hstop
    rwa [List.append_nil] at hcode
  · rw [h.map]
    refine ⟨fun hx => (nomatch hx), ?_⟩
    rintro ⟨x, hx, rfl, hm⟩
    rw [(h.quiet x hx).2] at hm
    exact nomatch hm
  · rw [h.ubbs] at hb
    exact nomatch hb
  · unfold State.insertBB BasicBlock.terminated at hc
    rw [h.insert, hunt, h.quiet.straight.terminator] at hc
    exact hc.elim nofun nofun
  · rw [h.nextBB] at hlt
    omega

end Init

theorem start_init (s : State) (f : FnId) (st prologue : Nat) :
    Init s.nextBlock st ((s.newFunction f).start st prologue) s.nextBlock ∧
      ((s.newFunction f).start st prologue).pending = s.pending := by
  have hfind : ∀ c, (((s.newFunction f).newBB st none).2.setInsertBlock s.nextBlock).findBB c =
      if c = st then some s.nextBlock else none := newBB_find (s.newFunction f) st none
  have hnew : (((s.newFunction f).newBB st none).2.setInsertBlock s.nextBlock).bbs s.nextBlock =
      {f := f, addr := some st} := newBB_bbs_self (s.newFunction f) st none
  have hblock : ∀ b, s.nextBlock ≤ b → b < s.nextBlock + 1 → b = s.nextBlock := fun b h₁ h₂ => by
    omega
  have hinit : Init s.nextBlock st (((s.newFunction f).newBB st none).2.setInsertBlock s.nextBlock)
      s.nextBlock := by
    refine ⟨⟨⟨le_refl _, Nat.lt_succ_self _⟩, rfl, fun b h₁ h₂ i hi => ?_, fun b h₁ h₂ => ?_,
      fun b c h₁ h₂ h₃ h₄ _ _ _ _ _ => (hblock b h₁ h₂).trans (hblock c h₃ h₄).symm,
      fun k b hk => ?_, fun a b hb => (nomatch hb), fun a c b hb => (nomatch hb),
      fun b h₁ h₂ => .inl ⟨st, ?_⟩⟩, hfind, fun a => rfl, ?_, ?_, rfl, rfl⟩
    · rw [hblock b h₁ h₂, hnew] at hi
      exact nomatch hi
    · rw [hblock b h₁ h₂, hnew]
      exact .nil
    · rw [hfind] at hk
      split at hk
      next heq =>
        rw [← Option.some.inj hk, hnew, heq]
        exact ⟨le_refl _, Nat.lt_succ_self _, rfl, rfl⟩
      next => exact nomatch hk
    · rw [hfind, if_pos rfl, hblock b h₁ h₂]
    · rw [hnew]
      exact .nil
    · rw [hnew]
  exact hinit.ops prologue

section Run
variable (opts : Options) (body : Nat → Inst) (st : Nat)

/-- A block starts at `a` before the instruction there is translated: it is the first, the
one before does not run on, or an earlier branch or jump goes there. -/
def Heads (a : Nat) : Prop :=
  a = st ∨ (st < a ∧ ((body (a - 4)).act.stays opts = false ∨
    ∃ c, st ≤ c ∧ c < a ∧ c % 4 = 0 ∧ (body c).act.target? = some a))

/-- An instruction whose untracked code is left open: its label splits the block that it
began in the middle of. -/
def Open (labels : Map Nat PendingReloc) (a : Nat) : Prop :=
    labels.get? a ≠ none ∧ ¬ Heads opts body st a

/-- What is known of the blocks ahead of `addr`. -/
structure Ahead (labels : Map Nat PendingReloc) (addr : Nat) (s : State) : Prop where
  turns : addr = st ∨ Turns s addr ↔ Heads opts body st addr
  here : HasBB s addr ↔ addr = st ∨ ∃ a, st ≤ a ∧ a < addr ∧ a % 4 = 0 ∧
    ((body a).act.target? = some addr ∨ (a + 4 = addr ∧ (body a).act.target?.isSome))
  keys : ∀ c, addr < c →
    (HasBB s c ↔ ∃ a, st ≤ a ∧ a < addr ∧ a % 4 = 0 ∧ (body a).act.target? = some c)
  pending : ∀ c, addr ≤ c → s.pending.get? c = labels.get? c

/-- The states at the head of the loop. -/
inductive Reach (s₀ : State) : Nat → State → Prop where
  | start : Reach s₀ st s₀
  | turn {addr : Nat} {s t : State} (before : Reach s₀ addr s)
      (run : s.translateInstr opts addr (body addr) = .ok t) : Reach s₀ (addr + 4) t

end Run

variable {labels : Map Nat PendingReloc}

theorem Ahead.step (h : Ahead opts body st labels addr s) (hst : st ≤ addr) (hmod : addr % 4 = 0)
    (ht : Turned opts (body addr).act addr s t) : Ahead opts body st labels (addr + 4) t := by
  refine ⟨?_, ?_, fun c hc => ?_, fun c hc => ?_⟩
  · rw [ht.turns, h.keys _ (by omega)]
    constructor
    · rintro (heq | hs | ⟨a, h₁, h₂, h₃, h₄⟩)
      · omega
      · exact .inr ⟨by omega, .inl hs⟩
      · exact .inr ⟨by omega, .inr ⟨a, h₁, by omega, h₃, h₄⟩⟩
    · rintro (heq | ⟨-, hs | ⟨a, h₁, h₂, h₃, h₄⟩⟩)
      · exact .inl heq
      · exact .inr (.inl hs)
      · by_cases ha : a = addr
        · exact .inr (.inl (Act.stays_target (ha ▸ h₄)))
        · exact .inr (.inr ⟨a, h₁, by omega, h₃, h₄⟩)
  · rw [ht.here, h.keys _ (by omega)]
    constructor
    · rintro (⟨a, h₁, h₂, h₃, h₄⟩ | hs)
      · exact .inr ⟨a, h₁, by omega, h₃, .inl h₄⟩
      · exact .inr ⟨addr, hst, by omega, hmod, .inr ⟨rfl, hs⟩⟩
    · rintro (heq | ⟨a, h₁, h₂, h₃, h₄⟩)
      · omega
      · by_cases ha : a = addr
        · subst ha
          rcases h₄ with h₄ | ⟨-, h₄⟩
          · exact .inr (by rw [h₄]; rfl)
          · exact .inr h₄
        · exact .inl ⟨a, h₁, by omega, h₃, h₄.resolve_right fun hx => by omega⟩
  · rw [ht.ahead c hc, h.keys c (by omega)]
    constructor
    · rintro (⟨a, h₁, h₂, h₃, h₄⟩ | htgt)
      · exact ⟨a, h₁, by omega, h₃, h₄⟩
      · exact ⟨addr, hst, by omega, hmod, htgt⟩
    · rintro ⟨a, h₁, h₂, h₃, h₄⟩
      by_cases ha : a = addr
      · exact .inr (ha ▸ h₄)
      · exact .inl ⟨a, h₁, by omega, h₃, h₄⟩
  · rw [ht.pending c (by omega), h.pending c (by omega)]

theorem Ahead.start (h : Init n st s k) : Ahead opts body st s.pending st s := by
  refine ⟨⟨fun _ => .inl rfl, fun _ => .inl rfl⟩, ⟨fun _ => .inl rfl, fun _ => ?_⟩, fun c hc => ?_,
    fun _ _ => rfl⟩
  · exact ⟨k, (h.find st).trans (if_pos rfl)⟩
  unfold HasBB
  rw [h.find, if_neg (by omega)]
  constructor
  · rintro ⟨_, hb⟩
    exact nomatch hb
  · rintro ⟨a, h₁, h₂, -⟩
    omega

/-- **One turn of a run.** -/
theorem Inv.step (h : Inv opts body n st (Open opts body st labels) s addr main k)
    (ha : Ahead opts body st labels addr s) :
    (∃ e, s.translateInstr opts addr (body addr) = .error e ∧ (labels.get? addr ≠ none ∨
      ∃ tgt, (body addr).act.target? = some tgt ∧ (tgt = addr ∨ tgt < st))) ∨
    ∃ t main k, s.translateInstr opts addr (body addr) = .ok t ∧
      Inv opts body n st (Open opts body st labels) t (addr + 4) main k ∧
      Ahead opts body st labels (addr + 4) t ∧
      Rests opts (Open opts body st labels) (body addr).act addr t := by
  have hst : st ≤ addr := by
    have := (h.bounds k ⟨main, h.key⟩).1
    rcases h.start with hk | ⟨hk, -⟩ <;> omega
  have hpend := ha.pending addr (le_refl _)
  have hbad : Open opts body st labels addr ↔
      s.pending.get? addr ≠ none ∧ ¬ (addr = st ∨ Turns s addr) := by
    rw [hpend, ha.turns]
    exact .rfl
  rcases h.translateInstr fun _ => hbad with ⟨e, he, hor⟩ | ⟨t, main', k',
    ht, hinv, hturned, hrests⟩
  · rw [hpend] at hor
    exact .inl ⟨e, he, hor⟩
  · exact .inr ⟨t, main', k', ht, hinv, ha.step hst h.aligned hturned, hrests⟩

/-- **The head of the loop.** -/
theorem Reach.inv {f : FnId} {prologue : Nat} (hst : st % 4 = 0)
    (h : Reach opts body st ((s.newFunction f).start st prologue) addr t) :
    ∃ main k, Inv opts body s.nextBlock st (Open opts body st s.pending) t addr main k ∧
      Ahead opts body st s.pending addr t := by
  obtain ⟨hinit, hpend⟩ := start_init s f st prologue
  induction h with
  | start =>
    refine ⟨s.nextBlock, st, hinit.inv hst, ?_⟩
    rw [← hpend]
    exact .start hinit
  | turn before run ih =>
    obtain ⟨main, k, hinv, ha⟩ := ih
    rcases hinv.step ha with ⟨e, he, -⟩ | ⟨u, main', k', hu, hinv', ha', -⟩
    · rw [run] at he
      exact nomatch he
    · rw [run] at hu
      obtain rfl := Except.ok.inj hu
      exact ⟨main', k', hinv', ha'⟩

/-- Behind the head of the loop. -/
theorem Reach.rests {f : FnId} {prologue a : Nat} (hst : st % 4 = 0)
    (h : Reach opts body st ((s.newFunction f).start st prologue) addr t) (ha : a + 4 = addr)
    (hle : st ≤ a) : Rests opts (Open opts body st s.pending) (body a).act a t := by
  cases h with
  | start => omega
  | @turn addr u t before run =>
    obtain rfl : a = addr := by omega
    obtain ⟨main, k, hinv, hahead⟩ := before.inv hst
    rcases hinv.step hahead with ⟨e, he, -⟩ | ⟨v, main', k', hv, -, -, hrests⟩
    · rw [run] at he
      exact nomatch he
    · rw [run] at hv
      obtain rfl := Except.ok.inj hv
      exact hrests

/-- What the loop returns is the state at the head of the next turn. -/
theorem Reach.translateInstrs {s₀ : State} (h : Reach opts body st s₀ addr s) (c : Nat)
    (hrun : s.translateInstrs opts body c addr = .ok t) :
    Reach opts body st s₀ (addr + 4 * c) t := by
  induction c generalizing addr s with
  | zero =>
    obtain rfl := Except.ok.inj hrun
    exact h
  | succ c ih =>
    unfold State.translateInstrs at hrun
    cases hu : s.translateInstr opts addr (body addr) with
    | error e => rw [hu] at hrun; exact nomatch hrun
    | ok u =>
      rw [hu] at hrun
      rw [show addr + 4 * (c + 1) = addr + 4 + 4 * c by omega]
      exact ih (.turn h hu) hrun

/-- The loop goes on for as long as targets are in range, if there are no labels. -/
theorem Reach.runs {f : FnId} {prologue : Nat} (hst : st % 4 = 0)
    (h : Reach opts body st ((s.newFunction f).start st prologue) addr t) (c : Nat)
    (hpend : ∀ a, addr ≤ a → a < addr + 4 * c → s.pending.get? a = none)
    (htgt : ∀ a tgt, addr ≤ a → a < addr + 4 * c → a % 4 = 0 →
      (body a).act.target? = some tgt → st ≤ tgt ∧ tgt ≠ a) :
    ∃ u, t.translateInstrs opts body c addr = .ok u := by
  induction c generalizing addr t with
  | zero => exact ⟨t, rfl⟩
  | succ c ih =>
    obtain ⟨main, k, hinv, ha⟩ := h.inv hst
    rcases hinv.step ha with ⟨e, -, hor⟩ | ⟨u, main', k', hu, -⟩
    · rcases hor with hor | ⟨tgt, htg, hor⟩
      · exact absurd (hpend addr (le_refl _) (by omega)) hor
      · obtain ⟨hle, hne⟩ := htgt addr tgt (le_refl _) (by omega) hinv.aligned htg
        omega
    · obtain ⟨v, hv⟩ := ih (.turn h hu) (fun a h₁ h₂ => hpend a (by omega) (by omega))
        fun a tgt h₁ h₂ => htgt a tgt (by omega) (by omega)
      refine ⟨v, ?_⟩
      unfold State.translateInstrs
      rw [hu]
      exact hv

end RiscvSbt.Block
