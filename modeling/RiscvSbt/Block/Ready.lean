import RiscvSbt.Block.Turn

/-! The code of one instruction.

When `translate` has emitted it, `Ready` says how the code `c` of the instruction at `addr`
sits in the main block, and where the builder was left. The block that the instruction was
begun in is `m₀`: it is the main block still, unless a jump back has split it. -/
namespace RiscvSbt.Block
open Library State

section Predicates
variable (opts : Options) (body : Nat → Inst) (n st : Nat) (bad : Nat → Prop) (s : State)

/-- How the code of an instruction ends. -/
inductive Finish (addr m₀ main : Nat) (c : List Instr) : Prop where
  | stays (act : (body addr).act.stays opts = true) (insert : s.bld.insertBlock = main)
      (quiet : Quiet s c)
  | ends {m : List Instr} {x : Instr} (act : (body addr).act.leaves opts = false)
      (insert : s.bld.insertBlock = main) (eq : c = m ++ [x]) (quiet : Quiet s m)
      (mark : s.marks x.id = none) (term : Term opts body s addr x.kind)
  | leaves {m : List Instr} {x : Instr} (act : (body addr).act.leaves opts = true)
      (same : m₀ = main) (region : Region s addr s.bld.insertBlock)
      (open_ : Quiet s s.insertBB.insts) (eq : c = m ++ [x]) (quiet : Quiet s m)
      (mark : s.marks x.id = none) (term : Term opts body s addr x.kind)

structure Ready (addr m₀ main k : Nat) (l c : List Instr) : Prop
    extends Work opts body n st bad s addr main k l where
  insts : (s.bbs main).insts = l ++ c
  first : s.bld.first = c.head?.map Instr.id
  finish : Finish opts body s addr m₀ main c
  none : (body addr).act.leaves opts = false → s.ubbs addr = []
  origin : ∃ c, s.findBB c = some m₀

end Predicates

/-- What an instruction does beside its code. -/
structure Effect (opts : Options) (act : Act) (addr : Nat) (s t : State) : Prop where
  keys : ∀ c, addr < c → (HasBB t c ↔
    HasBB s c ∨ act.target? = some c ∨ (c = addr + 4 ∧ act.target?.isSome))
  cursor : act.stays opts = true → t.func.nextBB = s.func.nextBB
  pending : t.pending = s.pending
  sections : t.sections = s.sections

variable {opts : Options} {body : Nat → Inst} {n st : Nat} {bad : Nat → Prop} {s t : State}
  {addr main k m₀ tgt : Nat} {l m c : List Instr}

theorem Act.stays_of_leaves {act : Act} (h : act.leaves opts = true) : act.stays opts = false := by
  cases act with
  | icall => simp only [Act.stays, h, Bool.not_true]
  | cvt => simp only [Act.stays, h, Bool.not_true]
  | _ => cases h

/-- Instructions without a target that neither make blocks nor turn the cursor. -/
theorem Effect.of_eq {act : Act} (hact : act.target? = .none) (hm : t.func.bbMap = s.func.bbMap)
    (hn : t.func.nextBB = s.func.nextBB) (hp : t.pending = s.pending)
    (hs : t.sections = s.sections) : Effect opts act addr s t := by
  refine ⟨fun c _ => ?_, fun _ => hn, hp, hs⟩
  rw [hact]
  unfold HasBB State.findBB
  rw [hm]
  exact ⟨.inl, fun h => h.elim id fun h => h.elim nofun fun h => nomatch h.2⟩

theorem Effect.after {act : Act} {u : State} (h : Effect opts act addr u t)
    (hu : u.func = s.func ∧ u.pending = s.pending ∧ u.sections = s.sections) :
    Effect opts act addr s t := by
  refine ⟨fun c hc => ?_, fun hs => ?_, h.pending.trans hu.2.1, h.sections.trans hu.2.2⟩
  · rw [h.keys c hc]
    unfold HasBB State.findBB
    rw [hu.1]
  · rw [h.cursor hs, hu.1]

namespace Mid

/-- The terminator of an instruction ends its code. -/
theorem close (h : Mid opts body n st bad s addr main k l m)
    (hact : (body addr).act.leaves opts = false) (ho : ∃ c, s.findBB c = some m₀) {kind : Kind}
    (ht : Term opts body s addr kind) :
    Ready opts body n st bad (s.emit kind) addr m₀ main k l (m ++ [⟨s.nextInstr, kind⟩]) := by
  refine ⟨h.toWork.emit h.insert kind, ?_, ?_, .ends hact h.insert rfl ?_ ?_ ?_, fun _ => h.none,
    ho⟩
  · rw [← h.insert, emit_insts_self, ← List.append_assoc, ← h.insts, ← h.insert]
    rfl
  · rw [emit_first h.heap.updateFirst, h.first]
    cases m <;> rfl
  · refine h.quiet.grow fun i hi => emit_marks (h.heap.ids main h.own.1 h.own.2 i ?_)
    rw [h.insts]
    exact List.mem_append_right _ hi
  · exact emit_marks_self s kind
  · exact Term.grow (s := s) (k := kind) ⟨fun _ _ hk => hk, fun _ _ hb => hb⟩ ht

/-! ### Branches and jumps -/

/-- The target's block. -/
theorem jumpTo (h : Mid opts body n st bad s addr main k l m) (hne : tgt ≠ addr) (hst : st ≤ tgt)
    (hmod : tgt % 4 = 0) :
    ∃ bb t main k l, (if addr < tgt then s.jumpForward tgt else s.jumpBackward tgt) = .ok (bb, t) ∧
      Mid opts body n st bad t addr main k l m ∧ Target s t tgt bb := by
  by_cases hlt : addr < tgt
  · obtain ⟨bb, t, hrun, hmid, htgt⟩ := h.jumpForward hlt hmod
    exact ⟨bb, t, main, k, l, by rw [if_pos hlt, hrun], hmid, htgt⟩
  · obtain ⟨bb, t, main', k', l', hrun, hmid, htgt⟩ := h.jumpBackward hst (by omega) hmod
    exact ⟨bb, t, main', k', l', by rw [if_neg hlt, hrun], hmid, htgt⟩

theorem handleJump_ok {cond : Option Cond} {bb : Nat} (hne : tgt ≠ addr)
    (hrun : (if addr < tgt then s.jumpForward tgt else s.jumpBackward tgt) = .ok (bb, t)) :
    s.handleJump addr tgt cond 0 =
      match cond with
      | some cond =>
        match (t.needNextBB addr).findBB (addr + 4) with
        | some next => .ok ((t.needNextBB addr).condBr cond bb next)
        | .none => .error "no block after a conditional branch"
      | .none => .ok ((t.needNextBB addr).br bb) := by
  unfold State.handleJump
  rw [if_neg hne]
  by_cases hlt : addr < tgt
  · rw [if_pos hlt] at hrun
    simp only [if_pos hlt, hrun]
    cases cond <;> rfl
  · rw [if_neg hlt] at hrun
    simp only [if_neg hlt, hrun]
    cases cond <;> rfl

/-- **Branches and jumps.** -/
theorem handleJump (h : Mid opts body n st bad s addr main k l m) {cond : Option Cond}
    (hcond : (cond = some (.guest addr) ∧ (body addr).act = .branch tgt) ∨
      (cond = .none ∧ (body addr).act = .jump tgt)) :
    (∃ e, s.handleJump addr tgt cond 0 = .error e ∧ (tgt = addr ∨ tgt < st)) ∨
    ∃ t main' k l c, s.handleJump addr tgt cond 0 = .ok t ∧
      Ready opts body n st bad t addr main main' k l c ∧ Effect opts (body addr).act addr s t := by
  have htarget : (body addr).act.target? = some tgt := by
    rcases hcond with ⟨-, hact⟩ | ⟨-, hact⟩ <;> rw [hact] <;> rfl
  have hstays : (body addr).act.stays opts = false ∧ (body addr).act.leaves opts = false := by
    rcases hcond with ⟨-, hact⟩ | ⟨-, hact⟩ <;> rw [hact] <;> exact ⟨rfl, rfl⟩
  by_cases hne : tgt = addr
  · exact .inl ⟨_, if_pos hne, .inl hne⟩
  by_cases hst : st ≤ tgt
  · obtain ⟨bb, t, main', k', l', hrun, hmid, htgt⟩ :=
      h.jumpTo hne hst ((body addr).aligned tgt htarget)
    obtain ⟨next, hmid', hnext, -⟩ := hmid.needNextBB
    have g := hnext.grow
    have ho : ∃ c, (t.needNextBB addr).findBB c = some main :=
      ⟨k, g.find _ _ (htgt.grow.find _ _ h.key)⟩
    have heffect : ∀ kind, Effect opts (body addr).act addr s ((t.needNextBB addr).emit kind) := by
      refine fun kind => ⟨fun c _ => ?_, fun hs => ?_, hnext.pending.trans htgt.pending,
        hnext.sections.trans htgt.sections⟩
      · rw [htarget]
        show HasBB (t.needNextBB addr) c ↔ _
        rw [hnext.keys, htgt.keys, or_assoc]
        refine or_congr_right (or_congr ?_ ?_)
        · rw [Option.some_inj, eq_comm]
        · exact ⟨fun hc => ⟨hc, rfl⟩, And.left⟩
      · rw [hstays.1] at hs
        exact nomatch hs
    refine .inr ?_
    rw [handleJump_ok hne hrun]
    rcases hcond with ⟨rfl, hact⟩ | ⟨rfl, hact⟩
    · simp only [hnext.find]
      exact ⟨_, _, _, _, _, rfl,
        hmid'.close hstays.2 ho (.branch hact (g.find _ _ htgt.find) hnext.find), heffect _⟩
    · exact ⟨_, _, _, _, _, rfl, hmid'.close hstays.2 ho (.jump hact (g.find _ _ htgt.find)),
        heffect _⟩
  · obtain ⟨e, he⟩ := h.jumpBackward_error (by omega : tgt < st)
    have hlt : ¬ addr < tgt := by
      have := h.st_le
      omega
    refine .inl ⟨e, ?_, .inr (by omega)⟩
    unfold State.handleJump
    rw [if_neg hne, if_neg hlt, he]
    rfl

end Mid

/-! ### Untracked code -/

/-- Where the untracked code of an instruction ends, it is complete. -/
theorem Aux.Ends.ready {s₀ : State}
    (h : Aux.Ends opts body n st bad s₀ s t addr main k l ((body addr).act.leaves opts = true))
    (hins : s.bld.insertBlock = main)
    (hact : (body addr).act.stays opts = !(body addr).act.leaves opts) :
    (∃ c, Ready opts body n st bad t addr main main k l c) ∧ Beside s₀ t := by
  obtain ⟨c, haux⟩ := h.aux
  refine ⟨⟨c, haux.toWork, haux.insts, haux.first, ?_, fun hl => ?_, k, haux.key⟩, haux.beside⟩
  · cases haux.shape with
    | main insert quiet =>
      refine .stays ?_ insert quiet
      rw [hact, Bool.not_eq_true']
      by_contra hl
      exact h.left (Bool.not_eq_false _ ▸ hl) insert
    | left insert open_ eq quiet mark term =>
      have hl : (body addr).act.leaves opts = true := by
        by_contra hl
        rw [h.stayed hl, hins] at insert
        exact haux.heap.find_ubbs haux.key insert
      refine .leaves hl rfl ⟨insert, fun y hy hne => ?_⟩ open_ eq quiet mark term
      exact (haux.done y hy (haux.heap.helper addr y hy).2.1).resolve_left hne
  · have hmain : t.bld.insertBlock = main := by
      rw [h.stayed (by rw [hl]; exact Bool.false_ne_true), hins]
    refine List.eq_nil_iff_forall_not_mem.mpr fun y hy => ?_
    have := haux.still hmain y hy
    have := (haux.heap.helper addr y hy).2.1
    omega

/-! ### The instructions -/

/-- Noting the indirect branch down changes nothing else. -/
theorem Ready.noted (h : Ready opts body n st bad s addr m₀ main k l c) (indBrs : List Nat) :
    Ready opts body n st bad {s with func := {s.func with indBrs := indBrs}}
    addr m₀ main k l c := by
  have g : Grows s {s with func := {s.func with indBrs := indBrs}} :=
    ⟨fun _ _ hk => hk, fun _ _ hb => hb⟩
  refine ⟨h.toWork.of_eq rfl rfl rfl rfl rfl rfl rfl rfl, h.insts, h.first, ?_, h.none,
    h.origin⟩
  cases h.finish with
  | stays act insert quiet => exact .stays act insert quiet
  | ends act insert eq quiet mark term => exact .ends act insert eq quiet mark (term.grow g)
  | leaves act same region open_ eq quiet mark term =>
    refine .leaves act same ⟨region.exit, region.forward⟩ open_ eq quiet mark (term.grow g)

namespace Mid

/-- Instructions that only compute. -/
theorem ready (h : Mid opts body n st bad s addr main k l m)
    (hact : (body addr).act.stays opts = true) :
    Ready opts body n st bad s addr main main k l m :=
  ⟨h.toWork, h.insts, h.first, .stays hact h.insert h.quiet, fun _ => h.none, k, h.key⟩

/-- **Translating one instruction.** It fails on a jump to itself or to before the
function. -/
theorem translate (h : Mid opts body n st bad s.reset addr main k l []) :
    (∃ e tgt, s.translate opts addr (body addr) = .error e ∧
      (body addr).act.target? = some tgt ∧ (tgt = addr ∨ tgt < st)) ∨
    ∃ t main' k' l' c, s.translate opts addr (body addr) = .ok (t.dbgprint addr) ∧
      Ready opts body n st bad t addr main main' k' l' c ∧ Effect opts (body addr).act addr s t ∧
      ((body addr).act.leaves opts = true → k' = k) := by
  obtain ⟨⟨m, hm⟩, hside⟩ := h.ops (body addr).ops
  rw [List.nil_append] at hm
  unfold State.translate
  generalize hs : s.reset.ops (body addr).ops = u at *
  have hside' : u.func = s.func ∧ u.pending = s.pending ∧ u.sections = s.sections :=
    ⟨hside.func, hside.pending, hside.sections⟩
  have heffect : ∀ t : State, (body addr).act.target? = .none → Beside u t →
      Effect opts (body addr).act addr s t := by
    intro t ht hb
    refine .of_eq ht ?_ ?_ (hb.pending.trans hside'.2.1) (hb.sections.trans hside'.2.2)
    · rw [hb.bbMap, hside'.1]
    · rw [hb.nextBB, hside'.1]
  cases hact : (body addr).act with
  | next =>
    rw [hact] at heffect
    refine .inr ⟨u, main, k, l, m, rfl, hm.ready (by rw [hact]; rfl), heffect _ rfl (.refl u), ?_⟩
    exact fun hl => nomatch hl
  | call tgt =>
    rw [hact] at heffect
    refine .inr ⟨u, main, k, l, m, rfl, hm.ready (by rw [hact]; rfl), heffect _ rfl (.refl u), ?_⟩
    exact fun hl => nomatch hl
  | icall =>
    have hends := hm.aux.handleICall hact
    rw [← hact] at hends
    obtain ⟨⟨c, hready⟩, hb⟩ := hends.ready hm.insert (by rw [hact]; rfl)
    rw [hact] at heffect
    exact .inr ⟨_, main, k, l, c, rfl, hready, heffect _ rfl hb, fun _ => rfl⟩
  | cvt =>
    have hends := hm.aux.translateCVT hact
    rw [← hact] at hends
    obtain ⟨⟨c, hready⟩, hb⟩ := hends.ready hm.insert (by rw [hact]; rfl)
    rw [hact] at heffect
    exact .inr ⟨_, main, k, l, c, rfl, hready, heffect _ rfl hb, fun _ => rfl⟩
  | ret =>
    rw [hact] at heffect
    refine .inr ⟨_, main, k, l, _, rfl, hm.close (by rw [hact]; rfl) ⟨k, hm.key⟩ (.ret (.inl hact)),
      heffect _ rfl ⟨rfl, rfl, rfl, rfl⟩, ?_⟩
    exact fun hl => nomatch hl
  | tail tgt =>
    rw [hact] at heffect
    refine .inr ⟨_, main, k, l, _, rfl, hm.close (by rw [hact]; rfl) ⟨k, hm.key⟩
      (.ret (.inr ⟨tgt, hact⟩)),
      heffect _ rfl ⟨rfl, rfl, rfl, rfl⟩, ?_⟩
    exact fun hl => nomatch hl
  | ijump =>
    rw [hact] at heffect
    have hready := hm.close (by rw [hact]; rfl) ⟨k, hm.key⟩ (.ijump hact)
    refine .inr ⟨_, main, k, l, _, rfl, hready.noted _, heffect _ rfl ⟨rfl, rfl, rfl, rfl⟩, ?_⟩
    exact fun hl => nomatch hl
  | branch tgt =>
    rcases hm.handleJump (.inl ⟨rfl, hact⟩) with
      ⟨e, he, htgt⟩ | ⟨t, main', k', l', c, ht, hready, heff⟩
    · refine .inl ⟨e, tgt, ?_, rfl, htgt⟩
      simp only [he]
      rfl
    · rw [hact] at heff
      refine .inr ⟨t, main', k', l', c, ?_, hready, heff.after hside', fun hl => nomatch hl⟩
      simp only [ht]
      rfl
  | jump tgt =>
    rcases hm.handleJump (.inr ⟨rfl, hact⟩) with
      ⟨e, he, htgt⟩ | ⟨t, main', k', l', c, ht, hready, heff⟩
    · refine .inl ⟨e, tgt, ?_, rfl, htgt⟩
      simp only [he]
      rfl
    · rw [hact] at heff
      refine .inr ⟨t, main', k', l', c, ?_, hready, heff.after hside', fun hl => nomatch hl⟩
      simp only [ht]
      rfl

end Mid
end RiscvSbt.Block
